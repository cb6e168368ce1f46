-- Schemas: features that belong together. Declarations are a schema if each
-- key stands once and can be a key, every need is declared, and no feature
-- needs itself.
import FeatureGraph.Schema.Error
import FeatureGraph.Schema.Feature
import FeatureGraph.Storage.EntityId

namespace FeatureGraph

/-- Features that describe one type of entity. -/
structure Schema : Type 1 where
  name : String
  /-- How storage keys are made. -/
  scheme : KeyScheme
  /-- Where the ids of new entities come from. -/
  idSource : IdSource
  features : Dictionary Feature

namespace Schema

/-! ## Keys and needs -/

/-- Takes the declarations in, in order; the first that repeats a key or has a key that cannot
be stored stops it. -/
def collect (scheme : KeyScheme) (features : Dictionary Feature) :
    List Feature → Except SchemaError (Dictionary Feature)
  | [] => .ok features
  | f :: rest =>
    if features.contains f.key then .error (.duplicateFeature f.key)
    else
      match scheme.validate f.key with
      | .error reason => .error (.invalidFeatureKey f.key reason)
      | .ok () => collect scheme (features.insert f.key f) rest

/-- The first need that is not declared, of the first feature that has one, in the order of
the keys. -/
def undeclared? (features : Dictionary Feature) : List Feature → Option (String × String)
  | [] => none
  | f :: rest =>
    match f.needs.find? fun key => !features.contains key with
    | some missing => some (f.key, missing)
    | none => undeclared? features rest

/-! ## Circles -/

/-- How far the search for circles has come: the features on the way, and those that are
done. -/
structure Search where
  visiting : List String
  finished : List String

/-- Goes through the needs of a feature, depth first. It comes back to a feature on the way
exactly if there is a circle. -/
def visit (needsOf : String → List String) :
    (depth : Nat) → String → Search → Except SchemaError Search
  | 0, key, _ => .error (.cycle key)
  | depth + 1, key, s =>
    if key ∈ s.finished then .ok s
    else if key ∈ s.visiting then .error (.cycle key)
    else
      let entered := { s with visiting := key :: s.visiting }
      match (needsOf key).foldlM (fun s need => visit needsOf depth need s) entered with
      | .error e => .error e
      | .ok s => .ok ⟨s.visiting.erase key, key :: s.finished⟩

/-- The needs of the feature under a key. -/
def needsOf (features : Dictionary Feature) (key : String) : List String :=
  match features.get? key with
  | some f => f.needs
  | none => []

/-- Refuses features of which one needs itself. -/
def checkAcyclic (features : Dictionary Feature) : Except SchemaError Unit :=
  match features.keys.foldlM
    (fun s key => visit (needsOf features) (features.size + 1) key s) (⟨[], []⟩ : Search) with
  | .ok _ => .ok ()
  | .error e => .error e

/-! ## Building a schema -/

/-- The schema of the declarations, or why they are none. -/
def build (name : String) (scheme : KeyScheme) (idSource : IdSource)
    (declarations : List Feature) : Except SchemaError Schema :=
  if declarations.isEmpty then .error (.empty name)
  else
    match collect scheme Dictionary.empty declarations with
    | .error e => .error e
    | .ok features =>
      match undeclared? features features.values with
      | some (feature, missing) => .error (.unknownDependency feature missing)
      | none =>
        match checkAcyclic features with
        | .error e => .error e
        | .ok () => .ok ⟨name, scheme, idSource, features⟩

/-- The keys of the features that need nothing, in order. -/
def roots (s : Schema) : List String := (s.features.values.filter (·.isRoot)).map (·.key)

end Schema

end FeatureGraph
