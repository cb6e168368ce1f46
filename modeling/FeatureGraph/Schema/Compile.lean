-- From features to graphs. The full graph of an entity works out every
-- feature and stores those that are to be stored. The partial graph of one
-- feature works it out again: on every way up it stops at the first feature
-- that is stored, and reads that one back.
import FeatureGraph.Graph.Run
import FeatureGraph.Schema.Basic

namespace FeatureGraph

/-- The key of the node that encodes a feature. -/
def encoderKey (feature : String) : String := feature ++ "/encoder"

/-- The key of the node that stores a feature. -/
def writerKey (feature : String) : String := feature ++ "/writer"

/-- The key of the node that keeps a feature in memory. -/
def captureKey (feature : String) : String := feature ++ "/capture"

namespace Schema

/-- A graph in the making: the graph so far, the numbers of the features in it, and the
features that are read back, in the order they were met. -/
structure Draft : Type 1 where
  graph : Graph Workspace
  placed : List (String × Nat)
  sources : List String

/-- Work on a draft. -/
abbrev Drafting (α : Type) := Procedure Draft Failure α

namespace Draft

/-- A draft without nodes. -/
def empty (name : String) : Draft := ⟨Graph.empty name, [], []⟩

/-- Adds a node; gives its number. -/
def addNode (key : String) (c : Component Workspace) (needs : List Nat) : Drafting Nat := fun d =>
  match d.graph.add key c needs with
  | .ok (id, graph) => ({ d with graph }, .ok id)
  | .error e => (d, .error (.graph e))

/-- Remembers the node of a feature. -/
def place (key : String) (id : Nat) : Drafting Unit :=
  Procedure.change fun d => { d with placed := (key, id) :: d.placed }

/-- The node of a feature, if it has one already. -/
def placed? (key : String) : Drafting (Option Nat) :=
  Procedure.view fun d => d.placed.lookup key

/-- Remembers that a feature is read back. -/
def addSource (key : String) : Drafting Unit :=
  Procedure.change fun d => { d with sources := d.sources ++ [key] }

end Draft

/-- Does work that answers for every item of a list, in order. -/
def collectAll {α β : Type} (f : α → Drafting β) : List α → Drafting (List β)
  | [] => pure []
  | x :: rest => do
    let y ← f x
    let ys ← collectAll f rest
    pure (y :: ys)

/-- Goes on with the feature under a key, if it is declared. -/
def withFeature {α : Type} (features : Dictionary Feature) (key : String)
    (f : Feature → Drafting α) : Drafting α :=
  match features.get? key with
  | some feature => f feature
  | none => Procedure.fail (.unknownFeature key)

/-! ## The full graph -/

/-- Where a feature of an entity is stored. -/
def destination (scheme : KeyScheme) (id : String) (f : Feature) : Component.Destination :=
  ⟨scheme.build id f.key, id, f.key, f.contentType⟩

/-- Joins a feature's node to its encoder, and the encoder to the store. -/
def addWriter (scheme : KeyScheme) (id : String) (f : Feature) (node : Nat) : Drafting Unit := do
  let encoder ← Draft.addNode (encoderKey f.key) (Component.encoding f.encoder) [node]
  let _ ← Draft.addNode (writerKey f.key) (Component.storing (destination scheme id f)) [encoder]
  pure ()

/-- Adds a feature after everything it needs; gives the number of its node. Without a circle
among the needs, the depth is never used up. -/
def addFeature (features : Dictionary Feature) (scheme : KeyScheme) (id : String) :
    (depth : Nat) → Feature → Drafting Nat
  | 0, f => Procedure.fail (.schema (.cycle f.key))
  | depth + 1, f => do
    match ← Draft.placed? f.key with
    | some node => pure node
    | none =>
      let needs ← collectAll
        (fun key => withFeature features key (addFeature features scheme id depth)) f.needs
      let node ← Draft.addNode f.key f.component needs
      Draft.place f.key node
      if f.isStored then addWriter scheme id f node else pure ()
      pure node

/-- The graph that works out all features of an entity. -/
def fullGraph (schema : String) (features : Dictionary Feature) (scheme : KeyScheme)
    (id : String) : Except Failure (Graph Workspace) :=
  let draft : Drafting Unit := Procedure.each
    (fun f => do
      let _ ← addFeature features scheme id (features.size + 1) f
      pure ())
    features.values
  match draft (Draft.empty (schema ++ ":" ++ id)) with
  | (d, .ok ()) => .ok d.graph
  | (_, .error e) => .error e

/-! ## Partial graphs -/

/-- The graph that works out one feature again. -/
structure PartialGraph : Type 1 where
  graph : Graph Workspace
  /-- The features that are read back; they are the roots of the graph. -/
  sources : List String

/-- Whether a feature is stored for an entity. -/
def isStoredFor (scheme : KeyScheme) (w : Workspace) (id feature : String) :
    Except Failure Bool :=
  (w.contains (scheme.build id feature)).mapError .storage

/-- Adds a feature so that it is worked out again: a stored one is read back unless it is the
target, and a root that is not stored cannot be. -/
def addPartial (features : Dictionary Feature) (scheme : KeyScheme) (w : Workspace) (id : String) :
    (depth : Nat) → (target : Bool) → Feature → Drafting Nat
  | 0, _, f => Procedure.fail (.schema (.cycle f.key))
  | depth + 1, target, f => do
    match ← Draft.placed? f.key with
    | some node => pure node
    | none =>
      let stored ←
        if target then pure false else Procedure.ofExcept (isStoredFor scheme w id f.key)
      if stored then
        Draft.addSource f.key
        let node ← Draft.addNode f.key (Component.replay f.decoder) []
        Draft.place f.key node
        pure node
      else if f.isRoot then
        Procedure.fail (.unavailable f.key (.rootNotStored f.key id))
      else
        let needs ← collectAll
          (fun key => withFeature features key (addPartial features scheme w id depth false))
          f.needs
        let node ← Draft.addNode f.key f.component needs
        Draft.place f.key node
        pure node

/-- The graph that works out one feature of an entity again, and keeps its bytes in the
capture `slot`. -/
def partialGraph (schema : String) (features : Dictionary Feature) (scheme : KeyScheme)
    (w : Workspace) (id target : String) (slot : Nat) : Except Failure PartialGraph :=
  let draft : Drafting Unit := withFeature features target fun f => do
    let node ← addPartial features scheme w id (features.size + 1) true f
    let encoder ← Draft.addNode (encoderKey target) (Component.encoding f.encoder) [node]
    let _ ← Draft.addNode (captureKey target) (Component.capture slot) [encoder]
    pure ()
  match draft (Draft.empty (schema ++ ":" ++ id ++ ":" ++ target)) with
  | (d, .ok ()) => .ok ⟨d.graph, d.sources⟩
  | (_, .error e) => .error e

end Schema

end FeatureGraph
