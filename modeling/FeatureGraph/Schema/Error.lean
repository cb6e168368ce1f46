-- What can go wrong with a schema and with the entities of one.
import FeatureGraph.Graph.Error
import FeatureGraph.Storage.Error

namespace FeatureGraph

/-- Why declarations are not a schema, or not one for a single input. -/
inductive SchemaError where
  | empty (schema : String)
  | noRoot (schema : String)
  | multipleRoots (schema : String) (roots : List String)
  | duplicateFeature (key : String)
  | unknownDependency (feature needs : String)
  /-- The feature needs itself, at once or through others. -/
  | cycle (key : String)
  | invalidFeatureKey (feature : String) (reason : StorageError)
deriving DecidableEq, Repr

/-- The words of a schema error. -/
def SchemaError.message : SchemaError → String
  | .empty schema => s!"schema '{schema}' declares no features"
  | .noRoot schema => s!"schema '{schema}' has no root feature"
  | .multipleRoots schema roots =>
    s!"schema '{schema}' has multiple root features {Text.quoteList roots} where one was expected"
  | .duplicateFeature key => s!"feature '{key}' is declared twice"
  | .unknownDependency feature needs => s!"feature '{feature}' needs unknown feature '{needs}'"
  | .cycle key => s!"feature '{key}' depends on itself"
  | .invalidFeatureKey feature reason =>
    s!"feature '{feature}' cannot be used as a storage key: {reason.message}"

/-- Why a feature has no value. -/
inductive Unavailability where
  /-- It is not stored, and cannot be worked out from what is stored. -/
  | notDerivable
  /-- It hangs on a root that is not stored for the entity. -/
  | rootNotStored (root id : String)
deriving DecidableEq, Repr

/-- The words of an unavailability. -/
def Unavailability.message : Unavailability → String
  | .notDerivable => "not stored and not derivable from stored features"
  | .rootNotStored root id => s!"root '{root}' is not stored for entity {id}"

/-- A failure to process an entity or to read one. -/
inductive Failure where
  | schema (e : SchemaError)
  | graph (e : GraphError)
  | storage (e : StorageError)
  | codec (e : CodecError)
  | id (e : IdError)
  /-- The feature has no value yet; that is no fault. -/
  | unavailable (feature : String) (reason : Unavailability)
  | unknownFeature (key : String)
  /-- The value of the feature is of another type than was asked for. -/
  | typeMismatch (feature : String)
deriving DecidableEq, Repr

namespace Failure

/-- The words of a failure. -/
def message : Failure → String
  | .schema e => e.message
  | .graph e => e.message
  | .storage e => e.message
  | .codec e => e.message
  | .id e => e.message
  | .unavailable feature reason => s!"feature '{feature}' is unavailable: {reason.message}"
  | .unknownFeature key => s!"unknown feature '{key}'"
  | .typeMismatch feature => s!"feature '{feature}' decoded to a different type than requested"

/-- Whether the failure only says that there is no value yet. -/
def isUnavailable : Failure → Bool
  | .unavailable _ _ => true
  | _ => false

end Failure

end FeatureGraph
