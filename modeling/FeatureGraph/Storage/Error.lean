-- What can go wrong in storage, and when an entity is named.
import FeatureGraph.Files.Error

namespace FeatureGraph

/-- A failure of the store. -/
inductive StorageError where
  /-- Nothing is stored under the key. -/
  | notFound (key : String)
  /-- The text cannot be a key. -/
  | malformedKey (text : String)
  | io (e : IoError)
deriving DecidableEq, Repr

/-- The words of a storage error. -/
def StorageError.message : StorageError → String
  | .notFound key => "key not found: " ++ key
  | .malformedKey text => "malformed key: " ++ text
  | .io e => "io error: " ++ e.message

/-- A failure to name an entity. -/
inductive IdError where
  /-- The input that should hold the id is missing. -/
  | missingField (key : String)
  /-- The input that should hold the id is not text. -/
  | unsupportedValue (key : String)
deriving DecidableEq, Repr

/-- The words of a failure to name an entity. -/
def IdError.message : IdError → String
  | .missingField key => s!"input '{key}' required for the entity id was not supplied"
  | .unsupportedValue key =>
    s!"input '{key}' cannot be used as an entity id (expected a string)"

end FeatureGraph
