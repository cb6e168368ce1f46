-- Storage keys: how the id of an entity and the key of a feature become one
-- key, and how a key comes apart again.
import FeatureGraph.Storage.Error

namespace FeatureGraph

/-- How storage keys are made and taken apart. -/
structure KeyScheme where
  /-- The storage key of an entity's feature. -/
  build : (id feature : String) → String
  /-- The id and the feature that a storage key is made of. -/
  decompose : String → Except StorageError (String × String)
  /-- Refuses the feature keys that would not come apart again. -/
  validate : (feature : String) → Except StorageError Unit

namespace KeyScheme

/-- What stands before and after the last place where `sep` occurs. -/
def splitLast (sep : List Char) : List Char → Option (List Char × List Char)
  | [] => if sep.isEmpty then some ([], []) else none
  | c :: rest =>
    match splitLast sep rest with
    | some (before, after) => some (c :: before, after)
    | none =>
      if sep.isPrefixOf (c :: rest) then some ([], (c :: rest).drop sep.length) else none

/-- Whether `sep` occurs in a text. -/
def occurs (sep text : String) : Bool := (splitLast sep.toList text.toList).isSome

/-- Keys of the id, a separator and the feature. A key comes apart at the last separator, so
ids may have it within, but features may not. -/
def delimited (sep : String) : KeyScheme where
  build id feature := id ++ sep ++ feature
  decompose key :=
    match splitLast sep.toList key.toList with
    | some (id, feature) => .ok (String.ofList id, String.ofList feature)
    | none => .error (.malformedKey key)
  validate feature :=
    if feature = "" || occurs sep feature then
      .error (.malformedKey
        s!"feature key '{feature}' is empty or contains the separator '{sep}'")
    else .ok ()

end KeyScheme

/-- The separator of storage keys, unless another is chosen. -/
def defaultSeparator : String := ":"

end FeatureGraph
