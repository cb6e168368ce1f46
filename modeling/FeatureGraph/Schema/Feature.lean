-- Features: what is worked out about an entity, from which other features,
-- and how it is stored.
import FeatureGraph.Codec.ArrayFormat
import FeatureGraph.Component.Storing

namespace FeatureGraph

/-- A feature. -/
structure Feature : Type 1 where
  key : String
  /-- What works the feature out. -/
  component : Component Workspace
  /-- The features it is worked out from, in the order the component sees them. -/
  needs : List String
  isStored : Bool
  encoder : Encoder
  decoder : Decoder

namespace Feature

/-- A feature that needs nothing, is not stored, and consists of bytes. -/
def new (key : String) (component : Component Workspace) : Feature :=
  ⟨key, component, [], false, Encoder.identity, Decoder.raw defaultChunkSize⟩

/-- Whether the feature is given from outside. -/
def isRoot (f : Feature) : Bool := f.needs.isEmpty

/-- The media type of what is stored. -/
def contentType (f : Feature) : String := f.encoder.contentType

/-- A feature that is text. -/
def asText (f : Feature) : Feature := { f with encoder := Encoder.text, decoder := Decoder.text }

/-- A feature that is one JSON document. -/
def asDocument (f : Feature) (kind : DocumentKind) : Feature :=
  { f with encoder := Encoder.json kind, decoder := Decoder.json kind }

/-- A feature that is an array. -/
def asArray (f : Feature) (t : Dtype) : Feature :=
  { f with encoder := Encoder.array t, decoder := Decoder.array t }

/-- Whether the feature can be worked out from what is stored, by chains of at most so many
needs: a stored feature can, another root cannot, and any other can if all its needs can. -/
def derivable (features : Dictionary Feature) : (depth : Nat) → Feature → Bool
  | 0, f => f.isStored
  | depth + 1, f =>
    f.isStored || (!f.isRoot && f.needs.all fun key =>
      match features.get? key with
      | some provider => derivable features depth provider
      | none => false)

/-- Whether the feature can be worked out from what is stored. A chain of needs without a
circle is no longer than there are features. -/
def canCompute (f : Feature) (features : Dictionary Feature) : Bool :=
  derivable features (features.size + 1) f

/-- How a feature is shown. -/
def shown (f : Feature) : String :=
  s!"Feature \x7b key: {Text.quote f.key}, needs: {Text.quoteList f.needs}, "
    ++ s!"store: {f.isStored}, content_type: {Text.quote f.contentType}, .. \x7d"

end Feature

end FeatureGraph
