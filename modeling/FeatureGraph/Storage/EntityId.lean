-- Where the id of a new entity comes from.
import FeatureGraph.Payload
import FeatureGraph.Storage.Error
import FeatureGraph.Text.Hex

namespace FeatureGraph

/-- Where the id of a new entity comes from. -/
inductive IdSource where
  /-- A random id. -/
  | random
  /-- The text of the input under this key. -/
  | input (key : String)
deriving DecidableEq, Repr

namespace IdSource

/-- The id that an input gives. -/
def fromInput (key : String) (inputs : Inputs) : Except IdError String :=
  match inputs.get? key with
  | none => .error (.missingField key)
  | some value =>
    match value.name? with
    | some id => .ok id
    | none => .error (.unsupportedValue key)

/-- A random id: 128 bits as 32 hexadecimal digits, of which six bits say that the id is
random. -/
def randomId (high low : Nat) : String :=
  let high := high / Nat.pow 2 16 * Nat.pow 2 16 + 0x4000 + high % Nat.pow 2 12
  let low := Nat.pow 2 63 + low % Nat.pow 2 62
  String.ofList (Text.hexFixed 16 high ++ Text.hexFixed 16 low)

end IdSource

end FeatureGraph
