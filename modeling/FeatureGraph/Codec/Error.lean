-- What can go wrong between chunks and stored bytes.
import FeatureGraph.Files.Error
import FeatureGraph.NdArray
import FeatureGraph.Text.Quoted
import FeatureGraph.Text.Utf8

namespace FeatureGraph

/-- What is wrong with an array or with the bytes of one. -/
inductive ArrayFault where
  /-- There is no first axis to stream along. -/
  | noFirstAxis
  /-- The other axes differ from those that the stream began with. -/
  | otherAxes (found expected : List Nat)
  | headerTooLong
  /-- Rows without elements are followed by elements. -/
  | emptyRows
  /-- The bytes end within a row. -/
  | brokenRow (size row : Nat)
deriving DecidableEq, Repr

/-- The numbers of a shape in brackets. -/
def shapeText (shape : List Nat) : String := Text.bracketed (shape.map toString)

/-- The words of an array fault. -/
def ArrayFault.message : ArrayFault → String
  | .noFirstAxis => "zero-dimensional arrays cannot be streamed"
  | .otherAxes found expected =>
    s!"chunk has trailing shape {shapeText found}, stream started with {shapeText expected}"
  | .headerTooLong => "header too large"
  | .emptyRows => "elements present for an empty row shape"
  | .brokenRow size row => s!"{size} bytes is not a whole number of {row}-byte rows"

/-- A failure to encode a chunk or to decode stored bytes. -/
inductive CodecError where
  /-- The encoder takes other chunks. -/
  | unsupportedChunk (expected : String)
  /-- The bytes are not the JSON document that is asked for. -/
  | json
  | utf8 (fault : Text.Utf8Fault)
  /-- The stored elements are of another type. -/
  | dtypeMismatch (expected : Dtype) (found : String)
  | malformedArray (fault : ArrayFault)
  /-- A shape with more places than memory can number. -/
  | shape
  | io (e : IoError)
deriving DecidableEq, Repr

/-- The words of a codec error. -/
def CodecError.message : CodecError → String
  | .unsupportedChunk expected => "cannot encode chunk: expected " ++ expected
  | .json => "json error: malformed document"
  | .utf8 fault => "invalid utf-8: " ++ fault.message
  | .dtypeMismatch expected found => s!"stored array has dtype {found}, expected {expected.tag}"
  | .malformedArray fault => "malformed array: " ++ fault.message
  | .shape => "array shape error: too many elements"
  | .io e => "io error: " ++ e.message

end FeatureGraph
