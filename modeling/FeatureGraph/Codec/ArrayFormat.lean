-- The stored form of an array: the length of a header in four bytes, the
-- header as a JSON document with the element type and every axis but the
-- first, then the elements. Chunks are joined along the first axis, which is
-- known from the count of bytes.
import FeatureGraph.Codec.Decoder
import FeatureGraph.Codec.Encoder

namespace FeatureGraph

namespace ArrayFormat

/-! ## The header -/

/-- The header of a stored array. -/
structure Header where
  dtype : String
  /-- Every axis but the first. -/
  axes : List Nat
deriving DecidableEq, Repr

/-- The bytes of a header. -/
def Header.toBytes (h : Header) : Bytes :=
  Text.encode <| Json.print <|
    .object [("dtype", .string h.dtype), ("shape", .array (h.axes.map fun n => .int (Int.ofNat n)))]

/-- The header that bytes write. -/
def Header.parse? (bs : Bytes) : Option Header :=
  match Json.parseRecord? ["dtype", "shape"] bs with
  | some [.string dtype, .array axes] => (axes.mapM Json.toCount?).map fun axes => ⟨dtype, axes⟩
  | _ => none

/-- The header with its length in front, unless the length does not fit into four bytes. -/
def Header.framed? (h : Header) : Option Bytes :=
  if h.toBytes.length < Nat.pow 2 32 then some (Bytes.ofNat 4 h.toBytes.length ++ h.toBytes) else none

/-! ## Writing -/

/-- The encoder for arrays of one element type. All chunks share the axes of the first one
but for the first axis; a chunk that is refused leaves no trace. -/
def encodeChunk (t : Dtype) (chunk : Payload) (axes : Option (List Nat)) :
    Except CodecError (List Bytes) × Option (List Nat) :=
  match chunk with
  | .array a =>
    if a.dtype ≠ t then (.error (.unsupportedChunk ("an array of " ++ t.tag)), axes)
    else
      match a.shape with
      | [] => (.error (.malformedArray .noFirstAxis), axes)
      | _ :: others =>
        let body := if a.body.isEmpty then [] else [a.body]
        match axes with
        | some expected =>
          if expected = others then (.ok body, axes)
          else (.error (.malformedArray (.otherAxes others expected)), axes)
        | none =>
          match (Header.mk t.tag others).framed? with
          | some head => (.ok (head :: body), some others)
          | none => (.error (.malformedArray .headerTooLong), axes)
  | _ => (.error (.unsupportedChunk ("an array of " ++ t.tag)), axes)

/-! ## Reading -/

/-- The bytes of elements of one width, element by element; bytes that fill no element are
left out. -/
def elementsOf (t : Dtype) (bs : Bytes) : List (Element t) :=
  (Bytes.pieces t.size (bs.take (bs.length / t.size * t.size))).map (Element.ofBytes t)

/-- The array that a body holds, with the axes of its header. -/
def decodeBody (t : Dtype) (axes : List Nat) (body : Bytes) : Except CodecError Payload :=
  let row := volume axes * t.size
  if row = 0 ∧ body ≠ [] then .error (.malformedArray .emptyRows)
  else
    let rows := if row = 0 then 0 else body.length / row
    if rows * row ≠ body.length then .error (.malformedArray (.brokenRow body.length row))
    else
      match NdArray.ofList? t .free (rows :: axes) (elementsOf t body) with
      | some a => .ok (.array a)
      | none => .error .shape

/-- The array that a source holds. -/
def decodeSource (t : Dtype) (source : ByteSource) : Except CodecError Payload := do
  let (size, source) ← (source.readExactly 4).mapError .io
  let (head, source) ← (source.readExactly (Bytes.toNat size)).mapError .io
  match Header.parse? head with
  | none => throw .json
  | some header =>
    if header.dtype ≠ t.tag then throw (.dtypeMismatch t header.dtype)
    let body ← (source.readAll).mapError .io
    decodeBody t header.axes body

end ArrayFormat

/-- Streams arrays of one element type along their first axis. -/
def Encoder.array (t : Dtype) : Encoder where
  State := Option (List Nat)
  start := none
  contentType := octetStream
  encode := ArrayFormat.encodeChunk t
  finish axes := (.ok [], axes)

/-- Reads a whole stored array. When its rows have no elements the count of rows is lost,
and there are none. -/
def Decoder.array (t : Dtype) : Decoder := Decoder.whole (ArrayFormat.decodeSource t)

end FeatureGraph
