-- Decoders: how stored bytes become a value again, or the chunks of a
-- stream.
import FeatureGraph.ByteSource
import FeatureGraph.Codec.Document
import FeatureGraph.Component.Output

namespace FeatureGraph

/-- How stored bytes are read. -/
structure Decoder where
  /-- The whole source as one value. -/
  decode : ByteSource → Except CodecError Payload
  /-- The source as chunks, as if they were put out afresh. -/
  stream : ByteSource → Except CodecError Output

/-- The size of the chunks in which stored bytes are read. -/
def defaultChunkSize : Nat := 4096

namespace Decoder

/-- A decoder that streams its value as one chunk. -/
def whole (decode : ByteSource → Except CodecError Payload) : Decoder where
  decode := decode
  stream source := (decode source).map fun value => [.ok value]

/-- All the bytes of a source. -/
def allBytes (source : ByteSource) : Except CodecError Bytes := source.readAll.mapError .io

/-- Bytes as they are, streamed in chunks of one size. -/
def raw (size : Nat) : Decoder where
  decode source := (allBytes source).map .bytes
  stream source := .ok (Output.ofReads (source.pieces size))

/-- UTF-8 text. -/
def text : Decoder := whole fun source => do
  let bs ← allBytes source
  let s ← (Text.decode bs).mapError .utf8
  return .text s

/-- The value that a document's bytes hold. A source that fails holds none. -/
def document (read? : Bytes → Option Payload) : Decoder := whole fun source =>
  match source.readAll with
  | .error _ => .error .json
  | .ok bs =>
    match read? bs with
    | some value => .ok value
    | none => .error .json

/-- A JSON document of one kind. -/
def json (kind : DocumentKind) : Decoder := document kind.read?

end Decoder

end FeatureGraph
