-- Encoders: how the chunks of a feature become bytes. An encoder may hold
-- bytes back, and gives the rest when the feature has ended.
import FeatureGraph.Codec.Document
import FeatureGraph.Codec.Error

namespace FeatureGraph

/-- How a feature's chunks become bytes. -/
structure Encoder : Type 1 where
  /-- What the encoder remembers between chunks. -/
  State : Type
  start : State
  /-- The media type of the bytes. -/
  contentType : String
  /-- The bytes for one chunk. -/
  encode : Payload → State → Except CodecError (List Bytes) × State
  /-- The bytes that are left when no chunk follows. -/
  finish : State → Except CodecError (List Bytes) × State

def octetStream : String := "application/octet-stream"
def plainText : String := "text/plain"
def applicationJson : String := "application/json"

namespace Encoder

/-- Takes chunks that are like bytes as they are. -/
def identity : Encoder where
  State := Unit
  start := ()
  contentType := octetStream
  encode chunk s :=
    match chunk.bytes? with
    | some bs => (.ok [bs], s)
    | none => (.error (.unsupportedChunk "bytes or string"), s)
  finish s := (.ok [], s)

/-- The bytes of a chunk of text. Shared bytes are text if they are UTF-8. -/
def textBytes : Payload → Except CodecError Bytes
  | .text s => .ok (Text.encode s)
  | .literal s => .ok (Text.encode s)
  | .bytes bs =>
    if (Text.decode? bs).isSome then .ok bs else .error (.unsupportedChunk "utf-8 text")
  | _ => .error (.unsupportedChunk "text")

/-- Takes chunks of text. -/
def text : Encoder where
  State := Unit
  start := ()
  contentType := plainText
  encode chunk s := ((textBytes chunk).map fun bs => [bs], s)
  finish s := (.ok [], s)

/-- Keeps the latest of the chunks that have a document, and writes it at the end. -/
def document (expected : String) (document? : Payload → Option Json) : Encoder where
  State := Option Json
  start := none
  contentType := applicationJson
  encode chunk latest :=
    match document? chunk with
    | some doc => (.ok [], some doc)
    | none => (.error (.unsupportedChunk expected), latest)
  finish latest := (.ok (latest.toList.map fun doc => Text.encode doc.print), none)

/-- Takes chunks of one kind, as documents. -/
def json (kind : DocumentKind) : Encoder := document kind.expected kind.document?

end Encoder

end FeatureGraph
