-- Byte streams: raw input cut into chunks of one size.
import FeatureGraph.Codec.Decoder
import FeatureGraph.Component.Basic
import FeatureGraph.Workspace

namespace FeatureGraph.Component

/-- Puts out its input in chunks of `size` bytes, the last one perhaps shorter; a size of zero
acts as one. A path stands for the bytes of the file. -/
def byteStream (size : Nat) : Component Workspace where
  State := Unit
  start := ()
  transform data s w :=
    match data with
    | .path p =>
      match w.files.openText p with
      | .ok source => (.ok (Output.ofReads (source.pieces size)), s, w)
      | .error e => (.error (.io e), s, w)
    | other =>
      match other.bytes? with
      | some bs => (.ok (Output.ofBytes (Bytes.pieces size bs)), s, w)
      | none => (.error (.unexpectedPayload "bytes, string or path"), s, w)

/-- The size of the chunks that a byte stream puts out. -/
def chunkSize (size : Nat) : Nat := max 1 size

end FeatureGraph.Component
