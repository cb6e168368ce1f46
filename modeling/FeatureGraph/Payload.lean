-- Payloads: what travels along the edges of a graph. A payload carries its
-- type with it, and a component takes only the types that it knows.
import FeatureGraph.Json.Basic
import FeatureGraph.NdArray
import FeatureGraph.Text.Utf8

namespace FeatureGraph

/-- A value of one of the types that may travel along an edge. -/
inductive Payload where
  /-- Text that was made while the program runs. -/
  | text (s : String)
  /-- Text that stands in the program. It has the same bytes as `text`, but is not one. -/
  | literal (s : String)
  /-- Shared bytes. -/
  | bytes (bs : Bytes)
  /-- Bytes with one owner. -/
  | buffer (bs : Bytes)
  | int (n : Int)
  | words (ws : List String)
  | counts (table : Dictionary Nat)
  | json (doc : Json)
  | array (a : NdArray)
  /-- The path of a file. -/
  | path (p : String)
  /-- A stored stream that is waiting to be read, by its number. -/
  | stored (stream : Nat)
  | batch (items : List Payload)
  /-- What came from each provider, by the position of the provider. -/
  | inputs (buffers : List (List Payload))
deriving Inhabited

namespace Payload

/-- The bytes of a payload that is like bytes. -/
def bytes? : Payload → Option Bytes
  | .bytes bs => some bs
  | .buffer bs => some bs
  | .text s => some (Text.encode s)
  | .literal s => some (Text.encode s)
  | _ => none

/-- The text of a payload that may serve as a name. -/
def name? : Payload → Option String
  | .text s => some s
  | .literal s => some s
  | _ => none

end Payload

/-- Values for the roots of a graph, by name. -/
abbrev Inputs := Dictionary Payload

end FeatureGraph
