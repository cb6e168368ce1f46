-- The kinds of payload that are stored as one JSON document.
import FeatureGraph.Json.Printer
import FeatureGraph.Json.Reader
import FeatureGraph.Payload

namespace FeatureGraph

/-- A type of payload that a JSON document can hold. -/
inductive DocumentKind where
  | counts
  | words
  | value
deriving DecidableEq, Repr

namespace DocumentKind

/-- What a payload of another type is told to be. -/
def expected : DocumentKind → String
  | .counts => "a table of counts"
  | .words => "a list of words"
  | .value => "a JSON document"

/-- The document of a payload of this kind. -/
def document? : DocumentKind → Payload → Option Json
  | .counts, .counts table => some (Json.ofCounts table)
  | .words, .words ws => some (Json.ofWords ws)
  | .value, .json doc => some doc
  | _, _ => none

/-- The payload of this kind that a document's bytes hold. -/
def read? (kind : DocumentKind) (bs : Bytes) : Option Payload :=
  match kind with
  | .counts => (Json.parseCounts? bs).map .counts
  | .words => (Json.parseWords? bs).map .words
  | .value => (Json.parse? bs).map .json

end DocumentKind

end FeatureGraph
