-- What can go wrong in the event log.
import FeatureGraph.Files.Error

namespace FeatureGraph

/-- A failure of the event log or of its channel. -/
inductive EventLogError where
  | io (e : IoError)
  /-- A stored line is not an event. -/
  | json
deriving DecidableEq, Repr

/-- The words of an event log error. -/
def EventLogError.message : EventLogError → String
  | .io e => "io error: " ++ e.message
  | .json => "json error: malformed document"

end FeatureGraph
