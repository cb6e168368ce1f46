-- What can go wrong within one component of a graph.
import FeatureGraph.Codec.Error
import FeatureGraph.EventLog.Error
import FeatureGraph.Storage.Error

namespace FeatureGraph

/-- A failure of a component. -/
inductive ComponentError where
  /-- The component takes payloads of other types. -/
  | unexpectedPayload (expected : String)
  | codec (e : CodecError)
  | storage (e : StorageError)
  | eventLog (e : EventLogError)
  | io (e : IoError)
  /-- A failure with words of its own. -/
  | failed (text : String)
deriving DecidableEq, Repr

/-- The words of a component error. -/
def ComponentError.message : ComponentError → String
  | .unexpectedPayload expected => "unexpected payload: expected " ++ expected
  | .codec e => "codec error: " ++ e.message
  | .storage e => "storage error: " ++ e.message
  | .eventLog e => "event log error: " ++ e.message
  | .io e => "io error: " ++ e.message
  | .failed text => text

end FeatureGraph
