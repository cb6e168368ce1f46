-- The calls that a component receives, as a trace shows them.
import FeatureGraph.Payload

namespace FeatureGraph

/-- A call of one of a component's hooks. -/
inductive Call where
  | acquire
  | release
  | lastChunk
  | transform (data : Payload)
  /-- Data from the provider at this position. -/
  | enqueue (input : Nat) (data : Payload)
  /-- Whether all input had come, and whether there was enough of it. -/
  | dequeue (finalized got : Bool)

end FeatureGraph
