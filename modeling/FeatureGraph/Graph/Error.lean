-- What can go wrong while a graph is built or run.
import FeatureGraph.Component.Error
import FeatureGraph.Text.Quoted

namespace FeatureGraph

/-- A failure of a graph. -/
inductive GraphError where
  /-- Not every root has an input: the keys of the roots, and the keys that were given. -/
  | missingRootInputs (required provided : List String)
  | duplicateNode (key : String)
  /-- No node of the graph has this number. -/
  | unknownNode (id : Nat)
  /-- The component of a node failed. -/
  | failed (node : String) (cause : ComponentError)
deriving DecidableEq, Repr

/-- The number of a node as messages show it. -/
def nodeText (id : Nat) : String := s!"#{id}"

/-- The words of a graph error. -/
def GraphError.message : GraphError → String
  | .missingRootInputs required provided =>
    s!"the keys {Text.quoteList provided} were provided, "
      ++ s!"but the keys for the root extractors were {Text.quoteList required}"
  | .duplicateNode key => s!"node '{key}' already exists"
  | .unknownNode id => s!"node {nodeText id} does not belong to this graph"
  | .failed node cause => s!"node '{node}' failed: {cause.message}"

end FeatureGraph
