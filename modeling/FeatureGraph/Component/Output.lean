-- What a component puts out: payloads in order. A failure may stand among
-- them; whoever takes the output stops there.
import FeatureGraph.Component.Error
import FeatureGraph.Payload

namespace FeatureGraph

/-- The payloads that a component puts out, in order. -/
abbrev Output := List (Except ComponentError Payload)

namespace Output

/-- Payloads without a failure among them. -/
def ofPayloads (ps : List Payload) : Output := ps.map .ok

/-- Runs of bytes, each a payload of its own. -/
def ofBytes (runs : List Bytes) : Output := runs.map fun bs => .ok (.bytes bs)

/-- Runs of bytes as a source gave them; where it failed, the output fails. -/
def ofReads (reads : List (Except IoError Bytes)) : Output :=
  reads.map fun
    | .ok bs => .ok (.bytes bs)
    | .error e => .error (.io e)

end Output

end FeatureGraph
