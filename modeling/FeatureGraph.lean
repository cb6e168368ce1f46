import FeatureGraph.Component.Concatenate
import FeatureGraph.EventLog.Subscription
import FeatureGraph.Main
import FeatureGraph.Proofs.Graph.Edges
import FeatureGraph.Proofs.Schema.Persisting
import FeatureGraph.Proofs.ByteSource
import FeatureGraph.Proofs.Component.Tokenizer
import FeatureGraph.Proofs.Component.WordCount
import FeatureGraph.Proofs.Reliable
import FeatureGraph.Proofs.Run.Links
import FeatureGraph.Proofs.Schema.Lines
import FeatureGraph.Proofs.Schema.Availability
import FeatureGraph.Proofs.Schema.Compiling
import FeatureGraph.Proofs.Schema.Documents
import FeatureGraph.Proofs.Schema.Rejoining
import FeatureGraph.Proofs.EventLog.Reopening
import FeatureGraph.Proofs.EventLog.Tailing
import FeatureGraph.Proofs.EventLog.History
import FeatureGraph.Proofs.Graph.Bracketing
import FeatureGraph.Proofs.Schema.Announcing
import FeatureGraph.Proofs.Codec.ArrayStream
import FeatureGraph.Proofs.Graph.Positions
import FeatureGraph.Proofs.Storage.Interchange
import FeatureGraph.Proofs.Schema.Neighbours
import FeatureGraph.Proofs.Schema.Assembly
import FeatureGraph.Proofs.Graph.DeadEnds
import FeatureGraph.Proofs.Graph.Rounds
import FeatureGraph.Proofs.Component.ByteStream
import FeatureGraph.Proofs.Codec.ArrayReading
import FeatureGraph.Proofs.Schema.Texts
import FeatureGraph.Proofs.Graph.Merging
import FeatureGraph.Proofs.Component.Sessions
import FeatureGraph.Proofs.Component.Encoding
import FeatureGraph.Proofs.Schema.Entities
import FeatureGraph.Proofs.Graph.Building
