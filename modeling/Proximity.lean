import Proximity.Collector.Recorder
import Proximity.Coordinate.Instances
import Proximity.Forest.Format
import Proximity.Forest.View
import Proximity.Number.Decimal
import Proximity.Proofs.Bytes.Reading
import Proximity.Proofs.Coordinate.Instances
import Proximity.Proofs.Exactness
import Proximity.Proofs.Metric
import Proximity.Proofs.Forest.History
import Proximity.Proofs.Forest.Reachable
import Proximity.Proofs.Tree.Accepting
import Proximity.Proofs.Tree.Nodes
import Proximity.Proofs.Tree.RoundTrip
import Proximity.Proofs.Tree.Search
import Proximity.Proofs.Tree.Stepwise
import Proximity.Tree.Region
import Proximity.Tree.Stepwise
import Proximity.Walk
import Proximity.Proofs.Walk
import Proximity.Proofs.Loaded
import Proximity.Proofs.Tree.Stored
import Proximity.Proofs.Forest.Writable
import Proximity.Proofs.Forest.Saving
import Proximity.Proofs.Saved
import Proximity.Proofs.Number.Sums
import Proximity.Proofs.Unpruned
import Proximity.Proofs.Tree.Tiling
import Proximity.Proofs.Exhaustive
import Proximity.Proofs.Profile
import Proximity.Proofs.Tree.Alike
import Proximity.Proofs.Forest.Twins
import Proximity.Proofs.Forest.Conversation
import Proximity.Proofs.Restored
import Proximity.Proofs.Bytes.Delimited
import Proximity.Proofs.Delimited
import Proximity.Proofs.Tree.Canonical
import Proximity.Proofs.Forest.Counting
import Proximity.Proofs.Tree.Shape
import Proximity.Proofs.Tree.Progress
import Proximity.Proofs.Ready
import Proximity.Proofs.Collector.Logged
import Proximity.Proofs.Contract
import Proximity.Proofs.Number.Exact
import Proximity.Proofs.Slack
import Proximity.Forest.InPlace
import Proximity.Proofs.Forest.InPlace
import Proximity.Proofs.Forest.Compaction
import Proximity.Trace
import Proximity.Proofs.Trace
import Proximity.Proofs.Budget
import Proximity.Proofs.Number.Stretching
import Proximity.Proofs.Room
import Proximity.Proofs.Tree.Capped
import Proximity.Proofs.Tree.Rearranged
import Proximity.Proofs.Collector.Offered
import Proximity.Proofs.Gaps
import Proximity.Proofs.Circle
import Proximity.Proofs.GivenUp
import Proximity.Proofs.Number.Growing
import Proximity.Proofs.Interchange
import Proximity.Proofs.Tree.Regions
import Proximity.Tree.InPlace
import Proximity.Proofs.Tree.InPlace
import Proximity.Forest.Work
import Proximity.Proofs.Forest.Work
import Proximity.Proofs.Lost
