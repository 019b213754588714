import Precedence.Machine.Construct
import Precedence.Machine.Function
import Precedence.Graph.Reach
import Precedence.Graph.Verify
import Precedence.Graph.Schedule
import Precedence.Graph.Text
import Precedence.Target.Registers
import Precedence.Target.Timing
import Precedence.Target.Alias
import Precedence.Sparse.Tracker
import Precedence.Options.Text
import Precedence.Flow.Liveness
import Precedence.LoopCarried
import Precedence.Build.Builder
import Precedence.Proofs.Graph.Edges
import Precedence.Proofs.Outcomes
import Precedence.Proofs.Graph.Kept
import Precedence.Proofs.Flow.LoopReads
import Precedence.Proofs.Flow.Liveness
import Precedence.Proofs.Graph.Paths
import Precedence.Proofs.Sparse.Maps
import Precedence.Proofs.Walk.Units
import Precedence.Proofs.Walk.Growth
import Precedence.Proofs.Graph.Accepted
import Precedence.Proofs.Graph.Sorted
import Precedence.Proofs.Graph.Emitted
import Precedence.Proofs.Order.Meaning
import Precedence.Proofs.Walk.Added
import Precedence.Proofs.Walk.Course
import Precedence.Proofs.Walk.RegisterEdges
import Precedence.Proofs.Sparse.Same
import Precedence.Proofs.Walk.Lockstep
import Precedence.Proofs.Walk.Reaching
import Precedence.Proofs.Order.Values
import Precedence.Proofs.Order.Shape
import Precedence.Proofs.Build.Reuse
import Precedence.Proofs.Total.Memory
import Precedence.Proofs.Walk.Clashes
import Precedence.Proofs.Order.Conservative
import Precedence.Proofs.Sparse.Holding
import Precedence.Proofs.Total.Registers
import Precedence.Proofs.Total.Function
import Precedence.Proofs.Graph.Latencies
import Precedence.Proofs.Walk.Requests
import Precedence.Proofs.Walk.MemoryRequests
import Precedence.Proofs.Walk.Sources
import Precedence.Proofs.Order.Reasons
import Precedence.Proofs.Order.ValueLatencies
import Precedence.Proofs.Walk.MemoryLockstep
import Precedence.Proofs.Build.Beside
import Precedence.Proofs.Graph.OutputLatencies
import Precedence.Proofs.Build.UnitLatencies
import Precedence.Proofs.Graph.Additions
import Precedence.Proofs.Graph.Cycles
import Precedence.Proofs.Graph.Queries
import Precedence.Proofs.Order.Emission
import Precedence.Proofs.Target.Offsets
import Precedence.Proofs.Build.Coverage
import Precedence.Proofs.Flow.PostOrder
import Precedence.Proofs.Sparse.Listing
import Precedence.Proofs.Build.Unseparated
import Precedence.Proofs.Walk.Covering
