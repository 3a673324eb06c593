import PointsTo.Order
import PointsTo.Order.Set
import PointsTo.Order.Map
import PointsTo.Worklist
import PointsTo.Offset
import PointsTo.Pointer
import PointsTo.Failure
import PointsTo.Journal
import PointsTo.Warning
import PointsTo.Options
import PointsTo.Ty
import PointsTo.Ty.Layout
import PointsTo.Program
import PointsTo.Program.Blocks
import PointsTo.Program.Inspect
import PointsTo.Program.Text
import PointsTo.Program.Assembly
import PointsTo.Program.KnownFunction
import PointsTo.Graph
import PointsTo.Text.Printable
import PointsTo.CallGraph
import PointsTo.CallGraph.Dot
import PointsTo.Memory.Object
import PointsTo.Memory.Shared
import PointsTo.Memory.PerNode
import PointsTo.Lowering.State
import PointsTo.Lowering.Relevance
import PointsTo.Lowering.Constant
import PointsTo.Lowering.Instruction
import PointsTo.Lowering.Call
import PointsTo.Lowering.Sequence
import PointsTo.Lowering.Placement
import PointsTo.Lowering.Deferred
import PointsTo.Lowering.Global
import PointsTo.Lowering.Body
import PointsTo.Lowering.Build
import PointsTo.Solver.Transfer
import PointsTo.Solver
import PointsTo.Analysis
import PointsTo.Proofs.Sets
import PointsTo.Proofs.Cells
import PointsTo.Proofs.Execution
import PointsTo.Proofs.Nodes
import PointsTo.Proofs.Facts
import PointsTo.Proofs.Models
import PointsTo.Proofs.Transfer
import PointsTo.Proofs.Confinement
import PointsTo.Proofs.Passage
import PointsTo.Proofs.Growth
import PointsTo.Proofs.Visits
import PointsTo.Proofs.Linking
import PointsTo.Proofs.Course
import PointsTo.Proofs.UnknownCalls
import PointsTo.Proofs.LeastSolution
import PointsTo.Proofs.StoreFlow
import PointsTo.Proofs.Repetition
import PointsTo.Proofs.Totality
import PointsTo.Proofs.Stability
import PointsTo.Proofs.Convergence
import PointsTo.Proofs.SharedConvergence
import PointsTo.Proofs.Coherence
import PointsTo.Proofs.Edges
import PointsTo.Proofs.CallSites
import PointsTo.Proofs.Roles
import PointsTo.Proofs.Validity
import PointsTo.Proofs.Binding
import PointsTo.Proofs.Creation
import PointsTo.Proofs.Steps
import PointsTo.Proofs.Judgements
import PointsTo.Proofs.Evolution
import PointsTo.Proofs.Requests
import PointsTo.Proofs.Instructions
import PointsTo.Proofs.Joining
import PointsTo.Proofs.Calls
import PointsTo.Proofs.Placing
import PointsTo.Proofs.Deferral
import PointsTo.Proofs.Globals
import PointsTo.Proofs.Opening
import PointsTo.Proofs.Blocks
import PointsTo.Proofs.Bodies
import PointsTo.Proofs.Functions
import PointsTo.Proofs.Building
import PointsTo.Proofs.Incoming
import PointsTo.Proofs.IntegerFlow
import PointsTo.Proofs.Attaching
import PointsTo.Proofs.Wiring
import PointsTo.Proofs.LinkedCalls
import PointsTo.Proofs.BoundCalls
import PointsTo.Proofs.CallMemory
import PointsTo.Proofs.Failures
import PointsTo.Proofs.Regularity
import PointsTo.Proofs.Findings
import PointsTo.Proofs.Readiness
import PointsTo.Proofs.Attainable
import PointsTo.Proofs.Quiescence
import PointsTo.Proofs.Rerun
import PointsTo.Proofs.Retention
import PointsTo.Proofs.Frames
import PointsTo.Proofs.SolverFrames
import PointsTo.Proofs.Additions
import PointsTo.Proofs.Retries
import PointsTo.Proofs.Availability
import PointsTo.Proofs.Provision
import PointsTo.Proofs.Dominance
import PointsTo.Proofs.Answers
import PointsTo.Proofs.Conclusions
import PointsTo.Proofs.Exposure
import PointsTo.Proofs.Nesting
import PointsTo.Proofs.Following
import PointsTo.Proofs.Termination
import PointsTo.Proofs.Structure
import PointsTo.Proofs.Copying
import PointsTo.Proofs.Arrivals
import PointsTo.Proofs.Relocation
import PointsTo.Proofs.Packing
import PointsTo.Proofs.CallRecords
import PointsTo.Proofs.ShiftChains
import PointsTo.Proofs.CallRelevance
import PointsTo.Proofs.FieldOffsets
import PointsTo.Proofs.Beginnings
import PointsTo.Proofs.GlobalChain
import PointsTo.Proofs.BlockOrder
import PointsTo.Proofs.Bridges
import PointsTo.Proofs.Mirroring
import PointsTo.Proofs.Splicing
import PointsTo.Proofs.Merging
import PointsTo.Proofs.Queueing
import PointsTo.Proofs.GlobalContents
