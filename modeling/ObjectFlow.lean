import ObjectFlow.Diagnostics
import ObjectFlow.Dataflow.DeadCode
import ObjectFlow.Dataflow.ProgramConstants
import ObjectFlow.ControlFlow.Supergraph
import ObjectFlow.PointsTo.Analysis
import ObjectFlow.Program.Reader
import ObjectFlow.Calls.ClassHierarchy
import ObjectFlow.Document.Reader
import ObjectFlow.Taint.Analysis
import ObjectFlow.Command.Run
import ObjectFlow.Main
import ObjectFlow.Proofs.Numbering
import ObjectFlow.Proofs.PointsTo.Reading
import ObjectFlow.Proofs.PointsTo.Growth
import ObjectFlow.Proofs.PointsTo.Effects
import ObjectFlow.Proofs.PointsTo.Saturation
import ObjectFlow.Proofs.PointsTo.Least
import ObjectFlow.Proofs.PointsTo.Plain
import ObjectFlow.Proofs.PointsTo.Contextual
import ObjectFlow.Proofs.PointsTo.Termination
import ObjectFlow.Proofs.PointsTo.Renaming
import ObjectFlow.Proofs.PointsTo.OneContext
import ObjectFlow.Proofs.Taint.Rules
import ObjectFlow.Proofs.Taint.Tracking
import ObjectFlow.Proofs.Taint.Vocabulary
import ObjectFlow.Proofs.Taint.Flows
import ObjectFlow.Proofs.Taint.Forgetting
import ObjectFlow.Proofs.Taint.OneContext
import ObjectFlow.Proofs.Dataflow.Equations
import ObjectFlow.Proofs.Dataflow.Runs
import ObjectFlow.Proofs.Dataflow.LeastSolution
import ObjectFlow.Proofs.Execution.Machine
import ObjectFlow.Proofs.Execution.Soundness
import ObjectFlow.Proofs.ControlFlow.MethodGraph
import ObjectFlow.Proofs.Program.Jumps
import ObjectFlow.Proofs.Domain.ConstOrder
import ObjectFlow.Proofs.Domain.Maps
import ObjectFlow.Proofs.Domain.Arithmetic
import ObjectFlow.Proofs.Dataflow.LivenessFlow
import ObjectFlow.Proofs.Dataflow.ConstantFlow
import ObjectFlow.Proofs.Dataflow.OrderIndependence
import ObjectFlow.Proofs.Dataflow.Termination
import ObjectFlow.Proofs.Execution.Body
import ObjectFlow.Proofs.Dataflow.ConstantSoundness
import ObjectFlow.Proofs.Dataflow.Inputs
import ObjectFlow.Proofs.ControlFlow.SupergraphLayout
import ObjectFlow.Proofs.Dataflow.ProgramEquations
import ObjectFlow.Proofs.Token.Spelling
import ObjectFlow.Proofs.Program.Growth
import ObjectFlow.Proofs.Program.Coherence
import ObjectFlow.Proofs.Program.Subsignatures
import ObjectFlow.Proofs.Program.Reading
import ObjectFlow.Proofs.Program.Declarations
import ObjectFlow.Proofs.Program.Statements
import ObjectFlow.Proofs.Program.Bodies
import ObjectFlow.Proofs.Program.WellFormed
import ObjectFlow.Proofs.Taint.MoreRules
import ObjectFlow.Proofs.Calls.Exploration
import ObjectFlow.Proofs.PointsTo.Parts
import ObjectFlow.Proofs.Calls.OverApproximation
import ObjectFlow.Proofs.Token.Cutting
import ObjectFlow.Proofs.Token.Writing
import ObjectFlow.Proofs.Program.Signatures
import ObjectFlow.Proofs.Program.PrintedBody
import ObjectFlow.Proofs.Program.Likeness
import ObjectFlow.Proofs.Program.Mirroring
import ObjectFlow.Proofs.Program.StatementMirroring
import ObjectFlow.Proofs.Program.BodyMirroring
import ObjectFlow.Proofs.Program.DeclarationMirroring
import ObjectFlow.Proofs.Program.BodySwap
import ObjectFlow.Proofs.Program.PrintedStatements
import ObjectFlow.Proofs.Program.PrintedItems
import ObjectFlow.Proofs.Program.ReadBack
import ObjectFlow.Proofs.Program.RoundTrip
import ObjectFlow.Proofs.Token.Respacing
import ObjectFlow.Proofs.Program.Naming
import ObjectFlow.Proofs.Program.CanonicalSpelling
import ObjectFlow.Proofs.Program.Reporting
import ObjectFlow.Proofs.PointsTo.Merging
import ObjectFlow.Proofs.PointsTo.Watching
import ObjectFlow.Proofs.Execution.Observed
import ObjectFlow.Proofs.Dataflow.UselessAssignments
import ObjectFlow.Proofs.Graph.Search
import ObjectFlow.Proofs.Dataflow.DeadStatements
import ObjectFlow.Proofs.Dataflow.LivePaths
import ObjectFlow.Proofs.Dataflow.Remembering
import ObjectFlow.Proofs.Dataflow.HeapLoads
import ObjectFlow.Proofs.Calls.Listing
import ObjectFlow.Proofs.Calls.HierarchyClosure
import ObjectFlow.Proofs.Calls.Confinement
import ObjectFlow.Proofs.ControlFlow.SupergraphEdges
import ObjectFlow.Proofs.Graph.PostOrder
import ObjectFlow.Proofs.Dataflow.SinglePass
import ObjectFlow.Proofs.PointsTo.EveryMoment
import ObjectFlow.Proofs.PointsTo.ContextChoice
import ObjectFlow.Proofs.PointsTo.ContextDepth
import ObjectFlow.Proofs.Domain.MapOrder
import ObjectFlow.Proofs.Dataflow.ConstantMonotone
import ObjectFlow.Proofs.Dataflow.PendingNodes
import ObjectFlow.Proofs.Dataflow.PendingStores
import ObjectFlow.Proofs.Program.BraceLevels
import ObjectFlow.Proofs.Program.Extents
