import BinaryLift.Word
import BinaryLift.Table
import BinaryLift.Scalar.Operator
import BinaryLift.Program.Edit
import BinaryLift.Program.Module
import BinaryLift.Graph.Dominators
import BinaryLift.Image.Load
import BinaryLift.Target.Resolve
import BinaryLift.Transform.DeadCode
import BinaryLift.Transform.Promote
import BinaryLift.Transform.Combine
import BinaryLift.Transform.ControlFlow
import BinaryLift.Transform.Numbering
import BinaryLift.Transform.Memory
import BinaryLift.Transform.Stack
import BinaryLift.Metrics.Summary
import BinaryLift.Proofs.Target.Solver
import BinaryLift.Proofs.Lift.Session
import BinaryLift.Proofs.Transform.Promotion
import BinaryLift.Proofs.Transform.PromotedForm
import BinaryLift.Proofs.Transform.ControlFlow
import BinaryLift.Proofs.Transform.Combination
import BinaryLift.Proofs.Transform.DeadCode
import BinaryLift.Proofs.Transform.NeededCode
import BinaryLift.Proofs.Transform.Insertion
import BinaryLift.Proofs.Transform.Numbering
import BinaryLift.Proofs.Pipeline.SsaForm
import BinaryLift.Proofs.Pipeline.StackPass
import BinaryLift.Proofs.Pipeline.NarrowingPass
import BinaryLift.Proofs.Run.Regions
import BinaryLift.Proofs.Transform.StackMemory
import BinaryLift.Proofs.Transform.StackRun
import BinaryLift.Proofs.Graph.Exactness
import BinaryLift.Proofs.Target.Policy
import BinaryLift.Proofs.Closed.Endings
import BinaryLift.Proofs.Closed.Functions
import BinaryLift.Proofs.Closed.Graph
import BinaryLift.Proofs.Closed.Numbering
import BinaryLift.Proofs.Closed.Passes
import BinaryLift.Proofs.Program.EditRuns
import BinaryLift.Proofs.Pipeline.Fixpoint
import BinaryLift.Proofs.Pipeline.Grouping
import BinaryLift.Proofs.Pipeline.Pruning
import BinaryLift.Proofs.Target.Turns
import BinaryLift.Proofs.Lift.Candidates
import BinaryLift.Proofs.Graph.PhiPlacement
import BinaryLift.Proofs.Target.OperandOrder
import BinaryLift.Proofs.Image.ReadonlyReads
import BinaryLift.Proofs.Target.ConstantLoads
import BinaryLift.Proofs.Transform.StackOffsets
import BinaryLift.Proofs.Target.Halting
import BinaryLift.Proofs.Scalar.TwosComplement
import BinaryLift.Proofs.Transform.CastPairs
import BinaryLift.Proofs.Transform.CombinationRounds
import BinaryLift.Proofs.Transform.GraphRounds
import BinaryLift.Proofs.Target.MappedTargets
import BinaryLift.Proofs.Image.LoadedSections
import BinaryLift.Proofs.Lift.Report
import BinaryLift.Proofs.Graph.DepthFirst
import BinaryLift.Proofs.Transform.EarlierValues
import BinaryLift.Proofs.Pipeline.Preservation
