import ThreeAddress.ControlFlow.Dot
import ThreeAddress.Compilation
import ThreeAddress.Proofs.Coherent
import ThreeAddress.Proofs.Lowering.Success
import ThreeAddress.Proofs.Machine
import ThreeAddress.Proofs.Lowering.Steps
import ThreeAddress.Proofs.Lowering.Coherence
import ThreeAddress.Proofs.Numbering.Scan
import ThreeAddress.Proofs.Numbering.Splice
import ThreeAddress.Proofs.Numbering.Values
import ThreeAddress.Proofs.Numbering.Agreement
import ThreeAddress.Proofs.Numbering.Block
import ThreeAddress.Proofs.Numbering.Simulation
import ThreeAddress.Proofs.Numbering.Meaning
import ThreeAddress.Proofs.Lowering.Structured
import ThreeAddress.Proofs.Lowering.Context
import ThreeAddress.Proofs.Lowering.Following
import ThreeAddress.Proofs.Lowering.Expressions
import ThreeAddress.Proofs.Lowering.Statements
import ThreeAddress.Proofs.Lowering.Functions
import ThreeAddress.Proofs.Lowering.Meaning
import ThreeAddress.Proofs.Dominators.DepthFirst
import ThreeAddress.Proofs.Dominators.Forest
import ThreeAddress.Proofs.Dominators.Immediate
import ThreeAddress.Proofs.Digraph.Paths
import ThreeAddress.Proofs.Dominators.PathCompression
import ThreeAddress.Proofs.Dominators.Tree
import ThreeAddress.Proofs.FiniteSets
import ThreeAddress.Proofs.DataFlow.Equations
import ThreeAddress.Proofs.DataFlow.Strategies
import ThreeAddress.Proofs.DataFlow.Analyses
import ThreeAddress.Proofs.Lowering.Layout
import ThreeAddress.Proofs.Lowering.Segments
import ThreeAddress.Proofs.ControlFlow.Sections
import ThreeAddress.Proofs.ControlFlow.Blocks
import ThreeAddress.Proofs.ControlFlow.Edges
import ThreeAddress.Proofs.Digraph.Reachable
import ThreeAddress.Proofs.ControlFlow.Intervals
import ThreeAddress.Proofs.DataFlow.Lockstep
import ThreeAddress.Proofs.DataFlow.LiveRuns
import ThreeAddress.Proofs.Lowering.Validity
import ThreeAddress.Proofs.Lowering.Decisions
import ThreeAddress.Proofs.Lowering.Acceptance
import ThreeAddress.Proofs.ControlFlow.Execution
import ThreeAddress.Proofs.DataFlow.Live
import ThreeAddress.Proofs.Numbering.Origins
import ThreeAddress.Proofs.Numbering.Analyses
import ThreeAddress.Proofs.Lowering.Typing
import ThreeAddress.Proofs.Lowering.Issues
import ThreeAddress.Proofs.Numbering.Typing
import ThreeAddress.Proofs.Temporaries
import ThreeAddress.Proofs.Lowering.Loops
import ThreeAddress.Proofs.ControlFlow.Reducible
import ThreeAddress.Proofs.DataFlow.LivePaths
import ThreeAddress.Proofs.Provided
import ThreeAddress.Proofs.DataFlow.AvailablePaths
import ThreeAddress.Proofs.Numbering.NormalForm
import ThreeAddress.Proofs.DataFlow.LivePoints
import ThreeAddress.Proofs.Numbering.Edits
import ThreeAddress.Proofs.Numbering.Account
import ThreeAddress.Proofs.Calls
import ThreeAddress.Proofs.Digraph.Postorder
import ThreeAddress.Proofs.PackedSets
import ThreeAddress.Proofs.DataFlow.Checks
import ThreeAddress.Proofs.Schedule
import ThreeAddress.Proofs.Lowering.Naming
import ThreeAddress.Proofs.Texts
import ThreeAddress.Proofs.ControlFlow.DotText
import ThreeAddress.Proofs.LabelTexts
import ThreeAddress.Proofs.Lowering.Reads
import ThreeAddress.Proofs.LexicalScopes
