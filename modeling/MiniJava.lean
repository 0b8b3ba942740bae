import MiniJava.Text
import MiniJava.Token
import MiniJava.Token.Lexer
import MiniJava.Ast
import MiniJava.Ast.Parser
import MiniJava.TypeTable
import MiniJava.StructuralError
import MiniJava.TypeError
import MiniJava.Ssa.Statement
import MiniJava.Ssa.Program
import MiniJava.Ssa.Listing
import MiniJava.Ssa.Bindings
import MiniJava.Ssa.Scope
import MiniJava.Ssa.Lower
import MiniJava.Ssa.Sweep
import MiniJava.Hierarchy
import MiniJava.Typing
import MiniJava.Register
import MiniJava.CallingConvention
import MiniJava.Partition
import MiniJava.VarSet
import MiniJava.Variables
import MiniJava.Liveness
import MiniJava.Interference
import MiniJava.Coloring
import MiniJava.Spill
import MiniJava.Allocation
import MiniJava.Layout
import MiniJava.Frame
import MiniJava.Assembly
import MiniJava.EmitError
import MiniJava.Emit
import MiniJava.Error
import MiniJava.Compile
import MiniJava.JsonValue
import MiniJava.Snapshot
import MiniJava.CommandLine
import MiniJava.Main
import MiniJava.Proofs.Semantics.Effect
import MiniJava.Proofs.Semantics.Evaluation
import MiniJava.Proofs.Semantics.Machine
import MiniJava.Proofs.Results
import MiniJava.Proofs.Cells
import MiniJava.Proofs.Lowering.Bindings
import MiniJava.Proofs.Lowering.Operands
import MiniJava.Proofs.Lowering.Evolution
import MiniJava.Proofs.Lowering.Joins
import MiniJava.Proofs.Lowering.Labels
import MiniJava.Proofs.Lowering.Overwriting
import MiniJava.Proofs.Lowering.Owners
import MiniJava.Proofs.Lowering.Pieces
import MiniJava.Proofs.Lowering.Expressions
import MiniJava.Proofs.Lowering.Statements
import MiniJava.Proofs.Lowering.Methods
import MiniJava.Proofs.Allocation.LiveRanges
import MiniJava.Proofs.Allocation.Paths
import MiniJava.Proofs.Allocation.Colors
import MiniJava.Proofs.Allocation.Transit
import MiniJava.Proofs.Allocation.Pressure
import MiniJava.Proofs.Allocation.SpillCode
import MiniJava.Proofs.Allocation.SpillDiscipline
import MiniJava.Proofs.Allocation.SpilledBody
import MiniJava.Proofs.Allocation.Annotations
import MiniJava.Proofs.Lowering.Discipline
import MiniJava.Proofs.Lowering.Shapes
import MiniJava.Proofs.Sweeps
import MiniJava.Proofs.Lowering.Programs
import MiniJava.Proofs.Allocation.Rounds
import MiniJava.Proofs.Allocation.Numbering
import MiniJava.Proofs.Allocation.Termination
import MiniJava.Proofs.Lowering.References
import MiniJava.Proofs.Typing.Checked
import MiniJava.Proofs.Allocation.RegisterSafety
import MiniJava.Proofs.SingleAssignment
import MiniJava.Proofs.Semantics.Simulation
import MiniJava.Proofs.Allocation.ColoredMachine
import MiniJava.Proofs.Allocation.SpilledMachine
import MiniJava.Proofs.Hierarchy.Chains
import MiniJava.Proofs.Semantics.Programs
import MiniJava.Proofs.Allocation.Preservation
import MiniJava.Proofs.Assembly.Labels
import MiniJava.Proofs.Stages
import MiniJava.Proofs.Assembly.LabelClashes
import MiniJava.Proofs.Hierarchy.TypeTables
import MiniJava.Proofs.Hierarchy.Members
import MiniJava.Proofs.Hierarchy.Resolution
import MiniJava.Proofs.Typing.Rules
import MiniJava.Proofs.Typing.Contexts
import MiniJava.Proofs.Typing.Bodies
import MiniJava.Proofs.Allocation.TypedCode
import MiniJava.Proofs.Assembly.Provision
import MiniJava.Proofs.Assembly.Emission
import MiniJava.Proofs.Typing.Source
import MiniJava.Proofs.Typing.Representation
import MiniJava.Proofs.Typing.Grounding
import MiniJava.Proofs.Typing.Acceptance
import MiniJava.Proofs.Lowering.Flows
import MiniJava.Proofs.Initialization
import MiniJava.Proofs.Assembly.Targets
import MiniJava.Proofs.Typing.Expressions
import MiniJava.Proofs.Typing.Statements
import MiniJava.Proofs.Typing.Programs
import MiniJava.Proofs.Soundness.Fields
import MiniJava.Proofs.Soundness.Values
import MiniJava.Proofs.Soundness.Statements
import MiniJava.Proofs.Soundness.Methods
import MiniJava.Proofs.Soundness.Programs
import MiniJava.Proofs.Soundness.Checked
import MiniJava.Proofs.Soundness.Inheritance
import MiniJava.Proofs.Soundness.Executions
import MiniJava.Proofs.Allocation.Retries
import MiniJava.Proofs.Parsing.Spelling
import MiniJava.Proofs.Snapshots
import MiniJava.Proofs.Parsing.Printer
import MiniJava.Proofs.Parsing.Reading
import MiniJava.Proofs.Parsing.RoundTrip
import MiniJava.Proofs.Parsing.Tiling
import MiniJava.Proofs.Lowering.Events
import MiniJava.Proofs.Lowering.LastBindings
import MiniJava.Proofs.Lowering.Roles
import MiniJava.Proofs.Typing.InternalErrors
import MiniJava.Proofs.Allocation.Saturation
import MiniJava.Proofs.Allocation.MergeComponents
import MiniJava.Proofs.Allocation.OperandTypes
import MiniJava.Proofs.Allocation.Idempotence
import MiniJava.Proofs.Allocation.Renaming
import MiniJava.Proofs.Allocation.CallSequences
import MiniJava.Proofs.Hierarchy.ObjectLayout
import MiniJava.Proofs.Assembly.StatementCode
import MiniJava.Proofs.Assembly.FrameAreas
import MiniJava.Proofs.Assembly.CallDiscipline
