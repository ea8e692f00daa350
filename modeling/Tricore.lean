import Tricore.CodeGraph
import Tricore.CodeGraph.Report
import Tricore.Command.Arguments
import Tricore.Command.Disassemble
import Tricore.Command.Execute
import Tricore.Core
import Tricore.Core.Context
import Tricore.Core.Psw
import Tricore.Core.Trap
import Tricore.Effect.Expr
import Tricore.Effect.Idiom
import Tricore.Effect.Intrinsic
import Tricore.Effect.Stmt
import Tricore.Effect.Trace
import Tricore.Encoding.Fields
import Tricore.Encoding.Format
import Tricore.Exec.Eval
import Tricore.Exec.FloatStatus
import Tricore.Exec.Operators
import Tricore.Exec.Platform
import Tricore.Exec.Run
import Tricore.Exec.Scramble
import Tricore.Exec.Step
import Tricore.Export.Core
import Tricore.Export.Effect
import Tricore.Export.Instruction
import Tricore.Export.Report
import Tricore.Flag
import Tricore.Ieee.Arithmetic
import Tricore.Ieee.Datum
import Tricore.Image
import Tricore.Instruction
import Tricore.Instruction.Branches
import Tricore.Instruction.Error
import Tricore.Instruction.Nop
import Tricore.Instruction.Text
import Tricore.Isa
import Tricore.Json
import Tricore.Json.Printer
import Tricore.Json.Reader
import Tricore.Labels
import Tricore.Lift
import Tricore.Lift.Arithmetic
import Tricore.Lift.BitField
import Tricore.Lift.Branch
import Tricore.Lift.Divide
import Tricore.Lift.Emit
import Tricore.Lift.Float
import Tricore.Lift.Fraction
import Tricore.Lift.Lanes
import Tricore.Lift.Logic
import Tricore.Lift.Memory
import Tricore.Lift.Multiply
import Tricore.Lift.Operands
import Tricore.Lift.Platform
import Tricore.Lift.Shift
import Tricore.Listing
import Tricore.Main
import Tricore.Memory.Bus
import Tricore.Memory.Scattered
import Tricore.Memory.Store
import Tricore.Memory.Window
import Tricore.Opcode.Action
import Tricore.Opcode.Arithmetic
import Tricore.Opcode.BitField
import Tricore.Opcode.Branch
import Tricore.Opcode.Division
import Tricore.Opcode.Memory
import Tricore.Opcode.Multiply
import Tricore.Opcode.Platform
import Tricore.Opcode.Row
import Tricore.Opcode.Short
import Tricore.Opcode.Table
import Tricore.Operand
import Tricore.Proofs.Accumulation
import Tricore.Proofs.Alignment
import Tricore.Proofs.Atomicity
import Tricore.Proofs.Blocks
import Tricore.Proofs.Budgets
import Tricore.Proofs.CarryChains
import Tricore.Proofs.Checked
import Tricore.Proofs.CheckedArithmetic
import Tricore.Proofs.CheckedLift
import Tricore.Proofs.CheckedRun
import Tricore.Proofs.CheckedState
import Tricore.Proofs.ConditionalSums
import Tricore.Proofs.Contexts
import Tricore.Proofs.Coverage
import Tricore.Proofs.Dispatch
import Tricore.Proofs.Divisions
import Tricore.Proofs.Emission
import Tricore.Proofs.EntryPoints
import Tricore.Proofs.ExactResults
import Tricore.Proofs.Execution
import Tricore.Proofs.Exploration
import Tricore.Proofs.FailedSteps
import Tricore.Proofs.Footprint
import Tricore.Proofs.Forward
import Tricore.Proofs.Fractions
import Tricore.Proofs.Frame
import Tricore.Proofs.Frugality
import Tricore.Proofs.Hosts
import Tricore.Proofs.Idioms
import Tricore.Proofs.LabelHistory
import Tricore.Proofs.Labelling
import Tricore.Proofs.LaneOperations
import Tricore.Proofs.Lanes
import Tricore.Proofs.Layout
import Tricore.Proofs.Nesting
import Tricore.Proofs.PackedProducts
import Tricore.Proofs.Plans
import Tricore.Proofs.Products
import Tricore.Proofs.Resources
import Tricore.Proofs.RoundedProducts
import Tricore.Proofs.Routines
import Tricore.Proofs.Scoping
import Tricore.Proofs.Shifts
import Tricore.Proofs.Signature
import Tricore.Proofs.StatusFlags
import Tricore.Proofs.Successor
import Tricore.Proofs.Sums
import Tricore.Proofs.Sweeps
import Tricore.Proofs.Traps
import Tricore.Proofs.TypedArithmetic
import Tricore.Proofs.Typing
import Tricore.Proofs.Values
import Tricore.Proofs.WellTyped
import Tricore.Proofs.Widths
import Tricore.Register
import Tricore.Register.Csfr
import Tricore.Text.Blank
import Tricore.Text.Hex
import Tricore.Text.Numeral
import Tricore.Width
import Tricore.Proofs.LaneOperations
import Tricore.Proofs.Bytes
import Tricore.Proofs.Addressing
import Tricore.Proofs.MemoryAccess
import Tricore.Proofs.BitReversal
import Tricore.Proofs.Precision
import Tricore.Proofs.ReversedAccess
import Tricore.Proofs.Exchanges
import Tricore.Proofs.CircularBuffers
import Tricore.Proofs.FastCalls
import Tricore.Proofs.StoredContexts
import Tricore.Proofs.MemoryUpdates
import Tricore.Proofs.Windows
import Tricore.Proofs.BitFields
import Tricore.Proofs.FieldComposition
import Tricore.Proofs.Histories
import Tricore.Proofs.Images
import Tricore.Proofs.RegisterFile
import Tricore.Proofs.Rendering
import Tricore.Proofs.EncodingBits
import Tricore.Proofs.CountedBranches
import Tricore.Proofs.IdiomEvaluation
import Tricore.Proofs.BitShuffles
