import ByteMachine.Assembly.Draft
import ByteMachine.Assembly.Error
import ByteMachine.Assembly.LabelTable
import ByteMachine.Assembly.Statement
import ByteMachine.Assembly.Token
import ByteMachine.Assembly.Token.Scan
import ByteMachine.Assembly.Trail
import ByteMachine.Assembly.Tree
import ByteMachine.Assembly.Tree.OfTokens
import ByteMachine.Assembly.Tree.Outline
import ByteMachine.CommandLine.Arguments
import ByteMachine.CommandLine.Assembler
import ByteMachine.CommandLine.Directory
import ByteMachine.CommandLine.Emulator
import ByteMachine.CommandLine.Report
import ByteMachine.Image
import ByteMachine.Immediate
import ByteMachine.Instruction
import ByteMachine.Log
import ByteMachine.Machine.Effect
import ByteMachine.Machine.Fault
import ByteMachine.Machine.Flags
import ByteMachine.Machine.Narration
import ByteMachine.Machine.Output
import ByteMachine.Machine.Pointer
import ByteMachine.Machine.Registers
import ByteMachine.Machine.Run
import ByteMachine.Machine.State
import ByteMachine.Machine.Step
import ByteMachine.Main
import ByteMachine.Opcode
import ByteMachine.Operation
import ByteMachine.Proofs.Canonical
import ByteMachine.Proofs.Closed
import ByteMachine.Proofs.Encoding
import ByteMachine.Proofs.Grammar
import ByteMachine.Proofs.Interpreter
import ByteMachine.Proofs.Layout
import ByteMachine.Proofs.Lines
import ByteMachine.Proofs.Lockstep
import ByteMachine.Proofs.Meaning
import ByteMachine.Proofs.Outcome
import ByteMachine.Proofs.Printed
import ByteMachine.Proofs.ReadBack
import ByteMachine.Proofs.Reduction
import ByteMachine.Proofs.Rendering
import ByteMachine.Proofs.Spelling
import ByteMachine.Proofs.Steps
import ByteMachine.Proofs.Sweep
import ByteMachine.Proofs.TwoPass
import ByteMachine.Register
import ByteMachine.Segments
import ByteMachine.Text.Decimal
import ByteMachine.Text.Glyph
import ByteMachine.Text.Hex
import ByteMachine.Text.Outline
import ByteMachine.Text.Quoted
import ByteMachine.UnknownCode
import ByteMachine.Word
import ByteMachine.Proofs.LineByLine
import ByteMachine.Proofs.Writer
import ByteMachine.Proofs.Faults
import ByteMachine.Proofs.Calls
import ByteMachine.Proofs.Standstill
import ByteMachine.Proofs.Comparisons
import ByteMachine.Proofs.FailedPrint
import ByteMachine.Proofs.Parsing
import ByteMachine.Proofs.Agreement
import ByteMachine.Proofs.Respelling
import ByteMachine.Proofs.Arithmetic
import ByteMachine.Proofs.OpenLabels
import ByteMachine.Proofs.LineEnds
import ByteMachine.Proofs.Diagnosis
import ByteMachine.Proofs.Renaming
import ByteMachine.Proofs.Relocation
import ByteMachine.Proofs.Limits
import ByteMachine.Proofs.Forward
import ByteMachine.Proofs.Literals
import ByteMachine.Proofs.Disassembly
import ByteMachine.Proofs.Room
import ByteMachine.Proofs.Footprint
import ByteMachine.Proofs.Numerals
import ByteMachine.Proofs.Routes
import ByteMachine.Proofs.Narrowing
