/-
  ByteMachine.Assembly.Statement — what an instruction line asks for.

  Every line but a jump is an instruction with known bytes; a jump names a label whose offset is
  not known before the whole tree has been laid out.
-/
import ByteMachine.Assembly.Error
import ByteMachine.Instruction

namespace ByteMachine.Assembly

/-- The meaning of an instruction line. -/
inductive Statement where
  | plain (instruction : Instruction)
  | jump (condition : JumpCondition) (label : String)
  deriving DecidableEq, Repr

namespace Statement

/-- The source operand that a node stands for. -/
def operand? : Tree → Option Operand
  | .register reg => some (.register reg)
  | .integer value => some (.immediate value)
  | _ => none

/-- The source and destination that two nodes stand for. -/
def operands? : List Tree → Option (Operand × Register)
  | [src, .register dst] => (operand? src).map (·, dst)
  | _ => none

/-- The instruction of a one-operand operation. -/
def unary? : UnaryOp → List Tree → Option Instruction
  | .print, [node] => (operand? node).map .print
  | .increment, [.register reg] => some (.increment reg)
  | .decrement, [.register reg] => some (.decrement reg)
  | _, _ => none

/-- The instruction of a mnemonic that is not a jump, with its operand nodes. -/
def plain? (mnemonic : String) (nodes : List Tree) : Option Instruction :=
  match AluOp.ofMnemonic? mnemonic, BitwiseOp.ofMnemonic? mnemonic,
    UnaryOp.ofMnemonic? mnemonic with
  | some op, _, _ => (operands? nodes).map fun (src, dst) => .alu op src dst
  | none, some op, _ => (operands? nodes).map fun (src, dst) => .bitwise op src dst
  | none, none, some op => unary? op nodes
  | none, none, none => if mnemonic = haltMnemonic ∧ nodes.isEmpty then some .halt else none

/-- The meaning of a mnemonic with its operand nodes. -/
def ofMnemonic (mnemonic : String) (nodes : List Tree) : Except TreeError Statement :=
  match JumpCondition.ofMnemonic? mnemonic with
  | some condition =>
    match nodes with
    | [.label name] => .ok (.jump condition name)
    | _ => .error (.expectedJumpLabel mnemonic)
  | none =>
    match plain? mnemonic nodes with
    | some instruction => .ok (.plain instruction)
    | none => .error (.malformedInstruction mnemonic)

/-- The meaning of the nodes of an instruction line. -/
def ofLine : List Tree → Except TreeError Statement
  | .mnemonic mnemonic :: nodes => ofMnemonic mnemonic nodes
  | _ => .error .missingMnemonic

end Statement

end ByteMachine.Assembly
