/-
  ByteMachine.Instruction — decoded instructions: their size, their bytes and their text.

  Register operands are folded into the opcode byte, immediates follow it, and the jump and
  bitwise families spend one byte on a prefix.

  Main statement: `Instruction.length_encode` — an instruction has as many bytes as its `size`.
-/
import ByteMachine.Immediate
import ByteMachine.Opcode
import ByteMachine.Text.Decimal

namespace ByteMachine

/-! ## §1. Operands. -/

/-- A source operand. -/
inductive Operand where
  | register (reg : Register)
  | immediate (value : Int64)
  deriving DecidableEq, Repr

namespace Operand

/-- The number of bytes the operand adds behind the opcode. -/
def size : Operand → Nat
  | .register _ => 0
  | .immediate _ => Immediate.size

/-- The bytes the operand adds behind the opcode. -/
def trailer : Operand → List UInt8
  | .register _ => []
  | .immediate value => Immediate.encode value

/-- The operand in assembler text. -/
def text : Operand → String
  | .register reg => reg.name
  | .immediate value => "#" ++ Text.decimal value.toInt

@[simp] theorem length_trailer (o : Operand) : o.trailer.length = o.size := by
  cases o <;> rfl

end Operand

/-! ## §2. Instructions. -/

/-- A decoded instruction. -/
inductive Instruction where
  | alu (op : AluOp) (src : Operand) (dst : Register)
  | bitwise (op : BitwiseOp) (src : Operand) (dst : Register)
  | increment (reg : Register)
  | decrement (reg : Register)
  | print (src : Operand)
  | jump (condition : JumpCondition) (target : UInt32)
  | halt
  deriving DecidableEq, Repr

namespace Instruction

/-- The number of bytes of a jump: prefix, condition and target. -/
def jumpSize : Nat := 6

/-- The number of bytes of the encoded instruction. -/
def size : Instruction → Nat
  | .alu _ src _ => 1 + src.size
  | .bitwise _ src _ => 2 + src.size
  | .increment _ => 1
  | .decrement _ => 1
  | .print src => 1 + src.size
  | .jump _ _ => jumpSize
  | .halt => 1

/-- The opcode byte of an arithmetic instruction. -/
def aluOpcode (op : AluOp) (src : Operand) (dst : Register) : Opcode :=
  match src with
  | .register reg => .aluRegister op reg dst
  | .immediate _ => .aluImmediate op dst

/-- The byte behind the prefix of a bitwise instruction. -/
def bitwiseCode (op : BitwiseOp) (src : Operand) (dst : Register) : BitwiseCode :=
  match src with
  | .register reg => .register op reg dst
  | .immediate _ => .immediate op dst

/-- The opcode byte of a print. -/
def printOpcode : Operand → Opcode
  | .register reg => .printRegister reg
  | .immediate _ => .printImmediate

/-- The bytes of the instruction. -/
def encode : Instruction → List UInt8
  | .alu op src dst => (aluOpcode op src dst).toByte :: src.trailer
  | .bitwise op src dst =>
    Opcode.bitwise.toByte :: (bitwiseCode op src dst).toByte :: src.trailer
  | .increment reg => [(Opcode.increment reg).toByte]
  | .decrement reg => [(Opcode.decrement reg).toByte]
  | .print src => (printOpcode src).toByte :: src.trailer
  | .jump condition target => Opcode.jump.toByte :: condition.code :: Word.bytes target
  | .halt => [Opcode.halt.toByte]

/-- The instruction in assembler text, a jump's target as an absolute offset. -/
def text : Instruction → String
  | .alu op src dst => s!"{op.mnemonic} {src.text}, {dst.name}"
  | .bitwise op src dst => s!"{op.mnemonic} {src.text}, {dst.name}"
  | .increment reg => s!"{UnaryOp.increment.mnemonic} {reg.name}"
  | .decrement reg => s!"{UnaryOp.decrement.mnemonic} {reg.name}"
  | .print src => s!"{UnaryOp.print.mnemonic} {src.text}"
  | .jump condition target => s!"{condition.mnemonic} {Text.hexPrefixed 8 target.toNat}"
  | .halt => haltMnemonic

theorem length_encode (i : Instruction) : i.encode.length = i.size := by
  cases i <;> simp +arith [encode, size, jumpSize]

theorem size_pos (i : Instruction) : 0 < i.size := by
  cases i <;> simp +arith [size, jumpSize]

end Instruction

end ByteMachine
