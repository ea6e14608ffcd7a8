/-
  ByteMachine.Machine.Effect — what an instruction asks of the machine that executes it.

  An effect is computed from the state before the instruction and says everything the instruction
  does except moving on.  Arithmetic wraps at 32 bits; the one arithmetic fault is a division by
  zero, which is raised before anything is written.
-/
import ByteMachine.Machine.State

namespace ByteMachine.Machine

/-- What an instruction asks for. -/
inductive Effect where
  /-- A register takes a value. -/
  | assign (reg : Register) (v : Int32)
  /-- The marks take the result of a comparison. -/
  | mark (result : Ordering)
  /-- A number is printed on a line of its own. -/
  | print (v : Int)
  /-- The next instruction is the one at the target. -/
  | jump (target : UInt32)
  /-- Nothing happens. -/
  | pass
  | halt
  | divideByZero
  deriving DecidableEq, Repr

/-- The effect of an arithmetic operation on a destination that holds `current`. -/
def aluEffect (op : AluOp) (dst : Register) (current v : Int32) : Effect :=
  match op with
  | .move => .assign dst v
  | .add => .assign dst (current + v)
  | .subtract => .assign dst (current - v)
  | .multiply => .assign dst (current * v)
  | .divide => if v = 0 then .divideByZero else .assign dst (current / v)
  | .compare => .mark (compare current v)

/-- The result of a bitwise operation. -/
def bitwiseResult (op : BitwiseOp) (current v : Int32) : Int32 :=
  match op with
  | .or => current ||| v
  | .xor => current ^^^ v

/-- The number that a print shows: a register's value, or an immediate in full. -/
def printed (m : Machine) : Operand → Int
  | .register reg => (m.registers.get reg).toInt
  | .immediate v => v.toInt

/-- The effect of an instruction on the machine. -/
def effect (m : Machine) : Instruction → Effect
  | .alu op src dst => aluEffect op dst (m.registers.get dst) (m.value src)
  | .bitwise op src dst => .assign dst (bitwiseResult op (m.registers.get dst) (m.value src))
  | .increment reg => .assign reg (m.registers.get reg + 1)
  | .decrement reg => .assign reg (m.registers.get reg - 1)
  | .print src => .print (m.printed src)
  | .jump condition target => if m.flags.satisfy condition then .jump target else .pass
  | .halt => .halt

end ByteMachine.Machine
