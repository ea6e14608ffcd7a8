/-
  ByteMachine.Machine.State — the state of a machine between two instructions.
-/
import ByteMachine.Image
import ByteMachine.Machine.Flags
import ByteMachine.Machine.Pointer
import ByteMachine.Machine.Registers

namespace ByteMachine

/-- Registers, marks, the position of the next instruction, and whether `halt` was executed.  A new
machine has zeros in its registers, no mark, and stands on the first byte. -/
structure Machine where
  registers : Machine.Registers := {}
  flags : Machine.Flags := {}
  pointer : Machine.Pointer := 0
  halted : Bool := false
  deriving DecidableEq, Repr

namespace Machine

/-- Whether the machine has an instruction to go on with: it did not halt and stands inside the
image. -/
def running (m : Machine) (image : Image) : Bool := !m.halted && m.pointer.toNat < image.size

/-- The value of an operand; an immediate is reduced to 32 bits. -/
def value (m : Machine) : Operand → Int32
  | .register reg => m.registers.get reg
  | .immediate v => v.toInt32

/-- The machine with one register replaced. -/
def setRegister (m : Machine) (reg : Register) (v : Int32) : Machine :=
  { m with registers := m.registers.set reg v }

/-- The machine with its pointer elsewhere. -/
def goto (m : Machine) (pointer : Pointer) : Machine := { m with pointer }

end Machine

end ByteMachine
