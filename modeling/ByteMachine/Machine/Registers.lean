/-
  ByteMachine.Machine.Registers — the contents of the four registers.

  Main statement: `get_set` — a write decides its own register and leaves the others.
-/
import ByteMachine.Register
import ByteMachine.Text.Decimal

namespace ByteMachine.Machine

/-- Four signed 32-bit values, all zero at first. -/
structure Registers where
  r0 : Int32 := 0
  r1 : Int32 := 0
  r2 : Int32 := 0
  r3 : Int32 := 0
  deriving DecidableEq, Repr

namespace Registers

/-- The value of a register. -/
def get (rs : Registers) : Register → Int32
  | .r0 => rs.r0
  | .r1 => rs.r1
  | .r2 => rs.r2
  | .r3 => rs.r3

/-- The registers with one of them replaced. -/
def set (rs : Registers) (reg : Register) (value : Int32) : Registers :=
  match reg with
  | .r0 => { rs with r0 := value }
  | .r1 => { rs with r1 := value }
  | .r2 => { rs with r2 := value }
  | .r3 => { rs with r3 := value }

/-- The values in the order of the registers. -/
def toList (rs : Registers) : List Int32 := Register.all.map rs.get

/-- The values in words. -/
def text (rs : Registers) : String :=
  let inner := ", ".intercalate (rs.toList.map fun v => Text.decimal v.toInt)
  s!"RegisterFile([{inner}])"

/-- A write decides its own register and leaves the others. -/
theorem get_set (rs : Registers) (written read : Register) (value : Int32) :
    (rs.set written value).get read = if read = written then value else rs.get read := by
  cases written <;> cases read <;> rfl

end Registers

end ByteMachine.Machine
