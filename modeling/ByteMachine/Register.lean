/-
  ByteMachine.Register — the four general registers and their two numberings.

  An instruction byte names a register by its low two bits, so every byte selects one
  (`Register.ofLowBits`); a bare register code is a byte below four (`Register.ofCode`).

  Main statements: `ofLowBits_code` and `ofName?_name` — both readings invert the writing.
-/
import ByteMachine.UnknownCode

namespace ByteMachine

/-- The machine's general registers. -/
inductive Register where
  | r0 | r1 | r2 | r3
  deriving DecidableEq, Repr

namespace Register

/-- Every register, in the order of the codes. -/
def all : List Register := [.r0, .r1, .r2, .r3]

/-! ## §1. Codes. -/

/-- The register's code: its position among the four. -/
def code : Register → UInt8
  | .r0 => 0
  | .r1 => 1
  | .r2 => 2
  | .r3 => 3

/-- The register selected by the low two bits of a byte. -/
def ofLowBits (bits : UInt8) : Register :=
  match bits.toNat % 4 with
  | 0 => .r0
  | 1 => .r1
  | 2 => .r2
  | _ => .r3

/-- The register with exactly this code. -/
def ofCode (byte : UInt8) : Except UnknownCode Register :=
  match all.find? (·.code == byte) with
  | some r => .ok r
  | none => .error ⟨"Register", byte⟩

@[simp] theorem ofLowBits_code (r : Register) : ofLowBits r.code = r := by
  cases r <;> rfl

@[simp] theorem ofCode_code (r : Register) : ofCode r.code = .ok r := by
  cases r <;> rfl

theorem code_lt (r : Register) : r.code < 4 := by
  cases r <;> decide

/-! ## §2. Names. -/

/-- The register's name in assembler text. -/
def name : Register → String
  | .r0 => "r0"
  | .r1 => "r1"
  | .r2 => "r2"
  | .r3 => "r3"

/-- The register called by this exact text. -/
def ofName? (text : String) : Option Register := all.find? (·.name == text)

@[simp] theorem ofName?_name (r : Register) : ofName? r.name = some r := by
  cases r <;> rfl

end Register

end ByteMachine
