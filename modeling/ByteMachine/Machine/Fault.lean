/-
  ByteMachine.Machine.Fault — why a machine could not complete an instruction.
-/
import ByteMachine.Image

namespace ByteMachine.Machine

/-- What stopped an instruction. -/
inductive Fault where
  | decode (cause : DecodeError)
  | divisionByZero
  /-- The output did not take the printed line in full. -/
  | output
  deriving DecidableEq, Repr

/-- The wording of a fault. -/
def Fault.message : Fault → String
  | .decode cause => cause.message
  | .divisionByZero => "Division by zero."
  | .output => "Failed to write program output: failed to write whole buffer"

end ByteMachine.Machine
