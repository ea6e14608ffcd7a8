/-
  ByteMachine.Machine.Step — executing the instruction under the pointer.

  The pointer moves in two strides.  Once the instruction has been read it stands on the
  instruction's last byte; when the effect is done it moves to the byte behind, or to the target
  of a jump.  So a fault of reading leaves the pointer in front of the instruction, a fault of
  executing and a halt leave it on the last byte.

  A step can be asked for in any state, whether the machine is running or not.
-/
import ByteMachine.Machine.Effect
import ByteMachine.Machine.Fault
import ByteMachine.Machine.Output

namespace ByteMachine.Machine

/-- A machine together with the output it prints to. -/
structure Session where
  machine : Machine := {}
  output : Output := {}
  deriving DecidableEq, Repr

/-- The line that shows a number. -/
def line (v : Int) : String := Text.decimal v ++ "\n"

namespace Session

/-- The session once an instruction whose last byte is at `last` has had its effect, and the
fault it ended with, if one arose. -/
def apply (s : Session) (last : Pointer) : Effect → Session × Option Fault
  | .assign reg v =>
    ({ s with machine := (s.machine.setRegister reg v).goto (last.forward 1) }, none)
  | .mark result =>
    ({ s with machine := { s.machine with
        flags := .ofComparison result, pointer := last.forward 1 } }, none)
  | .print v =>
    if s.output.fits (line v).length then
      ({ machine := s.machine.goto (last.forward 1), output := s.output.write (line v) }, none)
    else
      -- the part that fits is written all the same
      ({ machine := s.machine.goto last, output := s.output.write (line v) }, some .output)
  | .jump target => ({ s with machine := s.machine.goto target.toUInt64 }, none)
  | .pass => ({ s with machine := s.machine.goto (last.forward 1) }, none)
  | .halt => ({ s with machine := { s.machine with pointer := last, halted := true } }, none)
  | .divideByZero => ({ s with machine := s.machine.goto last }, some .divisionByZero)

/-- Executes the instruction under the pointer. -/
def step (image : Image) (s : Session) : Session × Option Fault :=
  match image.decodeAt s.machine.pointer.toNat with
  | .ok (instruction, size) =>
    s.apply (s.machine.pointer.lastByte size) (s.machine.effect instruction)
  | .error cause => (s, some (.decode cause))

/-- Whether the machine has an instruction to go on with. -/
def running (s : Session) (image : Image) : Bool := s.machine.running image

end Session

end ByteMachine.Machine
