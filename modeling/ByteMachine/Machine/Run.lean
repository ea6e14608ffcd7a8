/-
  ByteMachine.Machine.Run — executing instructions one after another.

  A run goes on while the machine is running, and ends at the first fault or when its number of
  steps is used up.  The step that faults counts.

  Main statement: `Session.steps_runFor_le` — a run takes no more steps than it was given.
-/
import ByteMachine.Machine.Step

namespace ByteMachine.Machine

/-- How far a run came: the session it left, the steps it took, and its fault if it had one. -/
structure Run where
  session : Session
  steps : Nat
  fault : Option Fault
  deriving DecidableEq, Repr

namespace Session

/-- Goes on for at most `limit` steps after the `steps` already taken. -/
def runFrom (image : Image) (steps : Nat) : (limit : Nat) → Session → Run
  | 0, s => ⟨s, steps, none⟩
  | limit + 1, s =>
    if s.running image then
      match s.step image with
      | (next, none) => next.runFrom image (steps + 1) limit
      | (next, some fault) => ⟨next, steps + 1, some fault⟩
    else ⟨s, steps, none⟩

/-- Runs for at most `limit` steps. -/
def runFor (image : Image) (limit : Nat) (s : Session) : Run := s.runFrom image 0 limit

/-- The number of steps of a run to which no limit was given. -/
def stepBound : Nat := UInt64.size - 1

/-- Runs until the machine stops or faults. -/
def run (image : Image) (s : Session) : Run := s.runFor image stepBound

theorem steps_runFrom_le (image : Image) (limit : Nat) :
    ∀ (steps : Nat) (s : Session), (s.runFrom image steps limit).steps ≤ steps + limit := by
  induction limit with
  | zero => exact fun steps _ => Nat.le_refl steps
  | succ limit ih =>
    intro steps s
    unfold runFrom
    split
    · split
      · rename_i next _
        have := ih (steps + 1) next
        omega
      · exact Nat.add_le_add_left (Nat.le_add_left 1 limit) steps
    · exact Nat.le_add_right _ _

/-- A run takes no more steps than it was given. -/
theorem steps_runFor_le (image : Image) (limit : Nat) (s : Session) :
    (s.runFor image limit).steps ≤ limit := by
  simpa [runFor] using steps_runFrom_le image limit 0 s

end Session

/-- What a new machine prints when it runs an image, and its fault if it had one. -/
def execute (image : Image) : String × Option Fault :=
  let run := Session.run image {}
  (run.session.output.written, run.fault)

end ByteMachine.Machine
