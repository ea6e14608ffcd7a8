/-
  ByteMachine.Machine.Narration — what a run tells about itself.

  Two kinds of event are told: an instruction was read, and a jump is taken.  Like the output, the
  events come in the order of the steps; they are computed beside the run, which does not depend
  on them.
-/
import ByteMachine.Log
import ByteMachine.Machine.Run

namespace ByteMachine.Machine

/-- Something a step does. -/
inductive Event where
  | read (offset : Pointer) (instruction : Instruction)
  | jump (condition : JumpCondition) (target : UInt32)
  deriving DecidableEq, Repr

namespace Event

/-- The line that echoes an instruction. -/
def echo (offset : Pointer) (instruction : Instruction) : String :=
  s!"{Text.hexPrefixed 8 offset.toNat}: {instruction.text}"

/-- The entry on a jump. -/
def taken (condition : JumpCondition) (target : UInt32) : Log.Entry :=
  ⟨.trace, .machine, "taking jump",
    [("condition", condition.mnemonic), ("target", Text.decimal target.toNat)]⟩

end Event

/-- The events of one step. -/
def events (image : Image) (m : Machine) : List Event :=
  match image.decodeAt m.pointer.toNat with
  | .error _ => []
  | .ok (.jump condition target, _) =>
    .read m.pointer (.jump condition target) ::
      if m.flags.satisfy condition then [.jump condition target] else []
  | .ok (instruction, _) => [.read m.pointer instruction]

namespace Session

/-- The events of at most `limit` steps, behind those already told (`told`, latest first). -/
def narrateFrom (image : Image) (told : List Event) : (limit : Nat) → Session → List Event
  | 0, _ => told.reverse
  | limit + 1, s =>
    if s.running image then
      let told := (events image s.machine).reverse ++ told
      match s.step image with
      | (next, none) => next.narrateFrom image told limit
      | (_, some _) => told.reverse
    else told.reverse

/-- The events of a run of at most `limit` steps. -/
def narrate (image : Image) (limit : Nat) (s : Session) : List Event :=
  s.narrateFrom image [] limit

end Session

end ByteMachine.Machine
