/-
  ByteMachine.Machine.Flags — the three marks that a comparison leaves behind.

  A comparison sets exactly one mark and clears the others; before the first comparison none is
  set.  Jumps test their condition against the marks.

  Main statement: `marks_ofComparison` — a comparison leaves exactly one mark.
-/
import ByteMachine.Operation
import ByteMachine.Text.Hex

namespace ByteMachine.Machine

/-- The marks of the latest comparison. -/
structure Flags where
  zero : Bool := false
  greater : Bool := false
  less : Bool := false
  deriving DecidableEq, Repr

namespace Flags

/-- The marks that a comparison with this result leaves. -/
def ofComparison : Ordering → Flags
  | .lt => { less := true }
  | .eq => { zero := true }
  | .gt => { greater := true }

/-- Whether a jump under the condition is taken. -/
def satisfy (f : Flags) (condition : JumpCondition) : Bool :=
  condition.holds f.zero f.greater f.less

/-- The names of the marks that are set, in the order of their bits. -/
def marks (f : Flags) : List String :=
  (if f.zero then ["ZERO"] else []) ++ (if f.greater then ["GREATER"] else []) ++
    (if f.less then ["LESS"] else [])

/-- The marks as a number: one for zero, two for greater, four for less. -/
def bits (f : Flags) : Nat :=
  (if f.zero then 1 else 0) + (if f.greater then 2 else 0) + (if f.less then 4 else 0)

/-- The marks in words, with a zero where none is set. -/
def text (f : Flags) : String :=
  let inner := if f.marks.isEmpty then Text.hexPrefixed 1 0 else " | ".intercalate f.marks
  s!"Flags({inner})"

/-- A comparison leaves exactly one mark. -/
theorem marks_ofComparison (o : Ordering) : (ofComparison o).marks.length = 1 := by
  cases o <;> rfl

end Flags

end ByteMachine.Machine
