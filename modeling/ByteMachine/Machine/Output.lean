/-
  ByteMachine.Machine.Output — where printed lines go.

  An output either takes everything or has room for so many bytes.  A text that does not fit is
  cut: what fits is written, and the writer is told that the text was not accepted in full.
  Printed text is ASCII, so a character is a byte.

  Main statement: `toList_write` — what is written is a beginning of the text.
-/

namespace ByteMachine.Machine

/-- The text written so far, and the room that is left if it is limited. -/
structure Output where
  room : Option Nat := none
  written : String := ""
  deriving DecidableEq, Repr

namespace Output

/-- How much of a text of `n` bytes is accepted. -/
def accepts (o : Output) (n : Nat) : Nat :=
  match o.room with
  | none => n
  | some room => min n room

/-- Whether a text of `n` bytes is accepted in full. -/
def fits (o : Output) (n : Nat) : Bool := n ≤ o.accepts n

/-- Writes what is accepted of a text. -/
def write (o : Output) (text : String) : Output where
  room := o.room.map (· - text.length)
  written :=
    o.written ++
      (if o.fits text.length then text
        else String.ofList (text.toList.take (o.accepts text.length)))

theorem accepts_le (o : Output) (n : Nat) : o.accepts n ≤ n := by
  unfold accepts
  split
  · exact Nat.le_refl n
  · exact Nat.min_le_left _ _

/-- What is written is a beginning of the text. -/
theorem toList_write (o : Output) (text : String) :
    (o.write text).written.toList =
      o.written.toList ++ text.toList.take (o.accepts text.length) := by
  simp only [write, String.toList_append]
  split
  · rename_i h
    have hle : text.toList.length ≤ o.accepts text.length := by
      rw [String.length_toList]
      simpa [fits] using h
    rw [List.take_of_length_le hle]
  · rw [String.toList_ofList]

end Output

end ByteMachine.Machine
