/-
  ByteMachine.Machine.Pointer — the position of the next instruction.

  A pointer is a 64-bit word, and moving it wraps: a pointer may stand anywhere, also far behind
  the image.
-/

namespace ByteMachine.Machine

/-- A position in an image, or anywhere else. -/
abbrev Pointer := UInt64

namespace Pointer

/-- The pointer `amount` bytes further on. -/
def forward (p : Pointer) (amount : UInt64) : Pointer := p + amount

/-- The pointer `amount` bytes before. -/
def back (p : Pointer) (amount : UInt64) : Pointer := p - amount

/-- The last byte of an instruction of `size` bytes that starts at the pointer. -/
def lastByte (p : Pointer) (size : Nat) : Pointer := (p.forward (.ofNat size)).back 1

@[simp] theorem forward_back (p : Pointer) (amount : UInt64) :
    (p.back amount).forward amount = p := by
  simp [forward, back]

end Pointer

end ByteMachine.Machine
