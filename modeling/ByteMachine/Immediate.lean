/-
  ByteMachine.Immediate — integers inside instructions: a sign byte and a 32-bit magnitude.

  A literal may be any 64-bit integer, but only the low 32 bits of its magnitude are written.
  The sign byte is kept apart from the magnitude, so zero has a negative spelling too, which
  only bytes from elsewhere (or a negative multiple of 2³²) show.
-/
import ByteMachine.Text.Hex
import ByteMachine.Word

namespace ByteMachine

/-- A byte in the place of an immediate's sign that is neither of the two sign bytes. -/
structure InvalidSign where
  byte : UInt8
  deriving DecidableEq, Repr

/-- The wording of the failure. -/
def InvalidSign.message (e : InvalidSign) : String :=
  "invalid immediate sign byte " ++ Text.hexPrefixed 2 e.byte.toNat

namespace Immediate

/-- The number of bytes of an encoded immediate. -/
def size : Nat := 5

/-- The byte that marks a sign. -/
def signByte (negative : Bool) : UInt8 := if negative then 0xff else 0xfe

/-- Whether the sign byte marks a negative number. -/
def decodeSign (byte : UInt8) : Except InvalidSign Bool :=
  if byte = signByte false then .ok false
  else if byte = signByte true then .ok true
  else .error ⟨byte⟩

/-- The low 32 bits of the magnitude. -/
def magnitude (v : Int64) : UInt32 := .ofNat v.toInt.natAbs

/-- The sign byte followed by the low 32 bits of the magnitude, most significant byte first. -/
def encode (v : Int64) : List UInt8 := signByte (v.toInt < 0) :: Word.bytes (magnitude v)

/-- The integer of a sign and a magnitude. -/
def signed (negative : Bool) (m : UInt32) : Int64 :=
  .ofInt (if negative then -m.toNat else m.toNat)

/-- The integer of a sign and the first four bytes, which hold its magnitude; there is none when
the bytes are fewer than four. -/
def decodeMagnitude? (negative : Bool) : List UInt8 → Option Int64
  | a :: b :: c :: d :: _ => some (signed negative (Word.ofBytes a b c d))
  | _ => none

@[simp] theorem length_encode (v : Int64) : (encode v).length = size := rfl

@[simp] theorem decodeSign_signByte (negative : Bool) :
    decodeSign (signByte negative) = .ok negative := by
  cases negative <;> rfl

end Immediate

end ByteMachine
