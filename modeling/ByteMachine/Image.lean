/-
  ByteMachine.Image — reading instructions out of a flat sequence of bytes.

  An image has no header and no alignment: an instruction may be read at any offset.  Bytes are
  consulted from left to right, so of two faults in one instruction the first is reported: the
  opcode at the instruction's offset, a code or sign byte at its own offset, and a missing byte
  as the offset before it (modulo 2⁶⁴, since the first byte of an empty image has none before).

  `sweep` lists the instructions met from offset 0 when each is followed by the next.
-/
import ByteMachine.Instruction

namespace ByteMachine

/-- The bytes of a program. -/
abbrev Image := Array UInt8

/-! ## §1. What can be wrong with the bytes of an instruction. -/

/-- Why no instruction can be read. -/
inductive DecodeError where
  /-- A byte is missing; `offset` is the one before it. -/
  | missingByte (offset : UInt64)
  | badSign (offset : UInt64)
  | badOpcode (opcode : UInt8) (offset : UInt64)
  | badCode (family code : UInt8) (offset : UInt64)
  deriving DecidableEq, Repr

/-- The wording of a decoding failure. -/
def DecodeError.message : DecodeError → String
  | .missingByte offset => s!"Invalid next bytecode at offset {offset.toNat}."
  | .badSign offset => s!"Invalid number sign bytecode at offset {offset.toNat}."
  | .badOpcode opcode offset =>
    s!"Invalid opcode {Text.hexPrefixed 2 opcode.toNat} at offset {offset.toNat}."
  | .badCode family code offset =>
    s!"Invalid subtype {Text.hexPrefixed 2 code.toNat} " ++
      s!"for prefix {Text.hexPrefixed 2 family.toNat} at offset {offset.toNat}."

namespace Image

/-! ## §2. Reading one instruction. -/

/-- The byte at a position. -/
def byteAt (image : Image) (position : Nat) : Except DecodeError UInt8 :=
  match image[position]? with
  | some byte => .ok byte
  | none => .error (.missingByte (.ofNat position - 1))

/-- The four bytes from a position on, as a word. -/
def wordAt (image : Image) (position : Nat) : Except DecodeError UInt32 := do
  let a ← image.byteAt position
  let b ← image.byteAt (position + 1)
  let c ← image.byteAt (position + 2)
  let d ← image.byteAt (position + 3)
  return Word.ofBytes a b c d

/-- The immediate from a position on: its sign byte is judged before its magnitude is read. -/
def immediateAt (image : Image) (position : Nat) : Except DecodeError Int64 := do
  match Immediate.decodeSign (← image.byteAt position) with
  | .ok negative => return Immediate.signed negative (← image.wordAt (position + 1))
  | .error _ => throw (.badSign (.ofNat position))

/-- The jump whose prefix stands at a position, and its size. -/
def jumpAt (image : Image) (position : Nat) : Except DecodeError (Instruction × Nat) := do
  let code ← image.byteAt (position + 1)
  match JumpCondition.ofCode code with
  | .ok condition => return (.jump condition (← image.wordAt (position + 2)), 6)
  | .error _ => throw (.badCode jumpPrefix code (.ofNat (position + 1)))

/-- The bitwise instruction whose prefix stands at a position, and its size. -/
def bitwiseAt (image : Image) (position : Nat) : Except DecodeError (Instruction × Nat) := do
  let code ← image.byteAt (position + 1)
  match BitwiseCode.ofByte? code with
  | some (.register op src dst) => return (.bitwise op (.register src) dst, 2)
  | some (.immediate op dst) =>
    return (.bitwise op (.immediate (← image.immediateAt (position + 2))) dst, 7)
  | none => throw (.badCode bitwisePrefix code (.ofNat (position + 1)))

/-- The instruction that starts at an offset, and the number of bytes read for it. -/
def decodeAt (image : Image) (offset : Nat) : Except DecodeError (Instruction × Nat) := do
  let byte ← image.byteAt offset
  match Opcode.ofByte? byte with
  | some (.aluRegister op src dst) => return (.alu op (.register src) dst, 1)
  | some (.aluImmediate op dst) =>
    return (.alu op (.immediate (← image.immediateAt (offset + 1))) dst, 6)
  | some (.increment reg) => return (.increment reg, 1)
  | some (.decrement reg) => return (.decrement reg, 1)
  | some (.printRegister reg) => return (.print (.register reg), 1)
  | some .printImmediate =>
    return (.print (.immediate (← image.immediateAt (offset + 1))), 6)
  | some .jump => image.jumpAt offset
  | some .bitwise => image.bitwiseAt offset
  | some .halt => return (.halt, 1)
  | none => throw (.badOpcode byte (.ofNat offset))

/-- Where the instruction is a jump, its size is that of every jump. -/
theorem size_of_jumpAt {image : Image} {position n : Nat} {i : Instruction}
    (h : image.jumpAt position = .ok (i, n)) : n = i.size := by
  unfold jumpAt at h
  cases hc : image.byteAt (position + 1) with
  | error e => rw [hc] at h; cases h
  | ok code =>
    simp only [hc, bind, Except.bind] at h
    split at h
    · cases hw : image.wordAt (position + 2) with
      | error e => rw [hw] at h; cases h
      | ok w => rw [hw] at h; cases h; rfl
    · cases h

/-- A bitwise instruction has as many bytes as were read for it. -/
theorem size_of_bitwiseAt {image : Image} {position n : Nat} {i : Instruction}
    (h : image.bitwiseAt position = .ok (i, n)) : n = i.size := by
  unfold bitwiseAt at h
  cases hc : image.byteAt (position + 1) with
  | error e => rw [hc] at h; cases h
  | ok code =>
    simp only [hc, bind, Except.bind] at h
    split at h
    · cases h; rfl
    · cases hv : image.immediateAt (position + 2) with
      | error e => rw [hv] at h; cases h
      | ok v => rw [hv] at h; cases h; rfl
    · cases h

/-- The number of bytes read for an instruction is its size. -/
theorem size_of_decodeAt {image : Image} {offset n : Nat} {i : Instruction}
    (h : image.decodeAt offset = .ok (i, n)) : n = i.size := by
  unfold decodeAt at h
  cases hb : image.byteAt offset with
  | error e => rw [hb] at h; cases h
  | ok byte =>
    simp only [hb, bind, Except.bind] at h
    split at h
    case h_2 =>
      cases hv : image.immediateAt (offset + 1) with
      | error e => rw [hv] at h; cases h
      | ok v => rw [hv] at h; cases h; rfl
    case h_6 =>
      cases hv : image.immediateAt (offset + 1) with
      | error e => rw [hv] at h; cases h
      | ok v => rw [hv] at h; cases h; rfl
    case h_7 => exact size_of_jumpAt h
    case h_8 => exact size_of_bitwiseAt h
    all_goals cases h <;> rfl

theorem decodeAt_pos {image : Image} {offset n : Nat} {i : Instruction}
    (h : image.decodeAt offset = .ok (i, n)) : 0 < n :=
  size_of_decodeAt h ▸ i.size_pos

/-! ## §3. Reading a whole image. -/

/-- An instruction together with the offset at which it was read and the bytes it takes. -/
structure Placed where
  offset : Nat
  instruction : Instruction
  size : Nat
  deriving DecidableEq, Repr

/-- The instructions met from `offset` on, each followed by the next, and the fault that ended
the sweep before the end of the image, if one did. -/
def sweepFrom (image : Image) (offset : Nat) : List Placed × Option DecodeError :=
  if _ : offset < image.size then
    match _ : image.decodeAt offset with
    | .ok (i, n) =>
      let (placed, fault) := image.sweepFrom (offset + n)
      (⟨offset, i, n⟩ :: placed, fault)
    | .error e => ([], some e)
  else ([], none)
termination_by image.size - offset
decreasing_by
  -- an instruction has at least one byte, so the rest of the image is shorter
  have := decodeAt_pos ‹_›
  omega

/-- The instructions met from the first byte on. -/
def sweep (image : Image) : List Placed × Option DecodeError := image.sweepFrom 0

end Image

end ByteMachine
