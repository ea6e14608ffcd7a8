/-
  ByteMachine.Proofs.Canonical — what is read is written back.

  Of the bytes of an instruction, reading forgets one thing only: a zero has two spellings, and both
  read as zero.  Writing picks the one with the positive sign.  So an instruction that was read is
  written back byte by byte, but for the sign of a negative zero, and the same goes for a whole
  image that can be swept:

    • `Instruction.Spelled.split` — a spelling differs from the encoding at most in its sign byte,
    • `Image.NegativeZero` — the byte that differs, if one does,
    • `Image.getElem?_encode_of_decodeAt` — an instruction that was read, byte by byte,
    • `Image.getElem?_encodeAll_of_tiles` — instructions read one behind the other, byte by byte,
    • `read_instructions_encode_back` — so the encoding of a sweep is the image with its negative
      zeros made positive, and is swept alike.
-/
import ByteMachine.Proofs.Encoding

namespace ByteMachine

/-! ## §1. The two spellings of an immediate. -/

theorem Word.bytes_injective {v w : UInt32} (h : bytes v = bytes w) : v = w := by
  simp only [bytes, List.cons.injEq, and_true] at h
  obtain ⟨ha, hb, hc, hd⟩ := h
  rw [← ofBytes_bytes v, ha, hb, hc, hd, ofBytes_bytes]

namespace Immediate

theorem toInt_signed (negative : Bool) (m : UInt32) :
    (signed negative m).toInt = if negative then -(m.toNat : Int) else m.toNat := by
  -- a magnitude of 32 bits leaves room for a sign in 64
  have hm := m.toNat_lt
  unfold signed
  apply Int64.toInt_ofInt_of_le
  · split <;> omega
  · split <;> omega

theorem natAbs_signed (negative : Bool) (m : UInt32) :
    (signed negative m).toInt.natAbs = m.toNat := by
  rw [toInt_signed]
  split <;> omega

/-- What was read is negative if its sign is and it is not zero. -/
theorem signed_neg_iff (negative : Bool) (m : UInt32) :
    decide ((signed negative m).toInt < 0) = (negative && m != 0) := by
  rw [toInt_signed]
  cases negative with
  | true =>
    by_cases hm : m = 0
    · simp [hm]
    · have hpos : 0 < m.toNat := Nat.pos_of_ne_zero fun h => hm (UInt32.toNat_inj.mp h)
      simp [hm, hpos]
  | false => simp

/-- **An immediate that was read is written with its magnitude, and with its sign unless it is
zero.** -/
theorem encode_signed (negative : Bool) (m : UInt32) :
    encode (signed negative m) = signByte (negative && m != 0) :: Word.bytes m := by
  have hmagnitude : magnitude (signed negative m) = m := by
    unfold magnitude
    rw [natAbs_signed, UInt32.ofNat_toNat]
  unfold encode
  rw [hmagnitude, signed_neg_iff]

end Immediate

/-- Two spellings with the same beginning differ at most in the sign of an operand behind it. -/
theorem Instruction.split_of_operand {i : Instruction} {src : Operand} {trailer : List UInt8}
    (head : List UInt8) (hs : src.Spelled trailer) (hliteral : i.literal? = src.literal?)
    (hencode : i.encode = head ++ src.trailer) :
    (i.literal? = none ∧ i.encode = head ++ trailer) ∨
    ∃ before negative m, i.literal? = some (Immediate.signed negative m) ∧
      head ++ trailer = before ++ Immediate.signByte negative :: Word.bytes m ∧
      i.encode = before ++ Immediate.signByte (negative && m != 0) :: Word.bytes m := by
  cases hs with
  | register reg => exact .inl ⟨hliteral, hencode⟩
  | immediate negative m =>
    refine .inr ⟨head, negative, m, hliteral, rfl, ?_⟩
    rw [hencode, ← Immediate.encode_signed]
    rfl

/-- **A spelling differs from the encoding at most in its sign byte**, and only where it spells a
literal. -/
theorem Instruction.Spelled.split {i : Instruction} {bytes : List UInt8} (h : i.Spelled bytes) :
    (i.literal? = none ∧ i.encode = bytes) ∨
    ∃ head negative m, i.literal? = some (Immediate.signed negative m) ∧
      bytes = head ++ Immediate.signByte negative :: Word.bytes m ∧
      i.encode = head ++ Immediate.signByte (negative && m != 0) :: Word.bytes m := by
  cases h with
  | @alu op src dst _ ht => exact split_of_operand [(aluOpcode op src dst).toByte] ht rfl rfl
  | @bitwise op src dst _ ht =>
    exact split_of_operand [Opcode.bitwise.toByte, (bitwiseCode op src dst).toByte] ht rfl rfl
  | @print src _ ht => exact split_of_operand [(printOpcode src).toByte] ht rfl rfl
  | increment reg => exact .inl ⟨rfl, rfl⟩
  | decrement reg => exact .inl ⟨rfl, rfl⟩
  | jump condition target => exact .inl ⟨rfl, rfl⟩
  | halt => exact .inl ⟨rfl, rfl⟩

/-! ## §2. Negative zeros. -/

namespace Image

open Instruction (encodeAll sizeAll)

variable {image : Image} {offset n : Nat} {i : Instruction}

instance decidableHolds (image : Image) :
    (offset : Nat) → (bytes : List UInt8) → Decidable (image.Holds offset bytes)
  | _, [] => .isTrue trivial
  | offset, byte :: rest =>
    have := decidableHolds image (offset + 1) rest
    inferInstanceAs (Decidable (image[offset]? = some byte ∧ image.Holds (offset + 1) rest))

/-- The byte at `k` is the sign of a negative zero: a placed instruction has a literal, whose
immediate is the last five of its bytes and begins at `k`, with the negative sign and no
magnitude. -/
def NegativeZero (image : Image) (placed : Placed) (k : Nat) : Prop :=
  placed.instruction.literal?.isSome ∧ k + Immediate.size = placed.offset + placed.size ∧
    image.Holds k [0xff, 0, 0, 0, 0]

instance (image : Image) (placed : Placed) (k : Nat) : Decidable (image.NegativeZero placed k) :=
  inferInstanceAs (Decidable (_ ∧ _ ∧ _))

/-- A negative zero stands inside its instruction, behind the first byte. -/
theorem NegativeZero.inside {placed : Placed} {k : Nat} (h : image.NegativeZero placed k)
    (hsize : placed.size = placed.instruction.size) :
    placed.offset < k ∧ k < placed.offset + placed.size := by
  obtain ⟨hliteral, hend, -⟩ := h
  obtain ⟨v, hv⟩ := Option.isSome_iff_exists.mp hliteral
  have hlt := Instruction.lt_size_of_literal? hv
  have hfive : Immediate.size = 5 := rfl
  omega

/-! ## §3. One instruction. -/

theorem getElem?_of_holds {bytes : List UInt8} :
    ∀ {offset k : Nat}, image.Holds offset bytes → k < bytes.length →
      image[offset + k]? = bytes[k]? := by
  induction bytes with
  | nil => intro offset k _ hk; exact absurd hk (Nat.not_lt_zero k)
  | cons byte rest ih =>
    intro offset k h hk
    cases k with
    | zero => exact h.1
    | succ k =>
      rw [List.getElem?_cons_succ, ← ih h.2 (Nat.lt_of_succ_lt_succ hk)]
      congr 1
      omega

/-- An image holds only one text of a length at an offset. -/
theorem holds_unique {bytes others : List UInt8} (h : image.Holds offset bytes)
    (ho : image.Holds offset others) (hlength : bytes.length = others.length) :
    bytes = others := by
  apply List.ext_getElem?
  intro k
  by_cases hk : k < bytes.length
  · rw [← getElem?_of_holds h hk, getElem?_of_holds ho (by omega)]
  · rw [List.getElem?_eq_none (by omega), List.getElem?_eq_none (by omega)]

/-- Texts that differ in one byte, byte by byte. -/
theorem getElem?_append_cons (head rest : List UInt8) (byte other : UInt8) (k : Nat) :
    (head ++ byte :: rest)[k]?
      = if k = head.length then some byte else (head ++ other :: rest)[k]? := by
  rcases Nat.lt_trichotomy k head.length with hk | rfl | hk
  · rw [if_neg (by omega), List.getElem?_append_left hk, List.getElem?_append_left hk]
  · rw [if_pos rfl, List.getElem?_append_right (Nat.le_refl _), Nat.sub_self]
    rfl
  · obtain ⟨j, rfl⟩ := Nat.exists_eq_add_of_lt hk
    have hbehind : head.length + j + 1 - head.length = j + 1 := by omega
    rw [if_neg (by omega), List.getElem?_append_right (by omega),
      List.getElem?_append_right (by omega), hbehind]
    rfl

/-- Where an immediate with this sign and magnitude ends an instruction, the byte at `k` is the sign
of a negative zero only if it is this sign, which is negative, and there is no magnitude. -/
theorem negativeZero_iff {head : List UInt8} {negative : Bool} {m : UInt32} {v : Int64} {k : Nat}
    (hliteral : i.literal? = some v) (hn : n = head.length + Immediate.size)
    (hb : image.Holds offset (head ++ Immediate.signByte negative :: Word.bytes m)) :
    image.NegativeZero ⟨offset, i, n⟩ (offset + k)
      ↔ k = head.length ∧ negative = true ∧ m = 0 := by
  have hstands := (holds_append.mp hb).2
  constructor
  · rintro ⟨-, hend, hzero⟩
    have hend : offset + k + Immediate.size = offset + n := hend
    have hk : k = head.length := by omega
    rw [hk] at hzero
    have hbytes := holds_unique hstands hzero rfl
    have hsign : Immediate.signByte negative = 0xff := (List.cons.inj hbytes).1
    have hword : Word.bytes m = Word.bytes 0 := (List.cons.inj hbytes).2
    refine ⟨hk, ?_, Word.bytes_injective hword⟩
    cases negative with
    | true => rfl
    | false => exact absurd hsign (by decide)
  · rintro ⟨rfl, rfl, rfl⟩
    refine ⟨by rw [hliteral]; rfl, ?_, hstands⟩
    show offset + head.length + Immediate.size = offset + n
    omega

/-- **An instruction that was read is written back byte by byte**, but for the sign of a negative
zero. -/
theorem getElem?_encode_of_decodeAt (h : image.decodeAt offset = .ok (i, n)) {k : Nat}
    (hk : k < n) :
    i.encode[k]? = if image.NegativeZero ⟨offset, i, n⟩ (offset + k) then some 0xfe
      else image[offset + k]? := by
  obtain ⟨hn, bytes, hs, hb⟩ := decodeAt_iff.mp h
  have hlength := hs.length_eq
  rw [getElem?_of_holds hb (by omega)]
  rcases hs.split with ⟨hnone, hencode⟩ | ⟨head, negative, m, hliteral, rfl, hencode⟩
  · -- without a literal there is one spelling
    rw [if_neg (by rintro ⟨hsome, -⟩; rw [hnone] at hsome; cases hsome), hencode]
  · have hsize : n = head.length + Immediate.size := by
      rw [hn, ← hlength, List.length_append]
      rfl
    have hzero := negativeZero_iff (k := k) hliteral hsize hb
    rw [hencode, getElem?_append_cons head _ _ (Immediate.signByte negative)]
    by_cases hsign : k = head.length
    · rw [if_pos hsign]
      by_cases hz : negative = true ∧ m = 0
      · rw [if_pos (hzero.mpr ⟨hsign, hz⟩), hz.1, hz.2]
        rfl
      · -- the sign of any other immediate stays as it is
        have hkeep : (negative && m != 0) = negative := by
          cases negative with
          | true => simpa using hz
          | false => rfl
        rw [if_neg (fun hnz => hz (hzero.mp hnz).2), hkeep,
          getElem?_append_cons head _ _ (Immediate.signByte negative), if_pos hsign]
    · rw [if_neg hsign, if_neg (fun hnz => hsign (hzero.mp hnz).1)]

/-- An instruction that was read has no literal that an immediate could not hold. -/
theorem natAbs_lt_of_decodeAt (h : image.decodeAt offset = .ok (i, n)) {v : Int64}
    (hv : i.literal? = some v) : v.toInt.natAbs < 2 ^ 32 := by
  obtain ⟨bytes, hs, -⟩ := spelled_of_decodeAt h
  rcases hs.split with ⟨hnone, -⟩ | ⟨head, negative, m, hliteral, -⟩
  · rw [hnone] at hv
    cases hv
  · obtain rfl : Immediate.signed negative m = v := Option.some.inj (hliteral.symm.trans hv)
    rw [Immediate.natAbs_signed]
    exact m.toNat_lt

/-- So reading it once more changes nothing. -/
theorem reduce_of_decodeAt (h : image.decodeAt offset = .ok (i, n)) : i.reduce = i :=
  Instruction.reduce_eq_of_literal? fun _ hv =>
    Immediate.reduce_eq_of_natAbs_lt (natAbs_lt_of_decodeAt h hv)

/-! ## §4. Instructions one behind the other. -/

namespace Tiles

variable {placed : List Placed}

/-- Tiles stand where the sizes of those before them say. -/
theorem place_eq (h : image.Tiles offset placed) :
    place offset (placed.map Placed.instruction) = placed := by
  induction h with
  | done => rfl
  | @tile offset i n rest head _ ih =>
    show ⟨offset, i, i.size⟩ :: place (offset + i.size) (rest.map Placed.instruction) = _
    rw [← size_of_decodeAt head, ih]

theorem offset_le (h : image.Tiles offset placed) : ∀ p ∈ placed, offset ≤ p.offset := by
  induction h with
  | done => intro p hp; cases hp
  | tile _ _ ih =>
    intro p hp
    rcases List.mem_cons.mp hp with rfl | hp
    · exact Nat.le_refl _
    · exact Nat.le_trans (Nat.le_add_right _ _) (ih p hp)

/-- A tile that was read is written with as many bytes, and reads as itself. -/
theorem map_reduce_instruction (h : image.Tiles offset placed) :
    (placed.map Placed.instruction).map Instruction.reduce = placed.map Placed.instruction := by
  rw [List.map_map]
  exact List.map_congr_left fun p hp => reduce_of_decodeAt (h.decodeAt p hp)

theorem sizeAll_instruction (h : image.Tiles offset placed) :
    offset + sizeAll (placed.map Placed.instruction) = image.size := by
  have hsize : (placed.map Placed.instruction).map Instruction.size = placed.map Placed.size := by
    rw [List.map_map]
    exact List.map_congr_left fun p hp => (size_of_decodeAt (h.decodeAt p hp)).symm
  unfold sizeAll
  rw [hsize]
  exact h.sum_size

end Tiles

/-- **Instructions read one behind the other are written back byte by byte**, but for the signs of
their negative zeros. -/
theorem getElem?_encodeAll_of_tiles {placed : List Placed} (h : image.Tiles offset placed) :
    ∀ k, (encodeAll (placed.map Placed.instruction))[k]?
      = if ∃ p ∈ placed, image.NegativeZero p (offset + k) then some 0xfe
        else image[offset + k]? := by
  induction h with
  | done =>
    intro k
    rw [if_neg (by rintro ⟨p, hp, -⟩; cases hp), Array.getElem?_eq_none (by omega)]
    rfl
  | @tile offset i n rest head tail ih =>
    intro k
    have hencode : i.encode.length = n := i.length_encode.trans (size_of_decodeAt head).symm
    show (i.encode ++ encodeAll (rest.map Placed.instruction))[k]? = _
    by_cases hk : k < n
    · -- a negative zero among the first bytes is that of the first instruction
      have hfirst : (∃ p ∈ ⟨offset, i, n⟩ :: rest, image.NegativeZero p (offset + k))
          ↔ image.NegativeZero ⟨offset, i, n⟩ (offset + k) := by
        constructor
        · rintro ⟨p, hp, hz⟩
          rcases List.mem_cons.mp hp with rfl | hp
          · exact hz
          · have hin := hz.inside (size_of_decodeAt (tail.decodeAt p hp))
            have hle := tail.offset_le p hp
            omega
        · intro hz
          exact ⟨_, List.mem_cons_self, hz⟩
      rw [List.getElem?_append_left (by omega), getElem?_encode_of_decodeAt head hk]
      simp only [hfirst]
    · -- and one further on is not
      obtain ⟨j, rfl⟩ : ∃ j, k = n + j := ⟨k - n, by omega⟩
      have hrest : (∃ p ∈ ⟨offset, i, n⟩ :: rest, image.NegativeZero p (offset + (n + j)))
          ↔ ∃ p ∈ rest, image.NegativeZero p (offset + n + j) := by
        rw [← Nat.add_assoc]
        constructor
        · rintro ⟨p, hp, hz⟩
          rcases List.mem_cons.mp hp with rfl | hp
          · have hin := hz.inside (size_of_decodeAt head)
            have hlt : offset + n + j < offset + n := hin.2
            omega
          · exact ⟨p, hp, hz⟩
        · rintro ⟨p, hp, hz⟩
          exact ⟨p, List.mem_cons_of_mem _ hp, hz⟩
      have hdrop : n + j - i.encode.length = j := by omega
      rw [List.getElem?_append_right (by omega), hdrop, ih j]
      simp only [hrest, Nat.add_assoc]

end Image

/-! ## §5. Writing back. -/

open Instruction (encodeAll)

/-- **What is read is written back**, but for the signs of negative zeros.  An instruction that is
read takes as many bytes as its size, at least one and all inside the image; its literal has a
magnitude below 2³²; and its encoding is the bytes that were read, where the sign of a negative
zero, if there is one, turns positive.  So an image that can be swept to its end is the encoding of
the instructions met, up to those signs, and sweeping the encoding meets them all again. -/
theorem read_instructions_encode_back :
    (∀ (image : Image) (offset n : Nat) (i : Instruction), image.decodeAt offset = .ok (i, n) →
      n = i.size ∧ 1 ≤ n ∧ offset + n ≤ image.size ∧
      (∀ v, i.literal? = some v → v.toInt.natAbs < 2 ^ 32) ∧
      i.encode.length = n ∧
      ∀ k, k < n → i.encode[k]? =
        if image.NegativeZero ⟨offset, i, n⟩ (offset + k) then some 0xfe
        else image[offset + k]?) ∧
    ∀ image : Image, image.sweep.2 = none →
      let again : Image := (encodeAll (image.sweep.1.map Image.Placed.instruction)).toArray
      again.size = image.size ∧ again.sweep = image.sweep ∧
      ∀ k : Nat, again[k]? =
        if ∃ placed ∈ image.sweep.1, image.NegativeZero placed k then some 0xfe
        else image[k]? := by
  constructor
  · intro image offset n i h
    refine ⟨Image.size_of_decodeAt h, Image.decodeAt_pos h, Image.le_size_of_decodeAt h,
      fun v hv => Image.natAbs_lt_of_decodeAt h hv, ?_,
      fun k hk => Image.getElem?_encode_of_decodeAt h hk⟩
    rw [i.length_encode, Image.size_of_decodeAt h]
  · intro image h again
    have htiles : image.Tiles 0 image.sweep.1 :=
      Image.tiles_of_complete image 0 (Nat.zero_le _) h
    have hagain : again.toList = encodeAll (image.sweep.1.map Image.Placed.instruction) := rfl
    have hsweep : again.sweep = (image.sweep.1, none) := by
      rw [Image.sweep_encodeAll hagain, htiles.map_reduce_instruction, htiles.place_eq]
    refine ⟨?_, hsweep.trans (Prod.ext rfl h.symm), ?_⟩
    · have hsize := htiles.sizeAll_instruction
      rw [List.size_toArray, Instruction.length_encodeAll]
      omega
    · intro k
      have hk := Image.getElem?_encodeAll_of_tiles htiles k
      rw [Nat.zero_add] at hk
      rw [← hk, List.getElem?_toArray]

/-- A move of a negative zero in front of a jump whose target has the same bytes: the sign of the
zero is written back as the positive one, and all else as it was. -/
theorem read_instructions_encode_back_zero :
    let image : Image := #[0x50, 0xff, 0, 0, 0, 0, 0xc0, 0x10, 0xff, 0, 0, 0]
    image.decodeAt 0 = .ok (.alu .move (.immediate 0) .r0, 6) ∧
      (Instruction.alu .move (.immediate 0) .r0).encode[1]? = some 0xfe ∧
      image.sweep
        = ([⟨0, .alu .move (.immediate 0) .r0, 6⟩, ⟨6, .jump .always 0xff000000, 6⟩], none) ∧
      Image.sweep (encodeAll (image.sweep.1.map Image.Placed.instruction)).toArray
        = image.sweep := by
  intro image
  have hread : image.decodeAt 0 = .ok (.alu .move (.immediate 0) .r0, 6) := by cbv
  have hjump : image.decodeAt 6 = .ok (.jump .always 0xff000000, 6) := by cbv
  have hsweep : image.sweep
      = ([⟨0, .alu .move (.immediate 0) .r0, 6⟩, ⟨6, .jump .always 0xff000000, 6⟩], none) :=
    Image.sweepFrom_of_tiles (.tile hread (.tile hjump .done))
  obtain ⟨hone, hall⟩ := read_instructions_encode_back
  refine ⟨hread, ?_, hsweep, (hall image (by rw [hsweep])).2.1⟩
  have hbyte := (hone image 0 6 _ hread).2.2.2.2.2 1 (by decide)
  rwa [if_pos (by decide)] at hbyte

end ByteMachine
