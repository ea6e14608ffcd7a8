/-
  ByteMachine.Proofs.ReadBack — which bytes read as which instruction.

  `Image.Holds` says that an image holds given bytes from an offset on; nothing is said of the
  bytes around them.  `Instruction.Spelled` is the grammar of instructions, stated without the
  readers of `ByteMachine.Image`: an immediate has one spelling for each pair of a sign and a
  magnitude, everything else has exactly one.

    • `decodeAt_of_opcode`, `opcode_of_decodeAt` — reading is reading an opcode, and what is behind,
    • `decodeAt_iff` — an instruction is read where, and only where, a spelling of it stands,
    • `spelled_encode` — encoding spells the instruction with its literal reduced,
    • `decodeAt_encode` — so an encoded instruction is read back, whatever stands around it.
-/
import ByteMachine.Image
import ByteMachine.Proofs.Outcome
import ByteMachine.Proofs.Reduction

namespace ByteMachine

namespace Image

/-! ## §1. Bytes at an offset. -/

/-- The image holds these bytes from an offset on. -/
def Holds (image : Image) : (offset : Nat) → List UInt8 → Prop
  | _, [] => True
  | offset, byte :: rest => image[offset]? = some byte ∧ image.Holds (offset + 1) rest

variable {image : Image}

theorem holds_append {before after : List UInt8} :
    ∀ {offset : Nat}, image.Holds offset (before ++ after)
      ↔ image.Holds offset before ∧ image.Holds (offset + before.length) after := by
  induction before with
  | nil => intro offset; simp [Holds]
  | cons byte before ih =>
    intro offset
    show image[offset]? = some byte ∧ image.Holds (offset + 1) (before ++ after) ↔ _
    rw [ih, List.length_cons, show offset + 1 + before.length = offset + (before.length + 1) from
      by omega]
    exact and_assoc.symm

/-- Bytes at an offset are seen in every image that is the same from there on. -/
theorem Holds.congr {code : Image} {bytes : List UInt8} :
    ∀ {offset : Nat}, code.Holds offset bytes → (∀ k, offset ≤ k → image[k]? = code[k]?) →
      image.Holds offset bytes := by
  induction bytes with
  | nil => intro offset _ _; exact trivial
  | cons byte bytes ih =>
    intro offset h heq
    refine ⟨?_, ih h.2 fun k hk => heq k (Nat.le_of_succ_le hk)⟩
    rw [heq offset (Nat.le_refl offset)]
    exact h.1

/-- Bytes that follow others in an image stand at the offset where those end. -/
theorem holds_of_toList :
    ∀ {bytes : List UInt8} {before after : List UInt8},
      image.toList = before ++ (bytes ++ after) → image.Holds before.length bytes := by
  intro bytes
  induction bytes with
  | nil => intro before after _; exact trivial
  | cons byte bytes ih =>
    intro before after h
    constructor
    · rw [← Array.getElem?_toList, h]
      simp
    · have hn : image.toList = (before ++ [byte]) ++ (bytes ++ after) := by
        rw [h]
        simp
      have := ih hn
      rwa [List.length_append] at this

theorem lt_size_of_holds {offset : Nat} {byte : UInt8} {rest : List UInt8}
    (h : image.Holds offset (byte :: rest)) : offset < image.size :=
  (Array.getElem?_eq_some_iff.mp h.1).1

/-- Bytes that an image holds lie inside it. -/
theorem le_size_of_holds :
    ∀ {bytes : List UInt8} {offset : Nat}, image.Holds offset bytes → offset ≤ image.size →
      offset + bytes.length ≤ image.size := by
  intro bytes
  induction bytes with
  | nil => intro offset _ hle; exact hle
  | cons byte bytes ih =>
    intro offset h _
    have := ih h.2 (lt_size_of_holds h)
    rw [List.length_cons]
    omega

end Image

/-! ## §2. The grammar of instructions. -/

/-- The bytes behind the opcode that stand for an operand. -/
inductive Operand.Spelled : Operand → List UInt8 → Prop where
  | register (reg : Register) : Spelled (.register reg) []
  | immediate (negative : Bool) (m : UInt32) :
      Spelled (.immediate (Immediate.signed negative m))
        (Immediate.signByte negative :: Word.bytes m)

/-- The bytes that stand for an instruction. -/
inductive Instruction.Spelled : Instruction → List UInt8 → Prop where
  | alu {op : AluOp} {src : Operand} {dst : Register} {trailer : List UInt8}
      (h : src.Spelled trailer) :
      Spelled (.alu op src dst) ((aluOpcode op src dst).toByte :: trailer)
  | bitwise {op : BitwiseOp} {src : Operand} {dst : Register} {trailer : List UInt8}
      (h : src.Spelled trailer) :
      Spelled (.bitwise op src dst)
        (Opcode.bitwise.toByte :: (bitwiseCode op src dst).toByte :: trailer)
  | print {src : Operand} {trailer : List UInt8} (h : src.Spelled trailer) :
      Spelled (.print src) ((printOpcode src).toByte :: trailer)
  | increment (reg : Register) : Spelled (.increment reg) (increment reg).encode
  | decrement (reg : Register) : Spelled (.decrement reg) (decrement reg).encode
  | jump (condition : JumpCondition) (target : UInt32) :
      Spelled (.jump condition target) (jump condition target).encode
  | halt : Spelled .halt halt.encode

theorem Operand.Spelled.length_eq {src : Operand} {trailer : List UInt8}
    (h : src.Spelled trailer) : trailer.length = src.size := by
  cases h <;> rfl

/-- A spelling has as many bytes as the instruction's size. -/
theorem Instruction.Spelled.length_eq {i : Instruction} {bytes : List UInt8}
    (h : i.Spelled bytes) : bytes.length = i.size := by
  cases h with
  | alu ht => rw [List.length_cons, ht.length_eq, Nat.add_comm]; rfl
  | bitwise ht => rw [List.length_cons, List.length_cons, ht.length_eq, Nat.add_comm _ 1]
                  show 1 + (_ + 1) = 2 + _
                  omega
  | print ht => rw [List.length_cons, ht.length_eq, Nat.add_comm]; rfl
  | increment reg => rfl
  | decrement reg => rfl
  | jump condition target => rfl
  | halt => rfl

theorem Operand.spelled_trailer (src : Operand) : src.reduce.Spelled src.trailer := by
  cases src with
  | register reg => exact .register reg
  | immediate v =>
    show Spelled (.immediate (Immediate.reduce v)) (Immediate.encode v)
    rw [← Immediate.signed_magnitude]
    exact .immediate _ _

/-- **Encoding spells the instruction with its literal reduced.** -/
theorem Instruction.spelled_encode (i : Instruction) : i.reduce.Spelled i.encode := by
  cases i with
  | alu op src dst =>
    have h : (Instruction.alu op src.reduce dst).Spelled _ := .alu src.spelled_trailer
    cases src <;> exact h
  | bitwise op src dst =>
    have h : (Instruction.bitwise op src.reduce dst).Spelled _ := .bitwise src.spelled_trailer
    cases src <;> exact h
  | print src =>
    have h := Spelled.print src.spelled_trailer
    cases src <;> exact h
  | increment reg => exact .increment reg
  | decrement reg => exact .decrement reg
  | jump condition target => exact .jump condition target
  | halt => exact .halt

/-! ## §3. A spelling is read. -/

namespace Image

variable {image : Image} {position : Nat}

theorem byteAt_of_getElem? {byte : UInt8} (h : image[position]? = some byte) :
    image.byteAt position = .ok byte := by
  unfold byteAt
  rw [h]

theorem wordAt_of_holds {w : UInt32} (h : image.Holds position (Word.bytes w)) :
    image.wordAt position = .ok w := by
  obtain ⟨ha, hb, hc, hd, -⟩ := h
  unfold wordAt
  rw [byteAt_of_getElem? ha, byteAt_of_getElem? hb, byteAt_of_getElem? hc, byteAt_of_getElem? hd]
  show Except.ok (Word.ofBytes _ _ _ _) = Except.ok w
  rw [Word.ofBytes_bytes]

theorem immediateAt_of_holds {negative : Bool} {m : UInt32}
    (h : image.Holds position (Immediate.signByte negative :: Word.bytes m)) :
    image.immediateAt position = .ok (Immediate.signed negative m) := by
  unfold immediateAt
  rw [byteAt_of_getElem? h.1, wordAt_of_holds h.2]
  simp only [bind, Except.bind, Immediate.decodeSign_signByte]
  rfl

theorem jumpAt_of_holds {condition : JumpCondition} {target : UInt32}
    (h : image.Holds position (Instruction.jump condition target).encode) :
    image.jumpAt position = .ok (.jump condition target, Instruction.jumpSize) := by
  obtain ⟨-, hc, ht⟩ := h
  unfold jumpAt
  rw [byteAt_of_getElem? hc, wordAt_of_holds ht]
  simp only [bind, Except.bind, JumpCondition.ofCode_code]
  rfl

theorem bitwiseAt_of_holds {op : BitwiseOp} {src : Operand} {dst : Register}
    {prefixByte : UInt8} {trailer : List UInt8} (hs : src.Spelled trailer)
    (h : image.Holds position
      (prefixByte :: (Instruction.bitwiseCode op src dst).toByte :: trailer)) :
    image.bitwiseAt position
      = .ok (.bitwise op src dst, (Instruction.bitwise op src dst).size) := by
  obtain ⟨-, hc, ht⟩ := h
  unfold bitwiseAt
  rw [byteAt_of_getElem? hc]
  simp only [bind, Except.bind, BitwiseCode.ofByte?_toByte]
  cases hs with
  | register reg => rfl
  | immediate negative m =>
    show (image.immediateAt (position + 2) >>= fun _ => _) = _
    rw [immediateAt_of_holds ht]
    rfl

/-- What is read behind an opcode. -/
def behindOpcode (image : Image) (offset : Nat) :
    Opcode → Except DecodeError (Instruction × Nat)
  | .aluRegister op src dst => .ok (.alu op (.register src) dst, 1)
  | .aluImmediate op dst =>
    (image.immediateAt (offset + 1)).map fun v => (.alu op (.immediate v) dst, 6)
  | .increment reg => .ok (.increment reg, 1)
  | .decrement reg => .ok (.decrement reg, 1)
  | .printRegister reg => .ok (.print (.register reg), 1)
  | .printImmediate => (image.immediateAt (offset + 1)).map fun v => (.print (.immediate v), 6)
  | .jump => image.jumpAt offset
  | .bitwise => image.bitwiseAt offset
  | .halt => .ok (.halt, 1)

/-- Where the first byte is an opcode, the rest is read behind it. -/
theorem decodeAt_of_opcode {opcode : Opcode} (h : image[position]? = some opcode.toByte) :
    image.decodeAt position = image.behindOpcode position opcode := by
  unfold decodeAt
  rw [byteAt_of_getElem? h]
  simp only [bind, Except.bind, Opcode.ofByte?_toByte]
  cases opcode with
  | aluImmediate op dst =>
    show _ = (image.immediateAt (position + 1)).map _
    cases image.immediateAt (position + 1) <;> rfl
  | printImmediate =>
    show _ = (image.immediateAt (position + 1)).map _
    cases image.immediateAt (position + 1) <;> rfl
  | _ => rfl

/-- An instruction is read where a spelling of it stands. -/
theorem decodeAt_of_spelled {i : Instruction} {bytes : List UInt8} (hs : i.Spelled bytes)
    (h : image.Holds position bytes) : image.decodeAt position = .ok (i, i.size) := by
  cases hs with
  | alu ht =>
    rw [decodeAt_of_opcode h.1]
    cases ht with
    | register reg => rfl
    | immediate negative m =>
      show (image.immediateAt (position + 1)).map _ = _
      rw [immediateAt_of_holds h.2]
      rfl
  | bitwise ht =>
    rw [decodeAt_of_opcode h.1]
    exact bitwiseAt_of_holds ht h
  | print ht =>
    rw [decodeAt_of_opcode h.1]
    cases ht with
    | register reg => rfl
    | immediate negative m =>
      show (image.immediateAt (position + 1)).map _ = _
      rw [immediateAt_of_holds h.2]
      rfl
  | increment reg => exact decodeAt_of_opcode h.1
  | decrement reg => exact decodeAt_of_opcode h.1
  | jump condition target =>
    rw [decodeAt_of_opcode h.1]
    exact jumpAt_of_holds h
  | halt => exact decodeAt_of_opcode h.1

end Image

/-! ## §4. What is read is spelled. -/

/-- A number that a byte holds modulo 256 is cut to that byte. -/
theorem ofNat_eq_byte {n : Nat} (byte : UInt8) (h : n % 256 = byte.toNat) :
    UInt8.ofNat n = byte := by
  apply UInt8.toNat_inj.mp
  rw [UInt8.toNat_ofNat']
  exact h

theorem Word.bytes_ofBytes (a b c d : UInt8) : bytes (ofBytes a b c d) = [a, b, c, d] := by
  have ha := a.toNat_lt
  have hb := b.toNat_lt
  have hc := c.toNat_lt
  have hd := d.toNat_lt
  have hw : (ofBytes a b c d).toNat
      = a.toNat * 0x1000000 + b.toNat * 0x10000 + c.toNat * 0x100 + d.toNat := by
    unfold ofBytes
    rw [UInt32.toNat_ofNat']
    omega
  unfold bytes
  rw [hw, ofNat_eq_byte a (by omega), ofNat_eq_byte b (by omega), ofNat_eq_byte c (by omega),
    ofNat_eq_byte d (by omega)]

/-- A byte that says something is the byte that says so. -/
theorem Opcode.toByte_of_ofByte? {byte : UInt8} {opcode : Opcode}
    (h : ofByte? byte = some opcode) : opcode.toByte = byte := by
  -- the table is searched from the byte, so the bytes are gone through, not the opcodes
  have hall : ∀ n : Fin 256, (ofByte? (.ofNat n)).all (·.toByte == .ofNat n) = true := by
    decide +kernel
  have hb := hall ⟨byte.toNat, byte.toNat_lt⟩
  simpa [h] using hb

theorem BitwiseCode.toByte_of_ofByte? {byte : UInt8} {code : BitwiseCode}
    (h : ofByte? byte = some code) : code.toByte = byte := by
  have hall : ∀ n : Fin 256, (ofByte? (.ofNat n)).all (·.toByte == .ofNat n) = true := by
    decide +kernel
  have hb := hall ⟨byte.toNat, byte.toNat_lt⟩
  simpa [h] using hb

theorem JumpCondition.code_of_ofCode {byte : UInt8} {condition : JumpCondition}
    (h : ofCode byte = .ok condition) : condition.code = byte := by
  unfold ofCode at h
  split at h
  · cases h
    rename_i hf
    have hb := List.find?_some hf
    exact eq_of_beq hb
  · cases h

theorem Immediate.signByte_of_decodeSign {byte : UInt8} {negative : Bool}
    (h : decodeSign byte = .ok negative) : signByte negative = byte := by
  unfold decodeSign at h
  split at h
  · cases h
    exact Eq.symm ‹_›
  split at h
  · cases h
    exact Eq.symm ‹_›
  · cases h

namespace Image

variable {image : Image} {position : Nat}

theorem getElem?_of_byteAt {byte : UInt8} (h : image.byteAt position = .ok byte) :
    image[position]? = some byte := by
  unfold byteAt at h
  split at h
  · cases h
    assumption
  · cases h

/-- The bytes from which a word was read. -/
theorem holds_of_wordAt {w : UInt32} (h : image.wordAt position = .ok w) :
    image.Holds position (Word.bytes w) := by
  unfold wordAt at h
  obtain ⟨a, ha, h⟩ := ok_of_bind h
  obtain ⟨b, hb, h⟩ := ok_of_bind h
  obtain ⟨c, hc, h⟩ := ok_of_bind h
  obtain ⟨d, hd, h⟩ := ok_of_bind h
  cases h
  rw [Word.bytes_ofBytes]
  exact ⟨getElem?_of_byteAt ha, getElem?_of_byteAt hb, getElem?_of_byteAt hc,
    getElem?_of_byteAt hd, trivial⟩

/-- The bytes from which an immediate was read. -/
theorem holds_of_immediateAt {v : Int64} (h : image.immediateAt position = .ok v) :
    ∃ trailer, (Operand.immediate v).Spelled trailer ∧ image.Holds position trailer := by
  unfold immediateAt at h
  obtain ⟨sign, hs, h⟩ := ok_of_bind h
  split at h
  · rename_i negative hn
    obtain ⟨m, hm, h⟩ := ok_of_bind h
    cases h
    refine ⟨_, .immediate negative m, ?_, holds_of_wordAt hm⟩
    rw [Immediate.signByte_of_decodeSign hn]
    exact getElem?_of_byteAt hs
  · cases h

theorem spelled_of_jumpAt {i : Instruction} {n : Nat}
    (ho : image[position]? = some Opcode.jump.toByte) (h : image.jumpAt position = .ok (i, n)) :
    ∃ bytes, i.Spelled bytes ∧ image.Holds position bytes := by
  unfold jumpAt at h
  obtain ⟨code, hc, h⟩ := ok_of_bind h
  split at h
  · rename_i condition hn
    obtain ⟨target, ht, h⟩ := ok_of_bind h
    cases h
    refine ⟨_, .jump condition target, ho, ?_, holds_of_wordAt ht⟩
    rw [JumpCondition.code_of_ofCode hn]
    exact getElem?_of_byteAt hc
  · cases h

theorem spelled_of_bitwiseAt {i : Instruction} {n : Nat}
    (ho : image[position]? = some Opcode.bitwise.toByte)
    (h : image.bitwiseAt position = .ok (i, n)) :
    ∃ bytes, i.Spelled bytes ∧ image.Holds position bytes := by
  unfold bitwiseAt at h
  obtain ⟨code, hc, h⟩ := ok_of_bind h
  have hb := getElem?_of_byteAt hc
  split at h
  · rename_i op src dst hn
    cases h
    rw [← BitwiseCode.toByte_of_ofByte? hn] at hb
    exact ⟨_, .bitwise (.register src), ho, hb, trivial⟩
  · rename_i op dst hn
    obtain ⟨v, hv, h⟩ := ok_of_bind h
    cases h
    rw [← BitwiseCode.toByte_of_ofByte? hn] at hb
    obtain ⟨trailer, hs, ht⟩ := holds_of_immediateAt hv
    exact ⟨_, .bitwise hs, ho, hb, ht⟩
  · cases h

/-- What is read begins with an opcode. -/
theorem opcode_of_decodeAt {i : Instruction} {n : Nat}
    (h : image.decodeAt position = .ok (i, n)) :
    ∃ opcode : Opcode, image[position]? = some opcode.toByte
      ∧ image.behindOpcode position opcode = .ok (i, n) := by
  have hd := h
  unfold decodeAt at h
  obtain ⟨byte, hb, h⟩ := ok_of_bind h
  have ho := getElem?_of_byteAt hb
  cases hop : Opcode.ofByte? byte with
  | none =>
    rw [hop] at h
    cases h
  | some opcode =>
    rw [← Opcode.toByte_of_ofByte? hop] at ho
    exact ⟨opcode, ho, decodeAt_of_opcode ho ▸ hd⟩

/-- An instruction is read only where a spelling of it stands. -/
theorem spelled_of_decodeAt {i : Instruction} {n : Nat}
    (h : image.decodeAt position = .ok (i, n)) :
    ∃ bytes, i.Spelled bytes ∧ image.Holds position bytes := by
  obtain ⟨opcode, ho, h⟩ := opcode_of_decodeAt h
  cases opcode with
  | aluRegister op src dst =>
    cases h
    exact ⟨_, .alu (.register src), ho, trivial⟩
  | aluImmediate op dst =>
    obtain ⟨v, hv, he⟩ := ok_of_map h
    cases he
    obtain ⟨trailer, hs, ht⟩ := holds_of_immediateAt hv
    exact ⟨_, .alu hs, ho, ht⟩
  | increment reg =>
    cases h
    exact ⟨_, .increment reg, ho, trivial⟩
  | decrement reg =>
    cases h
    exact ⟨_, .decrement reg, ho, trivial⟩
  | printRegister reg =>
    cases h
    exact ⟨_, .print (.register reg), ho, trivial⟩
  | printImmediate =>
    obtain ⟨v, hv, he⟩ := ok_of_map h
    cases he
    obtain ⟨trailer, hs, ht⟩ := holds_of_immediateAt hv
    exact ⟨_, .print hs, ho, ht⟩
  | jump => exact spelled_of_jumpAt ho h
  | bitwise => exact spelled_of_bitwiseAt ho h
  | halt =>
    cases h
    exact ⟨_, .halt, ho, trivial⟩

/-! ## §5. Reading, in full. -/

/-- **An instruction is read exactly where a spelling of it stands.** -/
theorem decodeAt_iff {i : Instruction} {n : Nat} :
    image.decodeAt position = .ok (i, n)
      ↔ n = i.size ∧ ∃ bytes, i.Spelled bytes ∧ image.Holds position bytes := by
  constructor
  · intro h
    exact ⟨size_of_decodeAt h, spelled_of_decodeAt h⟩
  · rintro ⟨rfl, bytes, hs, h⟩
    exact decodeAt_of_spelled hs h

/-- **An encoded instruction is read back**, its literal reduced. -/
theorem decodeAt_encode (i : Instruction) (h : image.Holds position i.encode) :
    image.decodeAt position = .ok (i.reduce, i.size) := by
  rw [← Instruction.size_reduce i]
  exact decodeAt_of_spelled i.spelled_encode h

/-- What is read lies inside the image. -/
theorem le_size_of_decodeAt {i : Instruction} {n : Nat}
    (h : image.decodeAt position = .ok (i, n)) : position + n ≤ image.size := by
  obtain ⟨hn, bytes, hs, hb⟩ := decodeAt_iff.mp h
  -- no instruction is spelled with no bytes at all
  have hlt : position < image.size := by
    cases hs <;> exact lt_size_of_holds hb
  rw [hn, ← hs.length_eq]
  exact le_size_of_holds hb (Nat.le_of_lt hlt)

end Image

end ByteMachine
