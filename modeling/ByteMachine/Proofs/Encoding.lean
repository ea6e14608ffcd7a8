/-
  ByteMachine.Proofs.Encoding — encoded programs, wherever they stand.

  An instruction is read where its bytes stand, whatever comes before and behind them.  So a program
  inside an image is read back instruction by instruction, each at the sum of the sizes before it.
  All that can get lost is the part of a literal for which an immediate has no room:

    • `Instruction.Fits` — the literal of the instruction has room in an immediate,
    • `Image.holds_encodeAll` — where each instruction of an embedded program stands,
    • `Instruction.map_reduce_of_encodeAll_eq` — programs with the same bytes differ at most in what
      their literals lose,
    • `encoded_programs_read_back` — so programs of literals that fit are told apart by their bytes.
-/
import ByteMachine.Proofs.Sweep

namespace ByteMachine

/-! ## §1. Literals that fit. -/

/-- The literal that an operand is, if it is one. -/
def Operand.literal? : Operand → Option Int64
  | .register _ => none
  | .immediate v => some v

namespace Instruction

/-- The literal in an instruction, if it has one. -/
def literal? : Instruction → Option Int64
  | .alu _ src _ => src.literal?
  | .bitwise _ src _ => src.literal?
  | .print src => src.literal?
  | _ => none

/-- The instruction has no literal, or one whose magnitude has at most 32 bits. -/
def Fits (i : Instruction) : Prop :=
  ∀ v, i.literal? = some v → -(2 ^ 32 - 1) ≤ v.toInt ∧ v.toInt ≤ 2 ^ 32 - 1

/-- Behind a literal's instruction byte stands a whole immediate. -/
theorem lt_size_of_literal? {i : Instruction} {v : Int64} (h : i.literal? = some v) :
    Immediate.size < i.size := by
  have hsrc : ∀ src : Operand, src.literal? = some v → src.size = Immediate.size := by
    intro src hv
    cases src with
    | register reg => cases hv
    | immediate w => rfl
  cases i with
  | alu op src dst =>
    show _ < 1 + src.size
    rw [hsrc src h]
    omega
  | bitwise op src dst =>
    show _ < 2 + src.size
    rw [hsrc src h]
    omega
  | print src =>
    show _ < 1 + src.size
    rw [hsrc src h]
    omega
  | _ => cases h

theorem reduce_eq_of_literal? {i : Instruction}
    (h : ∀ v, i.literal? = some v → Immediate.reduce v = v) : i.reduce = i := by
  have hsrc : ∀ src : Operand, (∀ v, src.literal? = some v → Immediate.reduce v = v) →
      src.reduce = src := by
    intro src hv
    cases src with
    | register reg => rfl
    | immediate v =>
      show Operand.immediate (Immediate.reduce v) = _
      rw [hv v rfl]
  cases i with
  | alu op src dst => simp only [reduce, hsrc src h]
  | bitwise op src dst => simp only [reduce, hsrc src h]
  | print src => simp only [reduce, hsrc src h]
  | _ => rfl

/-- **Nothing is lost of an instruction that fits.** -/
theorem reduce_eq_of_fits {i : Instruction} (h : i.Fits) : i.reduce = i := by
  apply reduce_eq_of_literal?
  intro v hv
  have hbounds := h v hv
  exact Immediate.reduce_eq_of_natAbs_lt (by omega)

theorem map_reduce_of_fits {is : List Instruction} (h : ∀ i ∈ is, i.Fits) :
    is.map reduce = is := by
  have hmap : is.map reduce = is.map id :=
    List.map_congr_left fun i hi => reduce_eq_of_fits (h i hi)
  rw [hmap, List.map_id]

theorem encodeAll_append (before after : List Instruction) :
    encodeAll (before ++ after) = encodeAll before ++ encodeAll after :=
  List.flatMap_append

end Instruction

/-! ## §2. Programs inside an image. -/

namespace Image

open Instruction

/-- **Where each instruction of an embedded program stands**: behind the bytes in front of the
program and the sizes of the instructions before it. -/
theorem holds_encodeAll {image : Image} {before after : List UInt8} {program : List Instruction}
    (himage : image.toList = before ++ (encodeAll program ++ after)) {j : Nat} {i : Instruction}
    (hj : program[j]? = some i) :
    image.Holds (before.length + sizeAll (program.take j)) i.encode := by
  obtain ⟨hlt, hi⟩ := List.getElem?_eq_some_iff.mp hj
  have hsplit : program = program.take j ++ i :: program.drop (j + 1) := by
    rw [← hi, ← List.drop_eq_getElem_cons hlt, List.take_append_drop]
  have hbytes : image.toList = (before ++ encodeAll (program.take j))
      ++ (i.encode ++ (encodeAll (program.drop (j + 1)) ++ after)) := by
    rw [himage]
    conv => lhs; rw [hsplit, encodeAll_append, encodeAll_cons]
    simp only [List.append_assoc]
  have hstands := holds_of_toList hbytes
  rwa [List.length_append, length_encodeAll] at hstands

/-- What is placed from an offset on are the instructions. -/
theorem map_instruction_place (is : List Instruction) :
    ∀ offset : Nat, (place offset is).map Placed.instruction = is := by
  induction is with
  | nil => intro offset; rfl
  | cons i is ih =>
    intro offset
    show i :: (place (offset + i.size) is).map Placed.instruction = _
    rw [ih]

end Image

/-- **Programs with the same bytes differ at most in what their literals lose.** -/
theorem Instruction.map_reduce_of_encodeAll_eq {is js : List Instruction}
    (h : encodeAll is = encodeAll js) : is.map reduce = js.map reduce := by
  -- the sweep of the one image meets both programs
  have hsweep : ∀ ks : List Instruction, encodeAll is = encodeAll ks →
      Image.sweep (encodeAll is).toArray = (Image.place 0 (ks.map reduce), none) :=
    fun ks hk => Image.sweep_encodeAll (by rw [hk])
  have hplaced : Image.place 0 (is.map reduce) = Image.place 0 (js.map reduce) :=
    congrArg Prod.fst ((hsweep is rfl).symm.trans (hsweep js h))
  rw [← Image.map_instruction_place (is.map reduce) 0, hplaced, Image.map_instruction_place]

/-! ## §3. Reading back. -/

open Instruction (encodeAll sizeAll Fits)

/-- **Encoded programs are read back in any context.**  Between any bytes, each instruction of a
program is read at the sum of the sizes before it, with its size, which is the number of its bytes;
its literal comes back as its sign times the low 32 bits of its magnitude, and a literal that fits
comes back as it was.  Two programs of literals that fit and with the same bytes are the same. -/
theorem encoded_programs_read_back :
    (∀ (before after : List UInt8) (program : List Instruction) (j : Nat) (i : Instruction),
      program[j]? = some i →
      let image : Image := (before ++ (encodeAll program ++ after)).toArray
      let offset := before.length + sizeAll (program.take j)
      image.decodeAt offset = .ok (i.reduce, i.size) ∧ i.encode.length = i.size ∧
        (i.Fits → image.decodeAt offset = .ok (i, i.size))) ∧
    (∀ v : Int64,
      (Immediate.reduce v).toInt = v.toInt.sign * (v.toInt.natAbs % 2 ^ 32 : Nat)) ∧
    ∀ is js : List Instruction, (∀ i ∈ is, i.Fits) → (∀ i ∈ js, i.Fits) →
      encodeAll is = encodeAll js → is = js := by
  refine ⟨?_, Immediate.toInt_reduce, ?_⟩
  · intro before after program j i hj image offset
    have hread : image.decodeAt offset = .ok (i.reduce, i.size) :=
      Image.decodeAt_encode i (Image.holds_encodeAll rfl hj)
    refine ⟨hread, i.length_encode, ?_⟩
    intro hfits
    rw [hread, Instruction.reduce_eq_of_fits hfits]
  · intro is js his hjs h
    rw [← Instruction.map_reduce_of_fits his, Instruction.map_reduce_of_encodeAll_eq h,
      Instruction.map_reduce_of_fits hjs]

/-- A jump and an addition between bytes that look like the beginning and the end of other
instructions: the addition is read behind the jump, its literal cut to its low 32 bits, and so is
the print behind it, whose literal fits. -/
theorem encoded_programs_read_back_between :
    let program : List Instruction :=
      [.jump .less 0xc1, .alu .add (.immediate (-4294967299)) .r1, .print (.immediate (-3))]
    let image : Image := ([0xc0, 0x10] ++ (encodeAll program ++ [0x50, 0xff])).toArray
    program[1]? = some (.alu .add (.immediate (-4294967299)) .r1) ∧
      image.decodeAt 8 = .ok (.alu .add (.immediate (-3)) .r1, 6) ∧
      program[2]? = some (.print (.immediate (-3))) ∧
      image.decodeAt 14 = .ok (.print (.immediate (-3)), 6) ∧
      encodeAll [.print (.immediate (-3))] ≠ encodeAll [.print (.immediate 3)] := by
  intro program image
  have hadd : program[1]? = some (.alu .add (.immediate (-4294967299)) .r1) := rfl
  have hprint : program[2]? = some (.print (.immediate (-3))) := rfl
  have hfits : ∀ v : Int64, -(2 ^ 32 - 1) ≤ v.toInt ∧ v.toInt ≤ 2 ^ 32 - 1 →
      ∀ i ∈ [Instruction.print (.immediate v)], i.Fits := by
    intro v hv i hi w hw
    obtain rfl := List.mem_singleton.mp hi
    cases hw
    exact hv
  have hneg := hfits (-3) (by decide)
  have hpos := hfits 3 (by decide)
  obtain ⟨hread, htell⟩ := encoded_programs_read_back
  refine ⟨hadd, (hread [0xc0, 0x10] [0x50, 0xff] program 1 _ hadd).1, hprint,
    (hread [0xc0, 0x10] [0x50, 0xff] program 2 _ hprint).2.2 (hneg _ List.mem_cons_self), ?_⟩
  intro heq
  exact absurd (htell.2 _ _ hneg hpos heq) (by decide)

end ByteMachine
