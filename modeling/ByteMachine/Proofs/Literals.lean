/-
  ByteMachine.Proofs.Literals — what becomes of a literal of 64 bits.

  An immediate keeps a sign and 32 bits of a magnitude, a register keeps 32 bits in two's
  complement.  The first is a number of 33 bits, so a print, which shows the immediate, and a move,
  which fills a register, agree on a literal only where what is kept fits into both:

    • `reduce_eq_iff`, `emod_reduce` — what an immediate keeps of a literal,
    • `encode_eq_iff` — which literals have the same bytes,
    • `reduce_eq_narrow_iff` — when an immediate and a register keep the same number,
    • `line_inj` — different numbers are shown by different lines,
    • `literals_survive_modulo` — so what is read, computed with and shown of a literal.
-/
import ByteMachine.Proofs.Canonical
import ByteMachine.Proofs.Lockstep
import ByteMachine.Proofs.Spelling

namespace ByteMachine

/-! ## §1. What an immediate keeps. -/

namespace Immediate

theorem natAbs_reduce (v : Int64) : (reduce v).toInt.natAbs = v.toInt.natAbs % 2 ^ 32 := by
  rw [← signed_magnitude, natAbs_signed, toNat_magnitude]

theorem natAbs_reduce_lt (v : Int64) : (reduce v).toInt.natAbs < 2 ^ 32 := by
  rw [natAbs_reduce]
  exact Nat.mod_lt _ (by decide)

/-- A literal is kept as it is exactly if its magnitude has no more than 32 bits. -/
theorem reduce_eq_iff {v : Int64} : reduce v = v ↔ v.toInt.natAbs < 2 ^ 32 := by
  constructor
  · intro h
    rw [← h]
    exact natAbs_reduce_lt v
  · exact reduce_eq_of_natAbs_lt

/-- What is lost of a literal is a multiple of 2³². -/
theorem emod_reduce (v : Int64) : (reduce v).toInt % 2 ^ 32 = v.toInt % 2 ^ 32 := by
  have h := congrArg (· % ((2 ^ 32 : Nat) : Int)) (reduce_bmod v)
  rwa [Int.bmod_emod, Int.bmod_emod] at h

/-- **The bytes of a literal are read as what an immediate keeps of it.** -/
theorem decode_encode (v : Int64) : ∃ sign magnitude negative, encode v = sign :: magnitude
    ∧ decodeSign sign = .ok negative ∧ decodeMagnitude? negative magnitude = some (reduce v) := by
  refine ⟨_, _, v.toInt < 0, rfl, decodeSign_signByte _, ?_⟩
  rw [← signed_magnitude]
  show some (signed _ (Word.ofBytes _ _ _ _)) = _
  rw [Word.ofBytes_bytes]

theorem signByte_injective {a b : Bool} (h : signByte a = signByte b) : a = b :=
  Except.ok.inj ((decodeSign_signByte a).symm.trans (h ▸ decodeSign_signByte b))

/-- **Which literals have the same bytes**: those of one sign whose magnitudes have the same low 32
bits. -/
theorem encode_eq_iff {v w : Int64} : encode v = encode w
    ↔ (v.toInt < 0 ↔ w.toInt < 0) ∧ v.toInt.natAbs % 2 ^ 32 = w.toInt.natAbs % 2 ^ 32 := by
  rw [← toNat_magnitude, ← toNat_magnitude, UInt32.toNat_inj]
  unfold encode
  constructor
  · intro h
    obtain ⟨hs, hm⟩ := List.cons.inj h
    exact ⟨decide_eq_decide.mp (signByte_injective hs), Word.bytes_injective hm⟩
  · rintro ⟨hs, hm⟩
    rw [decide_eq_decide.mpr hs, hm]

/-- **When an immediate and a register keep the same number of a literal**: if what the immediate
keeps is a number of 32 bits with its sign. -/
theorem reduce_eq_narrow_iff {v : Int64} : (reduce v).toInt = v.toInt32.toInt
    ↔ -2 ^ 31 ≤ (reduce v).toInt ∧ (reduce v).toInt ≤ 2 ^ 31 - 1 := by
  constructor
  · intro h
    rw [h]
    exact ⟨v.toInt32.le_toInt, v.toInt32.toInt_le⟩
  · rintro ⟨hlo, hhi⟩
    rw [← toInt32_reduce, Int64.toInt_toInt32]
    exact (Int.bmod_eq_of_le (by omega) (by omega)).symm

end Immediate

/-! ## §2. Lines that show a number. -/

namespace Machine

/-- **Different numbers are shown by different lines.** -/
theorem line_inj {a b : Int} : line a = line b ↔ a = b := by
  refine ⟨fun h => Text.decimal_inj.mp (String.toList_inj.mp ?_), congrArg line⟩
  have htext := congrArg String.toList h
  unfold line at htext
  rw [String.toList_append, String.toList_append] at htext
  exact List.append_cancel_right htext

/-! ## §3. Prints and moves. -/

namespace Session

variable {image : Image} {s : Session}

/-- A print to an output without a limit adds its line, and the machine goes on behind it. -/
theorem step_of_print {src : Operand} (hroom : s.output.room = none)
    (h : image.Holds s.machine.pointer.toNat (Instruction.print src).encode) :
    ∃ t, s.step image = (t, none)
      ∧ t.output.written = s.output.written ++ line (s.machine.printed src.reduce) := by
  have hstep := step_of_decodeAt (Image.decodeAt_encode _ h)
  rw [show s.machine.effect (Instruction.print src).reduce
      = .print (s.machine.printed src.reduce) from rfl,
    apply_print_of_fits (Source.fits_of_unlimited hroom _)] at hstep
  exact ⟨_, hstep, Source.written_of_unlimited hroom _⟩

/-- A literal is printed as what an immediate keeps of it. -/
theorem step_of_print_literal {v : Int64} (hroom : s.output.room = none)
    (h : image.Holds s.machine.pointer.toNat (Instruction.print (.immediate v)).encode) :
    ∃ t, s.step image = (t, none)
      ∧ t.output.written = s.output.written ++ line (Immediate.reduce v).toInt := by
  have hprinted : s.machine.printed (Operand.immediate v).reduce = (Immediate.reduce v).toInt := rfl
  rw [← hprinted]
  exact step_of_print hroom h

/-- A move of a literal fills its register with 32 bits of it, and the machine goes on behind it. -/
theorem step_of_move {v : Int64} {dst : Register} (ha : Addressable image)
    (h : image.Holds s.machine.pointer.toNat
      (Instruction.alu .move (.immediate v) dst).encode) :
    ∃ t, s.step image = (t, none) ∧ t.output = s.output
      ∧ t.machine.registers.get dst = v.toInt32
      ∧ t.machine.pointer.toNat
        = s.machine.pointer.toNat + (Instruction.alu .move (.immediate v) dst).encode.length := by
  refine ⟨_, step_of_decodeAt (Image.decodeAt_encode _ h), rfl, ?_, ?_⟩
  · show (s.machine.registers.set dst (Immediate.reduce v).toInt32).get dst = _
    rw [Registers.get_set, if_pos rfl, Immediate.toInt32_reduce]
  · have hle := Image.le_size_of_holds h (Nat.le_of_lt (Image.lt_size_of_holds h))
    rw [Instruction.length_encode] at hle ⊢
    exact Pointer.toNat_behind (Nat.lt_of_le_of_lt hle ha)

/-- A literal that is moved to a register and printed from there shows as 32 bits of it. -/
theorem steps_of_move_print {v : Int64} {dst : Register} (ha : Addressable image)
    (hroom : s.output.room = none)
    (h : image.Holds s.machine.pointer.toNat ((Instruction.alu .move (.immediate v) dst).encode
      ++ (Instruction.print (.register dst)).encode)) :
    ∃ t u, s.step image = (t, none) ∧ t.step image = (u, none)
      ∧ u.output.written = s.output.written ++ line v.toInt32.toInt := by
  obtain ⟨hmove, hprint⟩ := Image.holds_append.mp h
  obtain ⟨t, ht, houtput, hget, hpointer⟩ := step_of_move ha hmove
  rw [← hpointer] at hprint
  obtain ⟨u, hu, hwritten⟩ := step_of_print (s := t) (houtput ▸ hroom) hprint
  refine ⟨t, u, ht, hu, ?_⟩
  rw [hwritten, houtput]
  show _ ++ line (t.machine.registers.get dst).toInt = _
  rw [hget]

end Session

end Machine

/-! ## §4. Literals. -/

open Machine (Addressable Session aluEffect bitwiseResult line)

/-- **Literals survive modulo 2³², and a print and a move agree on 32 bits.**  What is read of the
bytes of a literal has a magnitude below 2³², is the literal exactly if that has one too, and
differs from it by a multiple of 2³²; so arithmetic and bitwise instructions compute with the
literal narrowed to 32 bits, whatever it is.  Two literals have the same bytes exactly if they have
one sign and magnitudes that agree in 32 bits.  A print shows what is read, and the same line as a
move to a register and a print from there exactly if that is a number of 32 bits with its sign. -/
theorem literals_survive_modulo (v : Int64) : ∃ d : Int64,
    (∃ sign magnitude negative, Immediate.encode v = sign :: magnitude ∧
      Immediate.decodeSign sign = .ok negative ∧
      Immediate.decodeMagnitude? negative magnitude = some d) ∧
    (∀ (image : Image) (position : Nat), image.Holds position (Immediate.encode v) →
      image.immediateAt position = .ok d) ∧
    d.toInt.natAbs < 2 ^ 32 ∧
    (d = v ↔ v.toInt.natAbs < 2 ^ 32) ∧
    d.toInt % 2 ^ 32 = v.toInt % 2 ^ 32 ∧
    (∀ (m : Machine) (dst : Register),
      m.value (.immediate d) = v.toInt32 ∧
      (∀ op, m.effect (.alu op (.immediate d) dst)
        = aluEffect op dst (m.registers.get dst) v.toInt32) ∧
      ∀ op, m.effect (.bitwise op (.immediate d) dst)
        = .assign dst (bitwiseResult op (m.registers.get dst) v.toInt32)) ∧
    (∀ w, Immediate.encode v = Immediate.encode w
      ↔ (v.toInt < 0 ↔ w.toInt < 0) ∧ v.toInt.natAbs % 2 ^ 32 = w.toInt.natAbs % 2 ^ 32) ∧
    (∀ (image : Image) (s : Session), s.output.room = none →
      image.Holds s.machine.pointer.toNat (Instruction.print (.immediate v)).encode →
        ∃ t, s.step image = (t, none) ∧ t.output.written = s.output.written ++ line d.toInt) ∧
    (∀ (image : Image) (s : Session) (reg : Register), Addressable image → s.output.room = none →
      image.Holds s.machine.pointer.toNat ((Instruction.alu .move (.immediate v) reg).encode ++
        (Instruction.print (.register reg)).encode) →
        ∃ t u, s.step image = (t, none) ∧ t.step image = (u, none) ∧
          u.output.written = s.output.written ++ line v.toInt32.toInt) ∧
    (line d.toInt = line v.toInt32.toInt ↔ -2 ^ 31 ≤ d.toInt ∧ d.toInt ≤ 2 ^ 31 - 1) := by
  have hvalue : ∀ m : Machine, m.value (.immediate (Immediate.reduce v)) = v.toInt32 :=
    fun _ => Immediate.toInt32_reduce v
  refine ⟨Immediate.reduce v, Immediate.decode_encode v, fun image position h => ?_,
    Immediate.natAbs_reduce_lt v, Immediate.reduce_eq_iff, Immediate.emod_reduce v,
    fun m dst => ⟨hvalue m, fun op => ?_, fun op => ?_⟩, fun w => Immediate.encode_eq_iff,
    fun image s hroom h => Session.step_of_print_literal hroom h,
    fun image s reg ha hroom h => Session.steps_of_move_print ha hroom h,
    Machine.line_inj.trans Immediate.reduce_eq_narrow_iff⟩
  · rw [Image.immediateAt_of_holds h, Immediate.signed_magnitude]
  · show aluEffect op dst _ (m.value (.immediate (Immediate.reduce v))) = _
    rw [hvalue]
  · show Machine.Effect.assign dst
      (bitwiseResult op _ (m.value (.immediate (Immediate.reduce v)))) = _
    rw [hvalue]

/-- The least literal has a magnitude of 2⁶³, so nothing is kept of it but a sign: it is read as
zero, and printed so.  And of 2³¹, which an immediate keeps and a register does not, a print shows
more than a move and a print from the register. -/
theorem literals_survive_modulo_least :
    let least : Image := #[0xbf, 0xff, 0, 0, 0, 0]
    let wide : Image := #[0xbf, 0xfe, 0x80, 0, 0, 0]
    let moved : Image := #[0x53, 0xfe, 0x80, 0, 0, 0, 0xb3]
    least.immediateAt 1 = .ok 0 ∧
      (∃ t, Session.step least {} = (t, none) ∧ t.output.written = "0\n") ∧
      (∃ t, Session.step wide {} = (t, none) ∧ t.output.written = "2147483648\n") ∧
      ∃ t u, Session.step moved {} = (t, none) ∧ Session.step moved t = (u, none) ∧
        u.output.written = "-2147483648\n" := by
  intro least wide moved
  have hleast : least.Holds 0 (Instruction.print (.immediate Int64.minValue)).encode :=
    ⟨rfl, rfl, rfl, rfl, rfl, rfl, trivial⟩
  have hwide : wide.Holds 0 (Instruction.print (.immediate 2147483648)).encode :=
    ⟨rfl, rfl, rfl, rfl, rfl, rfl, trivial⟩
  have hmoved : moved.Holds 0 ((Instruction.alu .move (.immediate 2147483648) .r3).encode
      ++ (Instruction.print (.register .r3)).encode) :=
    ⟨rfl, rfl, rfl, rfl, rfl, rfl, rfl, trivial⟩
  have hzero : least.immediateAt 1 = .ok 0 := by decide +kernel
  obtain ⟨d, -, hread, -, -, -, -, -, hprint, -⟩ := literals_survive_modulo Int64.minValue
  obtain rfl : d = 0 := Except.ok.inj ((hread least 1 hleast.2).symm.trans hzero)
  obtain ⟨e, -, hkept, -, hsame, -, -, -, hshow, hmove, -⟩ := literals_survive_modulo 2147483648
  obtain rfl : e = 2147483648 := hsame.mpr (by decide)
  obtain ⟨t, ht, htext⟩ := hprint least {} rfl hleast
  obtain ⟨u, hu, hutext⟩ := hshow wide {} rfl hwide
  obtain ⟨w, x, hw, hx, hxtext⟩ :=
    hmove moved {} .r3 (show 7 < UInt64.size by decide) rfl hmoved
  exact ⟨hzero, ⟨t, ht, htext.trans (by decide +kernel)⟩,
    ⟨u, hu, hutext.trans (by decide +kernel)⟩, w, x, hw, hx, hxtext.trans (by decide +kernel)⟩

end ByteMachine
