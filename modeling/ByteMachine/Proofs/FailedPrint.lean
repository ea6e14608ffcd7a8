/-
  ByteMachine.Proofs.FailedPrint — a print that fails, and the byte it is resumed on.

  A print that fails has moved the pointer to its own last byte, and the machine goes on from there
  when it is called again.  A print of a register is a single byte, so it is tried again and fails
  again.  The last byte of a print of a literal is the low byte of the literal; it is executed as an
  opcode if it is one:

    • `FailedPrint.left` — what a failed print leaves, in a machine that is called again and again,
    • `Inert` — no call changes a register or a mark any more,
    • `resumed` — an image in which a given literal is printed, and what its low byte opens comes
      to an increment,
    • `failed_prints_are_final_iff` — so a failed print is the end exactly for the literals
      whose low byte is no opcode, a `halt`, or a print of a register.
-/
import ByteMachine.Proofs.Standstill

namespace ByteMachine

/-! ## §1. The low byte of a literal. -/

namespace Immediate

/-- The low eight bits of a literal's magnitude, which its encoding ends with. -/
def lowByte (v : Int64) : UInt8 := .ofNat v.toInt.natAbs

/-- An encoding keeps 32 bits of the magnitude, and the low eight are among them. -/
theorem lowByte_eq (v : Int64) : .ofNat (magnitude v).toNat = lowByte v := by
  apply UInt8.toNat_inj.mp
  unfold lowByte
  rw [toNat_magnitude, UInt8.toNat_ofNat', UInt8.toNat_ofNat']
  omega

/-- Reading a literal keeps its low byte. -/
theorem lowByte_reduce (v : Int64) : lowByte (reduce v) = lowByte v := by
  unfold lowByte
  rw [← signed_magnitude, natAbs_signed]
  exact lowByte_eq v

end Immediate

namespace Machine

/-! ## §2. Outputs without room. -/

namespace Output

variable {o : Output} {text : String}

/-- A text that is cut takes the room that was left. -/
theorem room_of_cut (h : ¬ o.fits text.length = true) : (o.write text).room = some 0 := by
  cases hr : o.room with
  | none =>
    -- an output without a limit takes everything
    simp only [fits, accepts, hr, Nat.le_refl, decide_true, not_true_eq_false] at h
  | some room =>
    simp only [fits, accepts, hr, decide_eq_true_eq] at h
    show o.room.map (· - text.length) = _
    rw [hr, Option.map_some, Nat.sub_eq_zero_of_le (by omega)]

/-- Where there is no room, nothing is written. -/
theorem write_of_full (h : o.room = some 0) : o.write text = o := by
  have hroom : (o.write text).room = o.room := by
    show o.room.map (· - text.length) = _
    rw [h, Option.map_some, Nat.zero_sub]
  have hwritten : (o.write text).written = o.written := by
    apply String.toList_inj.mp
    rw [toList_write, accepts, h]
    simp
  calc o.write text = ⟨(o.write text).room, (o.write text).written⟩ := rfl
    _ = ⟨o.room, o.written⟩ := by rw [hroom, hwritten]
    _ = o := rfl

/-- No line fits where there is no room: it has an end at least. -/
theorem not_fits_of_full (h : o.room = some 0) (v : Int) : ¬ o.fits (line v).length = true := by
  have hline : (line v).length = (Text.decimal v).length + 1 := String.length_append _ _
  simp only [fits, accepts, h, decide_eq_true_eq]
  omega

end Output

/-! ## §3. Prints that fail. -/

namespace Session

variable {image : Image} {s t : Session} {reg : Register} {v : Int64} {n : Nat}

/-- A step of a machine with a limited output has failed to print, whatever it was called for
before. -/
structure FailedPrint (image : Image) (s t : Session) : Prop where
  /-- The image fits into memory. -/
  addressable : Addressable image
  /-- A new machine was called, and its output was limited. -/
  reached : ∃ output : Output, output.room.isSome = true ∧ Leads image { output } s
  /-- Then a line was not taken in full. -/
  fails : s.step image = (t, some .output)

/-- **What a failed print leaves.**  It has moved the pointer to its own last byte, and there is no
room in the output. -/
theorem FailedPrint.left (h : FailedPrint image s t) :
    t.machine.halted = false ∧ t.machine = s.machine.goto t.machine.pointer ∧
      t.output.room = some 0 ∧
      ∃ src n, image.decodeAt s.machine.pointer.toNat = .ok (.print src, n) ∧
        t.machine.pointer = s.machine.pointer.lastByte n ∧
        t.machine.pointer.toNat = s.machine.pointer.toNat + n - 1 := by
  obtain ⟨output, -, hlead⟩ := h.reached
  refine ⟨not_halted_of_step (onHalt_of_leads hlead) h.fails, ?_⟩
  cases failsTo_of_step h.fails with
  | @print src n read cut =>
    have hinside := Nat.lt_of_le_of_lt (Image.le_size_of_decodeAt read) h.addressable
    exact ⟨rfl, Output.room_of_cut cut, src, n, read, rfl,
      Pointer.toNat_lastByte (Image.decodeAt_pos read) hinside⟩

/-- A machine on a print of a register fails again and again if there is no room. -/
theorem standsStill_of_printRegister (hm : s.machine.halted = false)
    (hroom : s.output.room = some 0)
    (h : image[s.machine.pointer.toNat]? = some (Opcode.printRegister reg).toByte) :
    StandsStill image s (Call.anyStep .output) := by
  have hd : image.decodeAt s.machine.pointer.toNat = .ok (.print (.register reg), 1) :=
    Image.decodeAt_of_opcode h
  have hstep : s.step image = (s, some .output) := by
    rw [step_of_decodeAt hd, Pointer.lastByte_one]
    show s.apply _ (.print _) = _
    rw [apply_print_of_not_fits (Output.not_fits_of_full hroom _), Output.write_of_full hroom]
    rfl
  exact standsStill_of_fault (running_iff.mpr ⟨hm, (Array.getElem?_eq_some_iff.mp h).1⟩) hstep

/-- The only byte of a print of a register is its last, so the print has not moved the pointer. -/
theorem FailedPrint.standsStill (h : FailedPrint image s t)
    (hd : image.decodeAt s.machine.pointer.toNat = .ok (.print (.register reg), n)) :
    StandsStill image t (Call.anyStep .output) := by
  obtain ⟨hm, -, hroom, src, m, hread, hp, -⟩ := h.left
  cases hd.symm.trans hread
  have hn : n = 1 := Image.size_of_decodeAt hd
  have hbyte : image[t.machine.pointer.toNat]? = some (Opcode.printRegister reg).toByte := by
    obtain ⟨bytes, hspelled, hholds⟩ := Image.spelled_of_decodeAt hd
    rw [hp, hn, Pointer.lastByte_one]
    cases hspelled with
    | print htrailer => exact hholds.1
  exact standsStill_of_printRegister hm hroom hbyte

/-- **A failed print of a literal stands on the low byte of the literal.** -/
theorem FailedPrint.lowByte (h : FailedPrint image s t)
    (hd : image.decodeAt s.machine.pointer.toNat = .ok (.print (.immediate v), n)) :
    image[t.machine.pointer.toNat]? = some (Immediate.lowByte v) := by
  obtain ⟨-, -, -, src, m, hread, -, hto⟩ := h.left
  cases hd.symm.trans hread
  rw [hto]
  exact Image.getElem?_of_literal hd rfl

/-! ## §4. Machines that change no register. -/

/-- From here on no call changes a register or a mark. -/
def Inert (image : Image) (s : Session) : Prop :=
  ∀ t, Leads image s t →
    t.machine.registers = s.machine.registers ∧ t.machine.flags = s.machine.flags

theorem StandsStill.inert {answer : Call → Option Fault} (h : StandsStill image s answer) :
    Inert image s := by
  intro t ht
  rw [h.1 t ht]
  exact ⟨rfl, rfl⟩

/-- A machine on a `halt` halts, and no more. -/
theorem inert_of_haltByte (h : image[s.machine.pointer.toNat]? = some haltByte) :
    Inert image s := by
  intro t ht
  -- the pointer belongs to what is kept: the next step is that of the same `halt`
  have hkeep := ht.keeps (P := fun u => u.machine.pointer = s.machine.pointer
    ∧ u.machine.registers = s.machine.registers ∧ u.machine.flags = s.machine.flags) ?_
    ⟨rfl, rfl, rfl⟩
  · exact hkeep.2
  · rintro u ⟨hp, hkept⟩
    rw [step_of_haltByte (hp.symm ▸ h)]
    exact ⟨hp, hkept⟩

/-- An increment is executed wherever the pointer stands. -/
theorem step_of_increment
    (h : image[s.machine.pointer.toNat]? = some (Opcode.increment reg).toByte) :
    s.step image =
      ({ machine := (s.machine.setRegister reg (s.machine.registers.get reg + 1)).goto
          (s.machine.pointer + 1)
         output := s.output }, none) := by
  have hd : image.decodeAt s.machine.pointer.toNat = .ok (.increment reg, 1) :=
    Image.decodeAt_of_opcode h
  rw [step_of_decodeAt hd, Pointer.lastByte_one]
  rfl

/-- A machine that comes to an increment is not inert. -/
theorem not_inert_of_increment (hlead : Leads image s t)
    (h : image[t.machine.pointer.toNat]? = some (Opcode.increment reg).toByte) :
    ¬ Inert image s := by
  intro hinert
  have hbehind := (hinert _ hlead.step).1
  rw [← (hinert t hlead).1, step_of_increment h] at hbehind
  have hget : (t.machine.registers.set reg (t.machine.registers.get reg + 1)).get reg
      = t.machine.registers.get reg := congrArg (Registers.get · reg) hbehind
  rw [Registers.get_set, if_pos rfl] at hget
  have hzero : t.machine.registers.get reg + 1 = t.machine.registers.get reg + 0 := by
    rw [hget, Int32.add_zero]
  exact absurd ((Int32.add_right_inj _).mp hzero) (by decide)

end Session

/-! ## §5. An image in which the low byte is executed. -/

/-- An instruction that begins with the opcode.  Its literal, if it has one, is no zero to divide
by, and the last byte of a print of it increments a register. -/
def sample : Opcode → Instruction
  | .aluRegister op src dst => .alu op (.register src) dst
  | .aluImmediate op dst => .alu op (.immediate 1) dst
  | .increment reg => .increment reg
  | .decrement reg => .decrement reg
  | .printRegister reg => .print (.register reg)
  | .printImmediate => .print (.immediate 0x90)
  | .jump => .jump .always 0
  | .bitwise => .bitwise .or (.register .r0) .r0
  | .halt => .halt

theorem encode_sample (opcode : Opcode) :
    (sample opcode).encode = opcode.toByte :: (sample opcode).encode.tail := by
  cases opcode <;> rfl

theorem reduce_sample (opcode : Opcode) : (sample opcode).reduce = sample opcode := by
  cases opcode <;> rfl

theorem size_sample_le (opcode : Opcode) : (sample opcode).size ≤ 7 := by
  cases opcode <;> exact Nat.le_of_ble_eq_true rfl

/-- The increments of all registers. -/
def increments : List UInt8 := Register.all.map fun reg => (Opcode.increment reg).toByte

/-- Increments of all registers, a print of the literal, and what completes the sample that the last
byte of the print begins; behind it an increment. -/
def resumed (v : Int64) (opcode : Opcode) : Image :=
  (increments ++ ((Instruction.print (.immediate v)).encode ++
    ((sample opcode).encode.tail ++ [(Opcode.increment .r0).toByte]))).toArray

variable {v : Int64} {opcode : Opcode}

theorem holds_increments (v : Int64) (opcode : Opcode) :
    (resumed v opcode).Holds 0 increments :=
  have h : (resumed v opcode).toList = [] ++ (increments ++ _) := rfl
  Image.holds_of_toList h

theorem holds_print (v : Int64) (opcode : Opcode) :
    (resumed v opcode).Holds 4 (Instruction.print (.immediate v)).encode :=
  have h : (resumed v opcode).toList = increments ++ (_ ++ _) := rfl
  Image.holds_of_toList h

/-- The last byte of the print is the first of the sample. -/
theorem holds_sample (h : opcode.toByte = Immediate.lowByte v) :
    (resumed v opcode).Holds 9 ((sample opcode).encode ++ [(Opcode.increment .r0).toByte]) := by
  rw [encode_sample, h, ← Immediate.lowByte_eq]
  have hsplit : (resumed v opcode).toList
      = (increments ++ (Instruction.print (.immediate v)).encode.take 5) ++
        ((.ofNat (Immediate.magnitude v).toNat :: (sample opcode).encode.tail ++
          [(Opcode.increment .r0).toByte]) ++ []) := by
    rw [List.append_nil]
    rfl
  exact Image.holds_of_toList hsplit

theorem size_resumed (v : Int64) (opcode : Opcode) :
    (resumed v opcode).size = 10 + (sample opcode).size := by
  -- the print and the sample have one byte in common
  have htail : (sample opcode).encode.tail.length = (sample opcode).size - 1 := by
    rw [List.length_tail, Instruction.length_encode]
  have hpos := Instruction.size_pos (sample opcode)
  have hlength : (resumed v opcode).size
      = ((sample opcode).encode.tail ++ [(Opcode.increment .r0).toByte]).length + 10 := rfl
  rw [hlength, List.length_append, htail]
  show (sample opcode).size - 1 + 1 + 10 = _
  omega

namespace Session

/-- A new session without room for a line. -/
def full : Session := { output := { room := some 0 } }

/-- The session in front of the print. -/
def beforePrint : Session := { full with machine := { registers := ⟨1, 1, 1, 1⟩, pointer := 4 } }

/-- The session that the print leaves. -/
def onLowByte : Session := { beforePrint with machine := beforePrint.machine.goto 9 }

theorem Leads.increment {image : Image} {s t : Session} {reg : Register} (h : Leads image s t)
    (hbyte : image[t.machine.pointer.toNat]? = some (Opcode.increment reg).toByte) :
    Leads image s ⟨(t.machine.setRegister reg (t.machine.registers.get reg + 1)).goto
      (t.machine.pointer + 1), t.output⟩ := by
  have hstep := h.step
  rwa [step_of_increment hbyte] at hstep

theorem leads_beforePrint (v : Int64) (opcode : Opcode) :
    Leads (resumed v opcode) full beforePrint := by
  obtain ⟨h0, h1, h2, h3, -⟩ := holds_increments v opcode
  have hstart : Leads (resumed v opcode) full full := .start
  have hr0 : Leads (resumed v opcode) full
      { full with machine := { registers := ⟨1, 0, 0, 0⟩, pointer := 1 } } := hstart.increment h0
  have hr1 : Leads (resumed v opcode) full
      { full with machine := { registers := ⟨1, 1, 0, 0⟩, pointer := 2 } } := hr0.increment h1
  have hr2 : Leads (resumed v opcode) full
      { full with machine := { registers := ⟨1, 1, 1, 0⟩, pointer := 3 } } := hr1.increment h2
  exact hr2.increment h3

theorem step_beforePrint (v : Int64) (opcode : Opcode) :
    beforePrint.step (resumed v opcode) = (onLowByte, some .output) := by
  have hd : (resumed v opcode).decodeAt beforePrint.machine.pointer.toNat
      = .ok ((Instruction.print (.immediate v)).reduce, 6) :=
    Image.decodeAt_encode _ (holds_print v opcode)
  rw [step_of_decodeAt hd]
  show beforePrint.apply _ (.print _) = _
  rw [apply_print_of_not_fits (Output.not_fits_of_full rfl _), Output.write_of_full rfl]
  rfl

theorem failedPrint_resumed (v : Int64) (opcode : Opcode) :
    FailedPrint (resumed v opcode) beforePrint onLowByte where
  addressable := by
    have hle := size_sample_le opcode
    show (resumed v opcode).size < 2 ^ 64
    rw [size_resumed]
    omega
  reached := ⟨_, rfl, leads_beforePrint v opcode⟩
  fails := step_beforePrint v opcode

theorem decodeAt_sample (hopcode : opcode.toByte = Immediate.lowByte v) :
    (resumed v opcode).decodeAt onLowByte.machine.pointer.toNat
      = .ok (sample opcode, (sample opcode).size) := by
  have h := Image.decodeAt_encode _ (Image.holds_append.mp (holds_sample hopcode)).1
  rwa [reduce_sample] at h

/-- Behind the sample stands an increment. -/
theorem increment_behind (hopcode : opcode.toByte = Immediate.lowByte v) :
    (resumed v opcode)[((onLowByte.machine.pointer.lastByte (sample opcode).size).forward 1).toNat]?
      = some (Opcode.increment .r0).toByte := by
  have hle := size_sample_le opcode
  have hinside : onLowByte.machine.pointer.toNat + (sample opcode).size < UInt64.size := by
    show 9 + (sample opcode).size < 2 ^ 64
    omega
  rw [Pointer.toNat_behind hinside, ← Instruction.length_encode]
  exact (Image.holds_append.mp (holds_sample hopcode)).2.1

/-- **Unless the low byte opens a `halt` or a print of a register, it leads to an increment.** -/
theorem increment_of_step (hopcode : opcode.toByte = Immediate.lowByte v)
    (hhalt : opcode ≠ .halt) (hprint : ∀ reg, opcode ≠ .printRegister reg) :
    (resumed v opcode)[(onLowByte.step (resumed v opcode)).1.machine.pointer.toNat]?
      = some (Opcode.increment .r0).toByte := by
  have hbehind := increment_behind hopcode
  have hasks := asks_effect onLowByte.machine (sample opcode)
  rw [step_of_decodeAt (decodeAt_sample hopcode)]
  -- the cases are the effects that a sample may ask for; in most the pointer moves behind it
  generalize onLowByte.machine.effect (sample opcode) = e at hasks ⊢
  generalize hi : sample opcode = i at hasks hbehind ⊢
  cases hasks with
  | assign i reg v => exact hbehind
  | mark i result => exact hbehind
  | pass i => exact hbehind
  | print src =>
    cases opcode with
    | printRegister reg => exact absurd rfl (hprint reg)
    | printImmediate =>
      -- the line of the sample does not fit either, and its own low byte is the increment
      cases hi
      rw [apply_print_of_not_fits (Output.not_fits_of_full rfl _)]
      obtain ⟨-, -, -, -, -, hlast, -⟩ := holds_sample hopcode
      exact hlast
    | _ => cases hi
  | jump target htaken =>
    cases opcode with
    | jump =>
      cases hi
      exact (holds_increments v .jump).1
    | _ => cases hi
  | halt =>
    cases opcode with
    | halt => exact absurd rfl hhalt
    | _ => cases hi
  | divideByZero dst hzero =>
    cases opcode with
    | aluRegister op src dst =>
      -- each register was incremented before
      cases hi
      cases src <;> exact absurd hzero (by decide)
    | aluImmediate op dst =>
      cases hi
      exact absurd hzero (by decide)
    | _ => cases hi

/-! ## §6. When a failed print is the end. -/

/-- Without room for a line nothing comes of the byte: it is no opcode, halts the machine, or prints
a register. -/
def idle (byte : UInt8) : Bool :=
  match Opcode.ofByte? byte with
  | none => true
  | some .halt => true
  | some (.printRegister _) => true
  | some _ => false

/-- Where nothing comes of the byte that a failed print stands on, it is the end. -/
theorem FailedPrint.inert {byte : UInt8} (h : FailedPrint image s t)
    (hbyte : image[t.machine.pointer.toNat]? = some byte) (hidle : idle byte = true) :
    Inert image t := by
  obtain ⟨hm, -, hroom, -⟩ := h.left
  unfold idle at hidle
  cases hop : Opcode.ofByte? byte with
  | none => exact (standsStill_of_no_opcode hm hbyte hop).inert
  | some opcode =>
    rw [hop] at hidle
    rw [← Opcode.toByte_of_ofByte? hop] at hbyte
    cases opcode with
    | halt => exact inert_of_haltByte hbyte
    | printRegister reg => exact (standsStill_of_printRegister hm hroom hbyte).inert
    | _ => cases hidle

/-- Otherwise some machine goes on behind a print of the literal that failed. -/
theorem idle_of_inert (h : ∀ opcode, opcode.toByte = Immediate.lowByte v →
    Inert (resumed v opcode) onLowByte) : idle (Immediate.lowByte v) = true := by
  unfold idle
  cases hop : Opcode.ofByte? (Immediate.lowByte v) with
  | none => rfl
  | some opcode =>
    have hbyte := Opcode.toByte_of_ofByte? hop
    have hgoes : opcode ≠ .halt → (∀ reg, opcode ≠ .printRegister reg) → False :=
      fun hhalt hprint => not_inert_of_increment Leads.start.step
        (increment_of_step hbyte hhalt hprint) (h opcode hbyte)
    cases opcode with
    | halt => rfl
    | printRegister reg => rfl
    | _ => exact (hgoes (by simp) (by simp)).elim

/-- **A failed print is the end for some literals only.**  On any image and after any calls of a
machine with a limited output, a print that fails leaves registers and marks, fills the output and
stands on its own last byte.  A print of a register fails in the same way from then on.  A print of
a literal stands on the low byte of the literal.  In every image, whatever is called for then
changes no register and no mark, exactly if that byte is no opcode, a `halt`, or a print of a
register. -/
theorem failed_prints_are_final_iff (v : Int64) :
    (∀ image s t, FailedPrint image s t →
      t.machine = s.machine.goto t.machine.pointer ∧ t.output.room = some 0 ∧
      ∃ src n, image.decodeAt s.machine.pointer.toNat = .ok (.print src, n) ∧
        t.machine.pointer.toNat = s.machine.pointer.toNat + n - 1 ∧
        (∀ reg, src = .register reg → StandsStill image t (Call.anyStep .output)) ∧
        (src = .immediate v →
          image[t.machine.pointer.toNat]? = some (Immediate.lowByte v))) ∧
    ((∀ image s t n, FailedPrint image s t →
        image.decodeAt s.machine.pointer.toNat
          = .ok ((Instruction.print (.immediate v)).reduce, n) →
        Inert image t) ↔
      idle (Immediate.lowByte v) = true) := by
  refine ⟨?_, ?_, ?_⟩
  · intro image s t h
    obtain ⟨-, hgoto, hroom, src, n, hread, -, hto⟩ := h.left
    refine ⟨hgoto, hroom, src, n, hread, hto, ?_, ?_⟩
    · rintro reg rfl
      exact h.standsStill hread
    · rintro rfl
      exact h.lowByte hread
  · -- what is so in every image is so in those made for the purpose
    intro h
    refine idle_of_inert fun opcode _ => ?_
    exact h _ _ _ _ (failedPrint_resumed v opcode) (Image.decodeAt_encode _ (holds_print v opcode))
  · intro hidle image s t n h hd
    refine h.inert (h.lowByte hd) ?_
    rwa [Immediate.lowByte_reduce]

/-- With no room for a line, a print of a register goes on failing, and behind a print of zero no
register changes. -/
theorem failed_prints_are_final_iff_zero :
    StandsStill #[0xb0] full (Call.anyStep .output) ∧
      Inert #[0xbf, 0xfe, 0, 0, 0, 0] { full with machine := { pointer := 5 } } := by
  constructor
  · have hd : Image.decodeAt #[0xb0] 0 = .ok (.print (.register .r0), 1) := by cbv
    have hfailed : FailedPrint #[0xb0] full full :=
      ⟨show 1 < UInt64.size by decide, ⟨_, rfl, .start⟩, by decide +kernel⟩
    obtain ⟨-, -, src, n, hread, -, hregister, -⟩ := (failed_prints_are_final_iff 0).1 _ _ _ hfailed
    cases hd.symm.trans hread
    exact hregister .r0 rfl
  · have hd : Image.decodeAt #[0xbf, 0xfe, 0, 0, 0, 0] 0 = .ok (.print (.immediate 0), 6) := by
      cbv
    have hfailed : FailedPrint #[0xbf, 0xfe, 0, 0, 0, 0] full
        { full with machine := { pointer := 5 } } :=
      ⟨show 6 < UInt64.size by decide, ⟨_, rfl, .start⟩, by decide +kernel⟩
    exact (failed_prints_are_final_iff 0).2.mpr (by decide) _ _ _ 6 hfailed hd

/-- The low byte of 144 is an increment.  It is executed if a machine whose print of 144 failed is
asked for another step. -/
theorem not_all_failed_prints_are_final :
    ¬ ∀ image s t, FailedPrint image s t → Inert image t := by
  intro h
  have hfailed : FailedPrint #[0xbf, 0xfe, 0, 0, 0, 0x90] full
      { full with machine := { pointer := 5 } } :=
    ⟨show 6 < UInt64.size by decide, ⟨_, rfl, .start⟩, by decide +kernel⟩
  have hbyte : (#[0xbf, 0xfe, 0, 0, 0, 0x90] : Image)[(5 : Pointer).toNat]?
      = some (Opcode.increment .r0).toByte := rfl
  exact not_inert_of_increment .start hbyte (h _ _ _ hfailed)

end Session

end Machine

end ByteMachine
