/-
  ByteMachine.Proofs.Standstill — a machine that has stopped has stopped for good.

  Nothing in a machine notes that it faulted: it is called again and starts from where the fault
  left its pointer.  That it comes no further is a matter of the byte there.  A fault of reading
  and a division by a zero register stand in front of what failed; a division by a zero literal
  stands on the last byte of the literal, which is zero and no opcode:

    • `FailsTo`, `failsTo_of_step` — how a step fails, and the session it leaves,
    • `onHalt_of_leads` — a machine that halted stands on a `halt`, whatever it was called for,
    • `getElem?_of_literal` — the last byte of an instruction with a literal,
    • `stopped_machines_stand_still` — so a machine that halted, ran off the end or faulted stands
      still, if its output takes everything.
-/
import ByteMachine.Proofs.Calls
import ByteMachine.Proofs.Canonical
import ByteMachine.Proofs.Faults
import ByteMachine.Proofs.Truncation

namespace ByteMachine

/-! ## §1. Single bytes. -/

namespace Image

variable {image : Image} {offset n : Nat} {i : Instruction}

/-- Behind the image there is nothing to read. -/
theorem decodeAt_of_size_le (h : image.size ≤ offset) :
    image.decodeAt offset = .error (cutOffAt offset) := by
  rw [decodeAt_eq, entryAt, byteAt_of_size_le h]
  rfl

/-- A byte that is no opcode cannot be read as an instruction. -/
theorem decodeAt_of_no_opcode {byte : UInt8} (h : image[offset]? = some byte)
    (hnone : Opcode.ofByte? byte = none) :
    image.decodeAt offset = .error (.badOpcode byte (.ofNat offset)) := by
  rw [decodeAt_eq, entryAt, byteAt_of_getElem? h]
  simp only [bind, Except.bind, hnone]

theorem decodeAt_of_haltByte (h : image[offset]? = some haltByte) :
    image.decodeAt offset = .ok (.halt, 1) := by
  have hopcode : image[offset]? = some Opcode.halt.toByte := h
  rw [decodeAt_of_opcode hopcode]
  rfl

theorem haltByte_of_decodeAt (h : image.decodeAt offset = .ok (.halt, n)) :
    image[offset]? = some haltByte := by
  obtain ⟨bytes, hs, hb⟩ := spelled_of_decodeAt h
  cases hs
  exact hb.1

/-- **The last byte of an instruction with a literal** holds the low eight bits of its
magnitude. -/
theorem getElem?_of_literal (h : image.decodeAt offset = .ok (i, n)) {v : Int64}
    (hv : i.literal? = some v) : image[offset + n - 1]? = some (.ofNat v.toInt.natAbs) := by
  obtain ⟨hn, bytes, hs, hb⟩ := decodeAt_iff.mp h
  rcases hs.split with ⟨hnone, -⟩ | ⟨head, negative, m, hliteral, rfl, -⟩
  · rw [hnone] at hv
    cases hv
  · obtain rfl : Immediate.signed negative m = v := Option.some.inj (hliteral.symm.trans hv)
    -- behind its sign the immediate has four bytes, the most significant first
    obtain ⟨-, -, -, -, hlast, -⟩ := (holds_append.mp hb).2
    have hend : offset + n - 1 = offset + head.length + 1 + 1 + 1 + 1 := by
      rw [hn, ← hs.length_eq, List.length_append]
      rfl
    rw [hend, hlast, Immediate.natAbs_signed]

end Image

namespace Machine

/-! ## §2. How a step fails. -/

namespace Session

variable {image : Image} {s t : Session} {fault : Fault}

/-- How a step fails, and the session it leaves. -/
inductive FailsTo (image : Image) (s : Session) : Session → Fault → Prop where
  /-- There is no instruction to read. -/
  | decode {cause : DecodeError}
      (unread : image.decodeAt s.machine.pointer.toNat = .error cause) :
      FailsTo image s s (.decode cause)
  /-- The source of a division is zero. -/
  | divide {src : Operand} {dst : Register} {n : Nat}
      (read : image.decodeAt s.machine.pointer.toNat = .ok (.alu .divide src dst, n))
      (zero : s.machine.value src = 0) :
      FailsTo image s { s with machine := s.machine.goto (s.machine.pointer.lastByte n) }
        .divisionByZero
  /-- A line is not taken in full. -/
  | print {src : Operand} {n : Nat}
      (read : image.decodeAt s.machine.pointer.toNat = .ok (.print src, n))
      (cut : ¬ s.output.fits (line (s.machine.printed src)).length = true) :
      FailsTo image s
        { machine := s.machine.goto (s.machine.pointer.lastByte n)
          output := s.output.write (line (s.machine.printed src)) } .output

/-- **A step that fails does so in one of these ways.**  The cases are those of what the instruction
asks for. -/
theorem failsTo_of_step (h : s.step image = (t, some fault)) : FailsTo image s t fault := by
  cases hd : image.decodeAt s.machine.pointer.toNat with
  | error cause =>
    rw [step_of_error hd] at h
    cases h
    exact .decode hd
  | ok read =>
    obtain ⟨i, n⟩ := read
    have hasks := asks_effect s.machine i
    rw [step_of_decodeAt hd] at h
    -- the effect decides; a print may fail and a division by zero does, the others complete
    generalize s.machine.effect i = e at hasks h
    cases hasks with
    | print src =>
      by_cases hf : s.output.fits (line (s.machine.printed src)).length = true
      · rw [apply_print_of_fits hf] at h
        cases h
      · rw [apply_print_of_not_fits hf] at h
        cases h
        exact .print hd hf
    | divideByZero dst hzero =>
      cases h
      exact .divide hd hzero
    | _ => cases h

/-- Whether a line is taken in full or cut, a print changes nothing but the output and the
pointer. -/
theorem apply_print (last : Pointer) (v : Int) :
    ∃ pointer, (s.apply last (.print v)).1
      = { machine := s.machine.goto pointer, output := s.output.write (line v) } := by
  by_cases hf : s.output.fits (line v).length = true
  · rw [apply_print_of_fits hf]
    exact ⟨_, rfl⟩
  · rw [apply_print_of_not_fits hf]
    exact ⟨_, rfl⟩

/-- A step leaves the output as it is, or writes a text to it. -/
theorem output_step (image : Image) (s : Session) : (s.step image).1.output = s.output
    ∨ ∃ text, (s.step image).1.output = s.output.write text := by
  cases hd : image.decodeAt s.machine.pointer.toNat with
  | error cause =>
    rw [step_of_error hd]
    exact .inl rfl
  | ok read =>
    rw [step_of_decodeAt hd]
    cases s.machine.effect read.1 with
    | print v =>
      obtain ⟨pointer, h⟩ := s.apply_print (s.machine.pointer.lastByte read.2) v
      rw [h]
      exact .inr ⟨_, rfl⟩
    | _ => exact .inl rfl

/-- **Calls neither limit an output nor lift its limit.** -/
theorem isSome_room_of_leads (h : Leads image s t) :
    t.output.room.isSome = s.output.room.isSome := by
  refine h.keeps (P := fun u => u.output.room.isSome = s.output.room.isSome) ?_ rfl
  intro u hu
  rw [← hu]
  -- a write takes from the room what there is of it
  rcases u.output_step image with hout | ⟨text, hout⟩ <;> rw [hout]
  exact Option.isSome_map

/-- A division by zero, wherever the pointer stands. -/
theorem step_of_divide {src : Operand} {dst : Register} {n : Nat}
    (hd : image.decodeAt s.machine.pointer.toNat = .ok (.alu .divide src dst, n))
    (hzero : s.machine.value src = 0) :
    s.step image = ({ s with machine := s.machine.goto (s.machine.pointer.lastByte n) },
      some .divisionByZero) := by
  have heffect : s.machine.effect (.alu .divide src dst) = .divideByZero := if_pos hzero
  rw [step_of_decodeAt hd, heffect]
  rfl

/-! ## §3. Machines that halted. -/

/-- A machine that halted stands on a `halt`. -/
def OnHalt (image : Image) (s : Session) : Prop :=
  s.machine.halted = true → image[s.machine.pointer.toNat]? = some haltByte

/-- A `halt` is all that its step changes. -/
theorem step_of_haltByte (h : image[s.machine.pointer.toNat]? = some haltByte) :
    s.step image = ({ s with machine := { s.machine with halted := true } }, none) := by
  rw [step_of_decodeAt (Image.decodeAt_of_haltByte h), Pointer.lastByte_one]
  rfl

/-- Only a `halt` halts a machine. -/
theorem haltByte_of_step (hs : s.machine.halted = false)
    (h : (s.step image).1.machine.halted = true) :
    image[s.machine.pointer.toNat]? = some haltByte := by
  cases hd : image.decodeAt s.machine.pointer.toNat with
  | error cause =>
    rw [step_of_error hd, hs] at h
    cases h
  | ok read =>
    obtain ⟨i, n⟩ := read
    rw [step_of_decodeAt hd] at h
    cases he : s.machine.effect i with
    | halt =>
      rw [effect_eq_halt he] at hd
      exact Image.haltByte_of_decodeAt hd
    | print v =>
      obtain ⟨pointer, hprint⟩ := s.apply_print (s.machine.pointer.lastByte n) v
      rw [he, hprint] at h
      cases hs.symm.trans h
    | _ =>
      rw [he] at h
      cases hs.symm.trans h

theorem onHalt_step (hs : OnHalt image s) : OnHalt image (s.step image).1 := by
  intro h
  cases hm : s.machine.halted with
  | true =>
    rw [step_of_haltByte (hs hm)]
    exact hs hm
  | false =>
    -- the step has halted the machine, and a halt leaves the pointer where it is
    have hbyte := haltByte_of_step hm h
    rw [step_of_haltByte hbyte]
    exact hbyte

/-- **A machine that halted stands on a `halt`**, whatever a new machine was called for. -/
theorem onHalt_of_leads {output : Output} (h : Leads image { output } s) : OnHalt image s := by
  refine h.keeps (fun _ => onHalt_step) ?_
  intro hnew
  cases hnew

/-- A machine on a `halt` completes its step if it halted already. -/
theorem step_of_halted (hs : OnHalt image s) (h : s.machine.halted = true) :
    s.step image = (s, none) := by
  obtain ⟨m, output⟩ := s
  rw [step_of_haltByte (hs h)]
  cases m
  cases h
  rfl

/-- A step that fails was not that of a machine that halted, and leaves none. -/
theorem not_halted_of_step (hs : OnHalt image s) (h : s.step image = (t, some fault)) :
    t.machine.halted = false := by
  cases hm : s.machine.halted with
  | true =>
    rw [step_of_halted hs hm] at h
    cases h
  | false => cases failsTo_of_step h <;> exact hm

/-! ## §4. Standing still. -/

theorem standsStill_of_halted (hs : OnHalt image s) (h : s.machine.halted = true) :
    StandsStill image s (Call.onlyStep none) := by
  refine standsStill_of_stopped ?_ (step_of_halted hs h)
  rw [Bool.eq_false_iff, ne_eq, running_iff, h]
  exact fun hr => Bool.noConfusion hr.1

/-- A machine behind the image finds nothing to read, and stays there. -/
theorem standsStill_of_behind (h : image.size ≤ s.machine.pointer.toNat) :
    StandsStill image s
      (Call.onlyStep (some (.decode (.missingByte (s.machine.pointer - 1))))) := by
  have hd := Image.decodeAt_of_size_le h
  unfold Image.cutOffAt at hd
  rw [UInt64.ofNat_toNat] at hd
  refine standsStill_of_stopped ?_ (step_of_error hd)
  rw [Bool.eq_false_iff, ne_eq, running_iff]
  omega

/-- A machine on a byte that is no opcode faults on it again and again. -/
theorem standsStill_of_no_opcode {byte : UInt8} (hm : s.machine.halted = false)
    (h : image[s.machine.pointer.toNat]? = some byte) (hnone : Opcode.ofByte? byte = none) :
    StandsStill image s (Call.anyStep (.decode (.badOpcode byte s.machine.pointer))) := by
  have hd := Image.decodeAt_of_no_opcode h hnone
  rw [UInt64.ofNat_toNat] at hd
  have hlt := (Array.getElem?_eq_some_iff.mp h).1
  exact standsStill_of_fault (running_iff.mpr ⟨hm, hlt⟩) (step_of_error hd)

/-- A division by a zero register faults again and again: its only byte is its last. -/
theorem standsStill_of_register {src dst : Register} {n : Nat} (hm : s.machine.halted = false)
    (hd : image.decodeAt s.machine.pointer.toNat = .ok (.alu .divide (.register src) dst, n))
    (hzero : s.machine.value (.register src) = 0) :
    StandsStill image s (Call.anyStep .divisionByZero) := by
  have hn : n = 1 := Image.size_of_decodeAt hd
  have hlt := Image.le_size_of_decodeAt hd
  refine standsStill_of_fault (running_iff.mpr ⟨hm, by omega⟩) ?_
  rw [step_of_divide hd hzero, hn, Pointer.lastByte_one]
  rfl

/-- **The last byte of a division by a zero literal is zero.** -/
theorem lastByte_of_divide (ha : Addressable image) {v : Int64} {dst : Register} {n : Nat}
    (hd : image.decodeAt s.machine.pointer.toNat = .ok (.alu .divide (.immediate v) dst, n))
    (hzero : s.machine.value (.immediate v) = 0) :
    (s.machine.pointer.lastByte n).toNat = s.machine.pointer.toNat + 5
      ∧ image[(s.machine.pointer.lastByte n).toNat]? = some 0 := by
  have hn : n = 6 := Image.size_of_decodeAt hd
  have hle := Image.le_size_of_decodeAt hd
  have hto := Pointer.toNat_lastByte (Image.decodeAt_pos hd) (Nat.lt_of_le_of_lt hle ha)
  refine ⟨by omega, ?_⟩
  -- a literal that was read is shorter than 2³², so it is zero itself if it is zero in a register
  have hdvd := (Immediate.toInt32_eq_zero_iff v).mp hzero
  have hlt := Image.natAbs_lt_of_decodeAt hd rfl
  have hv : v.toInt.natAbs = 0 := by omega
  rw [hto, Image.getElem?_of_literal hd rfl, hv]
  rfl

/-- **A machine that has stopped stands still.**  This is so after whatever calls of a new machine
whose output takes everything.  Once it halted it stands on a `halt`, and every call succeeds.
Behind the image runs succeed, and only a step that is asked for fails, for want of a byte.  A call
that faults inside the image does so on its last step; then every call that is for a step at all
faults too: in the same way again, but for a division by a literal, which has left the pointer on
the last byte of the literal, a zero. -/
theorem stopped_machines_stand_still (image : Image) (output : Output)
    (hroom : output.room = none) (s : Session) (hs : Leads image { output } s) :
    (s.machine.halted = true →
      image[s.machine.pointer.toNat]? = some haltByte ∧
        StandsStill image s (Call.onlyStep none)) ∧
    (image.size ≤ s.machine.pointer.toNat →
      StandsStill image s
        (Call.onlyStep (some (.decode (.missingByte (s.machine.pointer - 1)))))) ∧
    (Addressable image → ∀ c t fault, Returns image s c t (some fault) →
      t.machine.pointer.toNat < image.size →
      ∃ u, Reaches image s u ∧ u.step image = (t, some fault) ∧
        ((∃ cause, fault = .decode cause ∧ t = u ∧ StandsStill image t (Call.anyStep fault)) ∨
        (∃ src dst n, fault = .divisionByZero ∧ t = u ∧
          image.decodeAt u.machine.pointer.toNat = .ok (.alu .divide (.register src) dst, n) ∧
          StandsStill image t (Call.anyStep fault)) ∨
        ∃ v dst n, fault = .divisionByZero ∧
          t = { u with machine := u.machine.goto t.machine.pointer } ∧
          image.decodeAt u.machine.pointer.toNat = .ok (.alu .divide (.immediate v) dst, n) ∧
          t.machine.pointer.toNat = u.machine.pointer.toNat + n - 1 ∧
          image[t.machine.pointer.toNat]? = some 0x00 ∧
          StandsStill image t
            (Call.anyStep (.decode (.badOpcode 0x00 t.machine.pointer))))) := by
  have hhalt := onHalt_of_leads hs
  refine ⟨fun h => ⟨hhalt h, standsStill_of_halted hhalt h⟩, standsStill_of_behind, ?_⟩
  intro ha c t fault hreturns hinside
  -- the call has ended with a step that fails, in front of which the machine was called to `u`
  obtain ⟨u, hu, hstep⟩ := step_of_returns hreturns
  have hlead := hs.reaches hu
  have hm := not_halted_of_step (onHalt_of_leads hlead) hstep
  have hunlimited : u.output.room = none := by
    rw [← Option.not_isSome_iff_eq_none, isSome_room_of_leads hlead, hroom]
    exact Bool.false_ne_true
  refine ⟨u, hu, hstep, ?_⟩
  cases failsTo_of_step hstep with
  | decode unread =>
    exact .inl ⟨_, rfl, rfl,
      standsStill_of_fault (running_iff.mpr ⟨hm, hinside⟩) (step_of_error unread)⟩
  | @divide src dst n read zero =>
    cases src with
    | register src =>
      -- the division has moved the pointer nowhere
      have hn : n = 1 := Image.size_of_decodeAt read
      have heq : u.machine.goto (u.machine.pointer.lastByte n) = u.machine := by
        rw [hn, Pointer.lastByte_one]
        rfl
      rw [heq] at hm ⊢
      exact .inr (.inl ⟨src, dst, n, rfl, rfl, read, standsStill_of_register hm read zero⟩)
    | immediate v =>
      obtain ⟨hto, hbyte⟩ := lastByte_of_divide ha read zero
      have hn : n = 6 := Image.size_of_decodeAt read
      exact .inr (.inr ⟨v, dst, n, rfl, rfl, read, hn ▸ hto, hbyte,
        standsStill_of_no_opcode hm hbyte rfl⟩)
  | print read cut =>
    -- an output that takes everything cuts no line
    exact absurd (Source.fits_of_unlimited hunlimited _) cut

/-- A division by a literal zero faults once, and from then on the last byte of the literal is
blamed.  A machine that halted and one without an image stand still as well. -/
theorem stopped_machines_stand_still_division :
    let image : Image := #[0x60, 0xff, 0, 0, 0, 0]
    let faulted : Session := { machine := { pointer := 5 } }
    Returns image {} .run faulted (some .divisionByZero) ∧
      StandsStill image faulted (Call.anyStep (.decode (.badOpcode 0x00 5))) ∧
      StandsStill #[0xf4] { machine := { halted := true } } (Call.onlyStep none) ∧
      StandsStill #[] {} (Call.onlyStep (some (.decode (.missingByte 0xffffffffffffffff)))) := by
  intro image faulted
  have hrun : Session.runFor image 1 {} = ⟨faulted, 1, some .divisionByZero⟩ := by decide +kernel
  have hreturns : Returns image {} .run faulted (some .divisionByZero) := .run hrun (.inl rfl)
  refine ⟨hreturns, ?_, ?_, ?_⟩
  · have ha : Addressable image := show 6 < UInt64.size by decide
    obtain ⟨u, -, -, h | h | h⟩ := (stopped_machines_stand_still image {} rfl {} .start).2.2 ha
      .run faulted .divisionByZero hreturns (by decide)
    · obtain ⟨cause, hfault, -⟩ := h
      cases hfault
    · -- the byte under the pointer is no division by a register
      obtain ⟨src, dst, n, -, rfl, hread, -⟩ := h
      have hzero : image.decodeAt 5 = .error (.badOpcode 0x00 5) := by cbv
      cases hzero.symm.trans hread
    · obtain ⟨v, dst, n, -, -, -, -, -, hstill⟩ := h
      exact hstill
  · have hlead : Leads #[0xf4] {} { machine := { halted := true } } := by
      have h : Session.step #[0xf4] {} = ({ machine := { halted := true } }, none) := by
        decide +kernel
      exact .call .start (.step h)
    exact ((stopped_machines_stand_still _ {} rfl _ hlead).1 rfl).2
  · exact (stopped_machines_stand_still #[] {} rfl {} .start).2.1 (Nat.le_refl 0)

end Session

end Machine

end ByteMachine
