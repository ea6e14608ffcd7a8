/-
  ByteMachine.Proofs.Faults — what a step that fails leaves behind.

  The pointer moves once an instruction has been read and before it has its effect, and nothing
  else does before a fault arises.  So there are three ways to fail, and each says all that is
  left:

    • `Fails` — reading fails and nothing changes; a division or a print fails on the last byte of
      its instruction, the print with its line cut,
    • `fails_of_fault` — a step that ends with a fault fails in one of these ways, in any state and
      with any writer,
    • `faults_keep_registers` — so registers, marks and halt are kept, and a division fails exactly
      if its source is zero in a register.
-/
import ByteMachine.Proofs.Lockstep
import ByteMachine.Proofs.Writer

namespace ByteMachine.Machine

open Assembly (Tree codeSize)

variable {σ : Type} {w : Writer σ} {image : Image} {m : Machine} {st : σ}

/-! ## §1. The ways to fail. -/

/-- The pointer on the last byte of an instruction. -/
theorem Pointer.toNat_lastByte {p : Pointer} {n : Nat} (hpos : 0 < n)
    (h : p.toNat + n < UInt64.size) : (p.lastByte n).toNat = p.toNat + n - 1 := by
  have hbehind : (p.lastByte n + 1).toNat = p.toNat + n := Pointer.toNat_behind h
  have hlt := (p.lastByte n).toNat_lt
  rw [UInt64.toNat_add] at hbehind
  change ((p.lastByte n).toNat + 1) % 2 ^ 64 = _ at hbehind
  omega

/-- How a step fails, and what it leaves. -/
inductive Fails (image : Image) (m : Machine) (st : σ) : Stepped σ → Prop where
  /-- There is no instruction to read. -/
  | decode {cause : DecodeError} (unread : image.decodeAt m.pointer.toNat = .error cause) :
      Fails image m st ⟨m, st, [], some (.decode cause)⟩
  /-- The source of a division is zero. -/
  | divide {src : Operand} {dst : Register} {n : Nat}
      (read : image.decodeAt m.pointer.toNat = .ok (.alu .divide src dst, n))
      (zero : m.value src = 0) :
      Fails image m st ⟨m.goto (m.pointer.lastByte n), st, [], some .divisionByZero⟩
  /-- At least one character of a printed line was not taken. -/
  | print {src : Operand} {n : Nat} {taken rest : List Char} {c : Char} (next : σ)
      (read : image.decodeAt m.pointer.toNat = .ok (.print src, n))
      (cut : (line (m.printed src)).toList = taken ++ c :: rest) :
      Fails image m st ⟨m.goto (m.pointer.lastByte n), next, taken, some .output⟩

/-- **A step that ends with a fault fails in one of these ways.**  The cases are those of what the
instruction asks for. -/
theorem fails_of_fault {fault : Fault} (h : (m.stepTo w image st).fault = some fault) :
    Fails image m st (m.stepTo w image st) := by
  cases hd : image.decodeAt m.pointer.toNat with
  | error cause =>
    rw [stepTo_of_error hd]
    exact .decode hd
  | ok read =>
    obtain ⟨i, n⟩ := read
    have hasks := asks_effect m i
    rw [stepTo_of_decodeAt hd] at h ⊢
    -- of the effect only counts what may be asked for, so the instruction is known with it
    generalize m.effect i = e at hasks h ⊢
    cases hasks with
    | print src =>
      -- a line that was not cut is no fault
      rcases w.covers_print st (line (m.printed src)) with ⟨hcomplete, -⟩ | ⟨hcut, c, rest, hline⟩
      · rw [applyTo_print_of_complete hcomplete] at h
        cases h
      · rw [applyTo_print_of_cut hcut]
        exact .print _ hd hline
    | divideByZero dst hzero => exact .divide hd hzero
    | _ => cases h

/-- A division by zero fails, whatever the destination holds. -/
theorem fault_of_divide {src : Operand} {dst : Register} {n : Nat}
    (hd : image.decodeAt m.pointer.toNat = .ok (.alu .divide src dst, n))
    (hzero : m.value src = 0) : (m.stepTo w image st).fault = some .divisionByZero := by
  have heffect : m.effect (.alu .divide src dst) = .divideByZero := if_pos hzero
  rw [stepTo_of_decodeAt hd, heffect]
  rfl

/-! ## §2. What is kept. -/

namespace Fails

variable {r : Stepped σ}

/-- Nothing of the machine changes but its pointer. -/
theorem machine_eq (h : Fails image m st r) : r.machine = m.goto r.machine.pointer := by
  cases h <;> rfl

/-- A fault of reading changes nothing at all. -/
theorem eq_of_decode {cause : DecodeError} (h : Fails image m st r)
    (hf : r.fault = some (.decode cause)) :
    image.decodeAt m.pointer.toNat = .error cause ∧ r = ⟨m, st, [], some (.decode cause)⟩ := by
  cases h with
  | decode unread =>
    cases hf
    exact ⟨unread, rfl⟩
  | divide => cases hf
  | print => cases hf

/-- Only a division divides by zero, and it prints nothing. -/
theorem inv_divide (h : Fails image m st r) (hf : r.fault = some .divisionByZero) :
    ∃ src dst n, image.decodeAt m.pointer.toNat = .ok (.alu .divide src dst, n)
      ∧ m.value src = 0
      ∧ r = ⟨m.goto (m.pointer.lastByte n), st, [], some .divisionByZero⟩ := by
  cases h with
  | divide read zero => exact ⟨_, _, _, read, zero, rfl⟩
  | decode => cases hf
  | print => cases hf

/-- Only a print fails to print, and what is missing of its line is not empty. -/
theorem inv_output (h : Fails image m st r) (hf : r.fault = some .output) :
    ∃ src n c rest, image.decodeAt m.pointer.toNat = .ok (.print src, n)
      ∧ (line (m.printed src)).toList = r.printed ++ c :: rest
      ∧ r.machine = m.goto (m.pointer.lastByte n) := by
  cases h with
  | print _ read cut => exact ⟨_, _, _, _, read, cut, rfl⟩
  | decode => cases hf
  | divide => cases hf

/-- A fault of an instruction that was read leaves the pointer on its last byte. -/
theorem pointer_eq (h : Fails image m st r)
    (hf : r.fault = some .divisionByZero ∨ r.fault = some .output) :
    ∃ i n, image.decodeAt m.pointer.toNat = .ok (i, n)
      ∧ r.machine.pointer = m.pointer.lastByte n := by
  rcases hf with hf | hf
  · obtain ⟨src, dst, n, hd, -, rfl⟩ := h.inv_divide hf
    exact ⟨_, n, hd, rfl⟩
  · obtain ⟨src, n, c, rest, hd, -, hm⟩ := h.inv_output hf
    refine ⟨_, n, hd, ?_⟩
    rw [hm]
    rfl

end Fails

/-! ## §3. Divisions by a literal. -/

theorem fault_eq_divisionByZero_iff :
    (m.stepTo w image st).fault = some .divisionByZero ↔
      ∃ src dst n, image.decodeAt m.pointer.toNat = .ok (.alu .divide src dst, n)
        ∧ m.value src = 0 := by
  constructor
  · intro h
    obtain ⟨src, dst, n, hd, hzero, -⟩ := (fails_of_fault h).inv_divide h
    exact ⟨src, dst, n, hd, hzero⟩
  · rintro ⟨src, dst, n, hd, hzero⟩
    exact fault_of_divide hd hzero

/-- A literal divisor is zero in a register exactly if it is a multiple of 2³²; what is read of it
was reduced, which the register cannot tell. -/
theorem fault_of_literal_iff {v : Int64} {dst : Register} {n : Nat}
    (hd : image.decodeAt m.pointer.toNat
      = .ok ((Instruction.alu .divide (.immediate v) dst).reduce, n)) :
    (m.stepTo w image st).fault = some .divisionByZero ↔ (2 ^ 32 : Int) ∣ v.toInt := by
  have hvalue : m.value (.immediate (Immediate.reduce v)) = v.toInt32 := Immediate.toInt32_reduce v
  rw [← Immediate.toInt32_eq_zero_iff, ← hvalue]
  constructor
  · intro h
    obtain ⟨src, dst', n', hd', hzero⟩ := fault_eq_divisionByZero_iff.mp h
    cases hd.symm.trans hd'
    exact hzero
  · intro h
    exact fault_of_divide hd h

/-- The line of a division by a literal, in an image that was assembled. -/
theorem decodeAt_of_division {before after : List Tree} {v : Int64} {dst : Register}
    (h : (Tree.root (before ++ .line [.mnemonic "divb", .integer v, .register dst] :: after)).assemble
      = .ok image) (hsize : image.size < 2 ^ 32) :
    ∃ n, image.decodeAt (codeSize before)
      = .ok ((Instruction.alu .divide (.immediate v) dst).reduce, n) := by
  have hline : Assembly.Statement.ofLine [.mnemonic "divb", .integer v, .register dst]
      = .ok (.plain (.alu .divide (.immediate v) dst)) := rfl
  obtain ⟨i, hi, hd⟩ := (Source.loaded_of_assemble h hsize).decodeAt_line hline
  cases hi
  exact ⟨_, hd⟩

/-! ## §4. Faults. -/

/-- **Faults leave everything but the pointer as it was.**  A step from any state, on any image and
with any writer, that ends with a fault keeps the registers, the marks and the halt.  A fault of
reading keeps the pointer too, and nothing is written.  A division by zero and a print that fails
leave the pointer on the last byte of their instruction; the one writes nothing, the other a proper
beginning of the line.  A division fails exactly if its source is zero in 32 bits, whatever its
destination holds; with a literal that was encoded, or assembled into an image of less than 2³²
bytes, which holds its lines in order, exactly if the literal is a multiple of 2³².  A step of a
session is one with its output as the writer. -/
theorem faults_keep_registers (w : Writer σ) (image : Image) (m : Machine) (st : σ) :
    let after := m.stepTo w image st
    (∀ fault, after.fault = some fault →
      after.machine.registers = m.registers ∧ after.machine.flags = m.flags ∧
        after.machine.halted = m.halted) ∧
    (∀ cause, after.fault = some (.decode cause) →
      after.machine.pointer = m.pointer ∧ after.printed = [] ∧ after.writer = st) ∧
    (after.fault = some .divisionByZero ∨ after.fault = some .output →
      ∃ i n, image.decodeAt m.pointer.toNat = .ok (i, n) ∧
        after.machine.pointer = m.pointer + .ofNat n - 1 ∧
        (Addressable image → after.machine.pointer.toNat = m.pointer.toNat + n - 1)) ∧
    (after.fault = some .divisionByZero → after.printed = [] ∧ after.writer = st) ∧
    (after.fault = some .output →
      ∃ src n c rest, image.decodeAt m.pointer.toNat = .ok (.print src, n) ∧
        (line (m.printed src)).toList = after.printed ++ c :: rest) ∧
    (after.fault = some .divisionByZero ↔
      ∃ src dst n, image.decodeAt m.pointer.toNat = .ok (.alu .divide src dst, n) ∧
        m.value src = 0) ∧
    (∀ v dst, image.Holds m.pointer.toNat (Instruction.alu .divide (.immediate v) dst).encode →
      (after.fault = some .divisionByZero ↔ (2 ^ 32 : Int) ∣ v.toInt)) ∧
    (∀ before rest v dst,
      (Tree.root (before ++ .line [.mnemonic "divb", .integer v, .register dst] :: rest)).assemble
        = .ok image → image.size < 2 ^ 32 → m.pointer.toNat = codeSize before →
      (after.fault = some .divisionByZero ↔ (2 ^ 32 : Int) ∣ v.toInt)) ∧
    ∀ output : Output,
      Session.step image ⟨m, output⟩ =
        let r := m.stepTo Output.writer image output.room
        (⟨r.machine, ⟨r.writer, output.written ++ String.ofList r.printed⟩⟩, r.fault) := by
  intro after
  refine ⟨?_, ?_, ?_, ?_, ?_, fault_eq_divisionByZero_iff, ?_, ?_,
    fun output => step_eq_stepTo image ⟨m, output⟩⟩
  · intro fault h
    have hm : after.machine = m.goto after.machine.pointer := (fails_of_fault h).machine_eq
    rw [hm]
    exact ⟨rfl, rfl, rfl⟩
  · intro cause h
    have heq : after = _ := ((fails_of_fault h).eq_of_decode h).2
    rw [heq]
    exact ⟨rfl, rfl, rfl⟩
  · intro h
    have hfails : Fails image m st after := by
      rcases h with h | h <;> exact fails_of_fault h
    obtain ⟨i, n, hd, hp⟩ := hfails.pointer_eq h
    refine ⟨i, n, hd, hp, ?_⟩
    -- the instruction lies inside the image, so its last byte has an offset that is a word
    intro hsize
    rw [hp]
    exact Pointer.toNat_lastByte (Image.decodeAt_pos hd)
      (Nat.lt_of_le_of_lt (Image.le_size_of_decodeAt hd) hsize)
  · intro h
    obtain ⟨src, dst, n, -, -, heq⟩ := (fails_of_fault h).inv_divide h
    have heq : after = _ := heq
    rw [heq]
    exact ⟨rfl, rfl⟩
  · intro h
    obtain ⟨src, n, c, rest, hd, hline, -⟩ := (fails_of_fault h).inv_output h
    exact ⟨src, n, c, rest, hd, hline⟩
  · intro v dst hholds
    exact fault_of_literal_iff (Image.decodeAt_encode _ hholds)
  · intro before rest v dst h hsize hpointer
    obtain ⟨n, hd⟩ := decodeAt_of_division h hsize
    rw [← hpointer] at hd
    exact fault_of_literal_iff hd

/-- A halted machine that is stepped all the same.  With room for two characters, the print of -12
fails on its last byte with its digits cut, and marks and halt stay; behind the increment of an
assembled text, the division by -2³² fails with nothing written; and behind its last line there is
nothing to read. -/
theorem faults_keep_registers_halted :
    let m : Machine := { registers := { r0 := 7 }, flags := { less := true }, halted := true }
    let print := m.stepTo Output.writer #[0xbf, 0xff, 0, 0, 0, 12] (some 2)
    let image : Image := #[0x90, 0x60, 0xff, 0, 0, 0, 0]
    let divide := (m.goto 1).stepTo Output.writer image none
    let behind := (m.goto 7).stepTo Output.writer image none
    print.fault = some .output ∧ print.machine.flags = m.flags ∧ print.machine.pointer = 5 ∧
      (Tree.root [.line [.mnemonic "incb", .register .r0],
        .line [.mnemonic "divb", .integer (-4294967296), .register .r0]]).assemble = .ok image ∧
      divide.fault = some .divisionByZero ∧ divide.machine.pointer.toNat = 6 ∧
      behind.fault = some (.decode (.missingByte 6)) ∧ behind.machine.pointer = 7 := by
  intro m print image divide behind
  have hread : Image.decodeAt #[0xbf, 0xff, 0, 0, 0, 12] m.pointer.toNat
      = .ok (.print (.immediate (-12)), 6) := by cbv
  have hprint : print.fault = some .output := by
    have hcut : (Output.writer.print (some 2) (line (Int64.toInt (-12)))).complete = false := by
      rw [Output.print_writer { room := some 2 }]
      decide +kernel
    show (m.stepTo Output.writer _ (some 2)).fault = _
    rw [stepTo_of_decodeAt hread]
    show (m.applyTo Output.writer (some 2) _ (.print (Int64.toInt (-12)))).fault = _
    rw [applyTo_print_of_cut hcut]
  have hassemble : (Tree.root ([.line [.mnemonic "incb", .register .r0]]
      ++ .line [.mnemonic "divb", .integer (-4294967296), .register .r0] :: [])).assemble
        = .ok image := by cbv
  have hbehind : behind.fault = some (.decode (.missingByte 6)) := by cbv
  obtain ⟨hkeep, -, hlast, -⟩ :=
    faults_keep_registers Output.writer #[0xbf, 0xff, 0, 0, 0, 12] m (some 2)
  obtain ⟨-, -, hend, -, -, -, -, hzero, -⟩ :=
    faults_keep_registers Output.writer image (m.goto 1) none
  obtain ⟨-, hstay, -⟩ := faults_keep_registers Output.writer image (m.goto 7) none
  have hdivide : divide.fault = some .divisionByZero :=
    (hzero _ [] _ _ hassemble (by decide) (by decide)).mpr (by decide)
  refine ⟨hprint, (hkeep _ hprint).2.1, ?_, hassemble, hdivide, ?_, hbehind,
    (hstay _ hbehind).1⟩
  · obtain ⟨i, n, hd, hp, -⟩ := hlast (.inr hprint)
    cases hread.symm.trans hd
    exact hp.trans (by decide)
  · obtain ⟨i, n, hd, -, hp⟩ := hend (.inl hdivide)
    have hzeros : image.decodeAt (m.goto 1).pointer.toNat
        = .ok (.alu .divide (.immediate 0) .r0, 6) := by cbv
    cases hzeros.symm.trans hd
    exact hp (show 7 < UInt64.size by decide)

end ByteMachine.Machine
