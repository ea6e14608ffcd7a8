/-
  ByteMachine.Proofs.Steps — what one step does, and what many do.

  Later statements on runs cite these lemmas and do not open `Session.step` again:

    • `step_of_decodeAt`, `step_of_error` — a step is the effect of the instruction that is read,
      or the fault of reading it,
    • `pointer_of_step` — where a completed step leaves the pointer,
    • `fault_of_apply` — an effect can fail in two ways only,
    • `next` — a session stops, fails or goes on, and a run does what it does,
    • `runFrom_reaches` — a run is a sequence of completed steps, then perhaps one that fails.
-/
import ByteMachine.Machine.Run
import ByteMachine.Proofs.ReadBack

namespace ByteMachine.Machine

/-! ## §1. The pointer. -/

/-- An image that fits into memory: its size is a 64-bit word, so the pointer can stand on each of
its bytes. -/
def Addressable (image : Image) : Prop := image.size < UInt64.size

/-- Behind the last byte of an instruction stands the pointer moved by its size. -/
theorem Pointer.toNat_behind {p : Pointer} {n : Nat} (h : p.toNat + n < UInt64.size) :
    ((p.lastByte n).forward 1).toNat = p.toNat + n := by
  unfold Pointer.lastByte
  rw [Pointer.forward_back]
  show (p + UInt64.ofNat n).toNat = _
  rw [UInt64.toNat_add, UInt64.toNat_ofNat']
  change (p.toNat + n % UInt64.size) % UInt64.size = _
  rw [Nat.mod_eq_of_lt (by omega : n < UInt64.size), Nat.mod_eq_of_lt h]

/-- The last byte of an instruction of one byte is its only one. -/
theorem Pointer.lastByte_one (p : Pointer) : p.lastByte 1 = p := by
  show p + 1 - 1 = p
  rw [UInt64.add_sub_cancel]

/-! ## §2. Effects. -/

/-- What an instruction may ask for.  A register can be written and marks can be left by several
instructions; the other effects have one instruction each, and a reason. -/
inductive Asks (m : Machine) : Instruction → Effect → Prop where
  | assign (i : Instruction) (reg : Register) (v : Int32) : Asks m i (.assign reg v)
  | mark (i : Instruction) (result : Ordering) : Asks m i (.mark result)
  | pass (i : Instruction) : Asks m i .pass
  | print (src : Operand) : Asks m (.print src) (.print (m.printed src))
  | jump {condition : JumpCondition} (target : UInt32) (h : m.flags.satisfy condition = true) :
      Asks m (.jump condition target) (.jump target)
  | halt : Asks m .halt .halt
  | divideByZero {src : Operand} (dst : Register) (h : m.value src = 0) :
      Asks m (.alu .divide src dst) .divideByZero

/-- Every instruction asks for what it may. -/
theorem asks_effect (m : Machine) (i : Instruction) : Asks m i (m.effect i) := by
  cases i with
  | alu op src dst =>
    cases op with
    | divide =>
      show Asks m _ (if m.value src = 0 then .divideByZero else .assign dst _)
      by_cases hv : m.value src = 0
      · rw [if_pos hv]
        exact .divideByZero dst hv
      · rw [if_neg hv]
        exact .assign _ dst _
    | compare => exact .mark _ _
    | _ => exact .assign _ dst _
  | bitwise op src dst => exact .assign _ dst _
  | increment reg => exact .assign _ reg _
  | decrement reg => exact .assign _ reg _
  | print src => exact .print src
  | jump condition target =>
    show Asks m _ (if m.flags.satisfy condition then .jump target else .pass)
    by_cases hc : m.flags.satisfy condition = true
    · rw [if_pos hc]
      exact .jump target hc
    · rw [if_neg hc]
      exact .pass _
  | halt => exact .halt

/-- Only a jump whose condition holds jumps. -/
theorem effect_eq_jump {m : Machine} {i : Instruction} {target : UInt32}
    (h : m.effect i = .jump target) :
    ∃ condition, i = .jump condition target ∧ m.flags.satisfy condition = true := by
  have ha := asks_effect m i
  rw [h] at ha
  cases ha with
  | jump _ hc => exact ⟨_, rfl, hc⟩

/-- Only `halt` halts. -/
theorem effect_eq_halt {m : Machine} {i : Instruction} (h : m.effect i = .halt) : i = .halt := by
  have ha := asks_effect m i
  rw [h] at ha
  cases ha with
  | halt => rfl

namespace Session

variable {image : Image} {s t : Session}

/-! ## §3. One step. -/

/-- A line that fits is printed. -/
theorem apply_print_of_fits {last : Pointer} {v : Int}
    (h : s.output.fits (line v).length = true) :
    s.apply last (.print v)
      = ({ machine := s.machine.goto (last.forward 1), output := s.output.write (line v) }, none) :=
  if_pos h

/-- A line that does not fit is cut, and the pointer stays on the print. -/
theorem apply_print_of_not_fits {last : Pointer} {v : Int}
    (h : ¬ s.output.fits (line v).length = true) :
    s.apply last (.print v)
      = ({ machine := s.machine.goto last, output := s.output.write (line v) }, some .output) :=
  if_neg h

theorem step_of_decodeAt {i : Instruction} {n : Nat}
    (h : image.decodeAt s.machine.pointer.toNat = .ok (i, n)) :
    s.step image = s.apply (s.machine.pointer.lastByte n) (s.machine.effect i) := by
  unfold step
  rw [h]

theorem step_of_error {cause : DecodeError}
    (h : image.decodeAt s.machine.pointer.toNat = .error cause) :
    s.step image = (s, some (.decode cause)) := by
  unfold step
  rw [h]

/-- A step that completes has read an instruction. -/
theorem decodeAt_of_step (h : s.step image = (t, none)) :
    ∃ i n, image.decodeAt s.machine.pointer.toNat = .ok (i, n)
      ∧ s.apply (s.machine.pointer.lastByte n) (s.machine.effect i) = (t, none) := by
  cases hd : image.decodeAt s.machine.pointer.toNat with
  | error cause =>
    rw [step_of_error hd] at h
    cases h
  | ok read =>
    obtain ⟨i, n⟩ := read
    exact ⟨i, n, rfl, step_of_decodeAt hd ▸ h⟩

/-- **Where a completed step leaves the pointer**: at the target of a jump whose condition holds,
on a `halt`, and behind every other instruction. -/
theorem pointer_of_step (h : s.step image = (t, none)) :
    ∃ i n, image.decodeAt s.machine.pointer.toNat = .ok (i, n)
      ∧ ((∃ condition target, i = .jump condition target
            ∧ s.machine.flags.satisfy condition = true ∧ t.machine.pointer = target.toUInt64)
        ∨ (t.machine.halted = true ∧ t.machine.pointer = s.machine.pointer)
        ∨ t.machine.pointer = (s.machine.pointer.lastByte n).forward 1) := by
  obtain ⟨i, n, hd, ha⟩ := decodeAt_of_step h
  refine ⟨i, n, hd, ?_⟩
  cases he : s.machine.effect i with
  | assign reg v => rw [he] at ha; cases ha; exact .inr (.inr rfl)
  | mark result => rw [he] at ha; cases ha; exact .inr (.inr rfl)
  | print v =>
    rw [he] at ha
    by_cases hf : s.output.fits (line v).length = true
    · rw [apply_print_of_fits hf] at ha
      cases ha
      exact .inr (.inr rfl)
    · rw [apply_print_of_not_fits hf] at ha
      cases ha
  | jump target =>
    rw [he] at ha
    cases ha
    obtain ⟨condition, hi, hc⟩ := effect_eq_jump he
    exact .inl ⟨condition, target, hi, hc, rfl⟩
  | pass => rw [he] at ha; cases ha; exact .inr (.inr rfl)
  | halt =>
    rw [he] at ha
    cases ha
    -- the pointer is left on the last byte of the halt, which is its only one
    have hn : n = 1 := by
      rw [Image.size_of_decodeAt hd, effect_eq_halt he]
      rfl
    rw [hn]
    exact .inr (.inl ⟨rfl, Pointer.lastByte_one _⟩)
  | divideByZero => rw [he] at ha; cases ha

/-- **An effect can fail in two ways only.** -/
theorem fault_of_apply {last : Pointer} {e : Effect} {fault : Fault}
    (h : (s.apply last e).2 = some fault) : fault = .divisionByZero ∨ fault = .output := by
  cases e with
  | print v =>
    by_cases hf : s.output.fits (line v).length = true
    · rw [apply_print_of_fits hf] at h
      cases h
    · rw [apply_print_of_not_fits hf] at h
      cases h
      exact .inr rfl
  | divideByZero => cases h; exact .inl rfl
  | _ => cases h

/-- Where an instruction can be read, a step fails only by its effect. -/
theorem fault_of_step {i : Instruction} {n : Nat} {fault : Fault}
    (hd : image.decodeAt s.machine.pointer.toNat = .ok (i, n))
    (h : (s.step image).2 = some fault) : fault = .divisionByZero ∨ fault = .output := by
  rw [step_of_decodeAt hd] at h
  exact fault_of_apply h

/-! ## §4. Many steps. -/

/-- What can be reached by steps that all complete, whether the machine is running or not. -/
inductive Reaches (image : Image) (s : Session) : Session → Prop where
  | start : Reaches image s s
  | step {t u : Session} (before : Reaches image s t) (last : t.step image = (u, none)) :
      Reaches image s u

/-- What a single step keeps, all steps keep. -/
theorem Reaches.keeps {P : Session → Prop}
    (hstep : ∀ {t u : Session}, P t → t.step image = (u, none) → P u)
    (h : Reaches image s t) (hs : P s) : P t := by
  induction h with
  | start => exact hs
  | step _ last ih => exact hstep ih last

/-- A step in front of others. -/
theorem Reaches.head {u : Session} (first : s.step image = (t, none)) (h : Reaches image t u) :
    Reaches image s u := by
  induction h with
  | start => exact .step .start first
  | step _ last ih => exact .step ih last

/-! ## §5. Runs. -/

theorem running_iff : s.running image = true
    ↔ s.machine.halted = false ∧ s.machine.pointer.toNat < image.size := by
  simp [running, Machine.running]

/-- What a session can come to next. -/
inductive Next (image : Image) (s : Session) : Prop where
  | stopped (h : s.running image = false)
  | failed {t : Session} {fault : Fault} (hr : s.running image = true)
      (h : s.step image = (t, some fault))
  | goesOn {t : Session} (hr : s.running image = true) (h : s.step image = (t, none))

theorem next (image : Image) (s : Session) : Next image s := by
  by_cases hr : s.running image = true
  · cases h : s.step image with
    | mk t outcome =>
      cases outcome with
      | none => exact .goesOn hr h
      | some fault => exact .failed hr h
  · exact .stopped (Bool.not_eq_true _ ▸ hr)

variable {steps limit : Nat}

theorem runFrom_of_not_running (h : s.running image = false) :
    s.runFrom image steps limit = ⟨s, steps, none⟩ := by
  cases limit with
  | zero => rfl
  | succ limit =>
    rw [runFrom, if_neg]
    rw [h]
    exact Bool.false_ne_true

theorem runFrom_of_fault {fault : Fault} (hr : s.running image = true)
    (h : s.step image = (t, some fault)) :
    s.runFrom image steps (limit + 1) = ⟨t, steps + 1, some fault⟩ := by
  rw [runFrom, if_pos hr, h]

theorem runFrom_of_goesOn (hr : s.running image = true) (h : s.step image = (t, none)) :
    s.runFrom image steps (limit + 1) = t.runFrom image (steps + 1) limit := by
  rw [runFrom, if_pos hr, h]

/-- A run is a sequence of completed steps, and then perhaps one that fails. -/
theorem runFrom_reaches (limit : Nat) :
    ∀ (steps : Nat) (s : Session), ∃ t, Reaches image s t
      ∧ (s.runFrom image steps limit = ⟨t, (s.runFrom image steps limit).steps, none⟩
        ∨ ∃ fault, (s.runFrom image steps limit).fault = some fault ∧ t.running image = true
          ∧ t.step image = ((s.runFrom image steps limit).session, some fault)) := by
  induction limit with
  | zero => intro steps s; exact ⟨s, .start, .inl rfl⟩
  | succ limit ih =>
    intro steps s
    cases s.next image with
    | stopped h =>
      rw [runFrom_of_not_running h]
      exact ⟨s, .start, .inl rfl⟩
    | failed hr h =>
      rw [runFrom_of_fault hr h]
      exact ⟨s, .start, .inr ⟨_, rfl, hr, h⟩⟩
    | goesOn hr h =>
      rw [runFrom_of_goesOn hr h]
      obtain ⟨t, hreach, hrun⟩ := ih (steps + 1) _
      exact ⟨t, hreach.head h, hrun⟩

end Session

end ByteMachine.Machine
