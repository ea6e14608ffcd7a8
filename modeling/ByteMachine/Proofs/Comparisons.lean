/-
  ByteMachine.Proofs.Comparisons — the marks are the memory of the latest comparison.

  Only a comparison leaves marks, and nothing clears them but the next.  So what a jump tests is
  how two values stood to each other when they were compared, whatever has become of the registers
  since then and whichever steps have failed:

    • `compared?`, `history` — the values that a step compares, and those of steps one after another,
    • `flags_stepTo` — the marks that a step leaves,
    • `flags_after` — the marks that any number of steps leave,
    • `satisfy_latest` — what a condition says of the two values,
    • `marks_are_the_latest_comparison` — so a jump is taken exactly if its condition holds of the
      values compared last.
-/
import ByteMachine.Proofs.Lockstep
import ByteMachine.Proofs.Writer

namespace ByteMachine

/-! ## §1. Conditions. -/

namespace JumpCondition

/-- What the condition says of the values of a destination and a source. -/
def Relates : JumpCondition → Int → Int → Prop
  | .always, _, _ => True
  | .equal, a, b => a = b
  | .zero, a, b => a = b
  | .notEqual, a, b => a ≠ b
  | .notZero, a, b => a ≠ b
  | .greater, a, b => a > b
  | .greaterOrEqual, a, b => a ≥ b
  | .less, a, b => a < b
  | .lessOrEqual, a, b => a ≤ b

/-- Whether a jump is taken behind the latest comparison.  Before the first, values count neither as
equal nor as one greater than the other. -/
def TakenAfter (condition : JumpCondition) : Option (Int32 × Int32) → Prop
  | none => condition = .always ∨ condition = .notEqual ∨ condition = .notZero
  | some (a, b) => condition.Relates a.toInt b.toInt

end JumpCondition

namespace Machine

/-- The marks that go with the latest comparison. -/
def Flags.latest : Option (Int32 × Int32) → Flags
  | none => {}
  | some (a, b) => .ofComparison (compare a b)

/-- **A condition holds of the marks exactly if it does of the values compared.** -/
theorem Flags.satisfy_latest (compared : Option (Int32 × Int32)) (condition : JumpCondition) :
    (Flags.latest compared).satisfy condition = true ↔ condition.TakenAfter compared := by
  cases compared with
  | none => cases condition <;> simp [latest, satisfy, JumpCondition.holds, JumpCondition.TakenAfter]
  | some values =>
    obtain ⟨a, b⟩ := values
    show (Flags.ofComparison (compare a b)).satisfy condition = true
      ↔ condition.Relates a.toInt b.toInt
    rw [Source.ofComparison_compare]
    cases condition with
    | greaterOrEqual =>
      simp only [satisfy, JumpCondition.holds, JumpCondition.Relates, Bool.or_eq_true,
        decide_eq_true_eq]
      omega
    | lessOrEqual =>
      simp only [satisfy, JumpCondition.holds, JumpCondition.Relates, Bool.or_eq_true,
        decide_eq_true_eq]
      omega
    | _ => simp [satisfy, JumpCondition.holds, JumpCondition.Relates]

variable {σ : Type} {w : Writer σ} {image : Image} {m : Machine} {st : σ}

/-! ## §2. One step. -/

/-- The values of a comparison's destination and source. -/
def operands? (m : Machine) : Instruction → Option (Int32 × Int32)
  | .alu .compare src dst => some (m.registers.get dst, m.value src)
  | _ => none

/-- The instruction that a step completes, if it completes one. -/
def completed? (w : Writer σ) (image : Image) (m : Machine) (st : σ) : Option Instruction :=
  match image.decodeAt m.pointer.toNat, (m.stepTo w image st).fault with
  | .ok (i, _), none => some i
  | _, _ => none

/-- The values that a step compares, if it completes a comparison. -/
def compared? (w : Writer σ) (image : Image) (m : Machine) (st : σ) : Option (Int32 × Int32) :=
  (m.completed? w image st).bind m.operands?

/-- **A comparison asks for marks of its operands, and nothing else asks for marks.** -/
theorem effect_marks (m : Machine) (i : Instruction) :
    (∃ a b, m.operands? i = some (a, b) ∧ m.effect i = .mark (compare a b)) ∨
      m.operands? i = none ∧ ∀ result, m.effect i ≠ .mark result := by
  cases i with
  | alu op src dst =>
    cases op with
    | compare => exact .inl ⟨_, _, rfl, rfl⟩
    | divide =>
      -- a division asks for a value or fails
      refine .inr ⟨rfl, fun result h => ?_⟩
      change (if m.value src = 0 then Effect.divideByZero else .assign dst _) = _ at h
      by_cases hzero : m.value src = 0
      · rw [if_pos hzero] at h
        cases h
      · rw [if_neg hzero] at h
        cases h
    | _ => exact .inr ⟨rfl, fun result h => by cases h⟩
  | jump condition target =>
    -- a jump tests the marks and leaves them
    refine .inr ⟨rfl, fun result h => ?_⟩
    change (if m.flags.satisfy condition = true then Effect.jump target else .pass) = _ at h
    by_cases hc : m.flags.satisfy condition = true
    · rw [if_pos hc] at h
      cases h
    · rw [if_neg hc] at h
      cases h
  | _ => exact .inr ⟨rfl, fun result h => by cases h⟩

/-- Whatever else an instruction asks for, the marks stay. -/
theorem flags_applyTo {last : Pointer} {e : Effect} (h : ∀ result, e ≠ .mark result) :
    (m.applyTo w st last e).machine.flags = m.flags := by
  cases e with
  | mark result => exact absurd rfl (h result)
  | print v =>
    -- taken in full or cut, a line moves the pointer only
    rcases w.covers_print st (line v) with ⟨hcomplete, -⟩ | ⟨hcut, -⟩
    · rw [applyTo_print_of_complete hcomplete]
      rfl
    · rw [applyTo_print_of_cut hcut]
      rfl
  | _ => rfl

/-- Where nothing is read, nothing is compared. -/
theorem compared?_of_error {cause : DecodeError}
    (hd : image.decodeAt m.pointer.toNat = .error cause) : m.compared? w image st = none := by
  unfold compared? completed?
  rw [hd]
  rfl

/-- Where an instruction without operands to compare is read, nothing is compared, whether it
completes or fails. -/
theorem compared?_of_none {i : Instruction} {n : Nat}
    (hd : image.decodeAt m.pointer.toNat = .ok (i, n)) (h : m.operands? i = none) :
    m.compared? w image st = none := by
  unfold compared? completed?
  rw [hd]
  cases (m.stepTo w image st).fault with
  | none => exact h
  | some fault => rfl

/-- A comparison that is read completes. -/
theorem compared?_of_some {i : Instruction} {n : Nat} {a b : Int32}
    (hd : image.decodeAt m.pointer.toNat = .ok (i, n)) (h : m.operands? i = some (a, b))
    (heffect : m.effect i = .mark (compare a b)) :
    m.compared? w image st = some (a, b) := by
  have hfault : (m.stepTo w image st).fault = none := by
    rw [stepTo_of_decodeAt hd, heffect]
    rfl
  unfold compared? completed?
  rw [hd, hfault]
  exact h

/-- **A step leaves the marks of the comparison it completes**, and else those it found. -/
theorem flags_stepTo {latest : Option (Int32 × Int32)} (h : m.flags = .latest latest) :
    (m.stepTo w image st).machine.flags = .latest ((m.compared? w image st).or latest) := by
  cases hd : image.decodeAt m.pointer.toNat with
  | error cause =>
    rw [compared?_of_error hd, stepTo_of_error hd]
    exact h
  | ok read =>
    obtain ⟨i, n⟩ := read
    rcases effect_marks m i with ⟨a, b, hoperands, heffect⟩ | ⟨hnone, heffect⟩
    · rw [compared?_of_some hd hoperands heffect, stepTo_of_decodeAt hd, heffect]
      rfl
    · rw [compared?_of_none hd hnone, stepTo_of_decodeAt hd, flags_applyTo heffect]
      exact h

/-! ## §3. Many steps. -/

/-- The machine behind a step for each state of the writer, whether they complete or fail. -/
def after (w : Writer σ) (image : Image) (m : Machine) : List σ → Machine
  | [] => m
  | st :: rest => after w image (m.stepTo w image st).machine rest

/-- The values that these steps compare, each pair as it is when it is compared. -/
def history (w : Writer σ) (image : Image) (m : Machine) : List σ → List (Int32 × Int32)
  | [] => []
  | st :: rest =>
    (m.compared? w image st).toList ++ history w image (m.stepTo w image st).machine rest

/-- **Steps leave the marks of the latest comparison among them**, and else those they found. -/
theorem flags_after (w : Writer σ) (image : Image) (sts : List σ) :
    ∀ {m : Machine} {latest : Option (Int32 × Int32)}, m.flags = .latest latest →
      (m.after w image sts).flags = .latest ((m.history w image sts).getLast?.or latest) := by
  -- induction on the steps, from any machine whose marks go with some comparison before
  induction sts with
  | nil => exact fun h => h
  | cons st rest ih =>
    intro m latest h
    -- what the first step compares counts only if no later step compares anything
    have hlast : (m.history w image (st :: rest)).getLast?
        = ((m.stepTo w image st).machine.history w image rest).getLast?.or
            (m.compared? w image st) := by
      show ((m.compared? w image st).toList ++ _).getLast? = _
      rw [List.getLast?_append]
      congr 1
      cases m.compared? w image st <;> rfl
    rw [hlast, Option.or_assoc]
    exact ih (flags_stepTo h)

/-- The steps of a session are such steps. -/
theorem exists_after (image : Image) (n : Nat) : ∀ s : Session, ∃ rooms : List (Option Nat),
    rooms.length = n ∧
      ((fun s : Session => (s.step image).1)^[n] s).machine
        = s.machine.after Output.writer image rooms := by
  induction n with
  | zero => exact fun s => ⟨[], rfl, rfl⟩
  | succ n ih =>
    intro s
    obtain ⟨rooms, hlength, hmachine⟩ := ih (s.step image).1
    refine ⟨s.output.room :: rooms, by rw [List.length_cons, hlength], ?_⟩
    -- the state of the writer is the room that the output has at that moment
    rw [Function.iterate_succ_apply, hmachine, step_eq_stepTo]
    rfl

/-! ## §4. Jumps. -/

/-- **A jump completes, and it is taken exactly if its condition holds** of the values compared
last. -/
theorem stepTo_of_jump {condition : JumpCondition} {target : UInt32} {n : Nat}
    {latest : Option (Int32 × Int32)} (h : m.flags = .latest latest)
    (hd : image.decodeAt m.pointer.toNat = .ok (.jump condition target, n)) :
    (m.stepTo w image st).fault = none ∧
      (condition.TakenAfter latest → (m.stepTo w image st).machine = m.goto target.toUInt64) ∧
      (¬ condition.TakenAfter latest →
        (m.stepTo w image st).machine = m.goto (m.pointer + 6)) := by
  have hn : n = 6 := Image.size_of_decodeAt hd
  have heffect : m.effect (.jump condition target)
      = if m.flags.satisfy condition then .jump target else .pass := rfl
  rw [stepTo_of_decodeAt hd, heffect, ← Flags.satisfy_latest, ← h, hn]
  by_cases hc : m.flags.satisfy condition = true
  · rw [if_pos hc]
    exact ⟨rfl, fun _ => rfl, fun hnot => absurd hc hnot⟩
  · rw [if_neg hc]
    refine ⟨rfl, fun htaken => absurd htaken hc, fun _ => ?_⟩
    -- a jump that is not taken moves behind its last byte
    show m.goto ((m.pointer.lastByte 6).forward 1) = _
    unfold Pointer.lastByte
    rw [Pointer.forward_back]
    rfl

/-- The marks of two values are one mark, which says how they stand to each other. -/
theorem Flags.latest_some (a b : Int32) :
    (Flags.latest (some (a, b))).marks.length = 1 ∧
      ((Flags.latest (some (a, b))).less = true ↔ a.toInt < b.toInt) ∧
      ((Flags.latest (some (a, b))).zero = true ↔ a.toInt = b.toInt) ∧
      ((Flags.latest (some (a, b))).greater = true ↔ a.toInt > b.toInt) := by
  refine ⟨marks_ofComparison _, ?_⟩
  show ((Flags.ofComparison (compare a b)).less = true ↔ _) ∧ _
  simp [latest, Source.ofComparison_compare]

theorem Flags.latest_eq_empty {compared : Option (Int32 × Int32)} :
    Flags.latest compared = {} ↔ compared = none := by
  cases compared with
  | none => exact ⟨fun _ => rfl, fun _ => rfl⟩
  | some values =>
    constructor
    · intro h
      -- one mark is set
      have hone := (latest_some values.1 values.2).1
      rw [h] at hone
      cases hone
    · intro h
      cases h

/-- **The marks are those of the latest comparison, and jumps are decided by it.**  A new machine
is asked for any number of steps, on any image and with any writer in any states; some may fail.
Then no mark is set exactly if no comparison was completed.  Otherwise one mark is set, which says
how the values that were compared last stood to each other, as signed numbers and as they were at
that moment.  A jump that is executed then completes, and it goes to its target if its condition
holds of these two values and behind itself otherwise; before any comparison only `jmp`, `jne` and
`jnz` are taken.  The steps of a session are such steps, whatever its output. -/
theorem marks_are_the_latest_comparison (w : Writer σ) (image : Image) (sts : List σ) :
    let m := ({} : Machine).after w image sts
    let compared := ({} : Machine).history w image sts
    (m.flags = {} ↔ compared = []) ∧
    (∀ a b, compared.getLast? = some (a, b) →
      m.flags.marks.length = 1 ∧ (m.flags.less = true ↔ a.toInt < b.toInt) ∧
        (m.flags.zero = true ↔ a.toInt = b.toInt) ∧
        (m.flags.greater = true ↔ a.toInt > b.toInt)) ∧
    (∀ condition target n, image.decodeAt m.pointer.toNat = .ok (.jump condition target, n) →
      ∀ st, (m.stepTo w image st).fault = none ∧
        (condition.TakenAfter compared.getLast? →
          (m.stepTo w image st).machine = m.goto target.toUInt64) ∧
        (¬ condition.TakenAfter compared.getLast? →
          (m.stepTo w image st).machine = m.goto (m.pointer + 6))) ∧
    ∀ (output : Output) (n : Nat), ∃ rooms : List (Option Nat), rooms.length = n ∧
      ((fun s : Session => (s.step image).1)^[n] { output }).machine
        = ({} : Machine).after Output.writer image rooms := by
  intro m compared
  have hflags : m.flags = .latest compared.getLast? := by
    have hnew : ({} : Machine).flags = .latest none := rfl
    have h := flags_after w image sts hnew
    rwa [Option.or_none] at h
  refine ⟨?_, ?_, fun _ _ _ hd _ => stepTo_of_jump hflags hd, ?_⟩
  · rw [hflags, Flags.latest_eq_empty, List.getLast?_eq_none_iff]
  · intro a b hlast
    rw [hflags, hlast]
    exact Flags.latest_some a b
  · exact fun output n => exists_after image n { output }

/-- Zeros are compared, then a print fails, and its last byte increments the register.  The mark is
still that of equal values, and `je` is taken.  A new machine does not take it. -/
theorem marks_are_the_latest_comparison_equal :
    let image : Image :=
      #[0x64, 0xfe, 0, 0, 0, 0, 0xbf, 0xfe, 0, 0, 0, 0x90, 0xc0, 0x11, 0, 0, 0, 6]
    let m := ({} : Machine).after Output.writer image [none, some 0, none]
    m.registers.get .r0 = 1 ∧ m.flags.zero = true ∧
      (m.stepTo Output.writer image none).machine = m.goto 6 ∧
      (({} : Machine).stepTo Output.writer #[0xc0, 0x11, 0, 0, 0, 0] none).machine
        = { pointer := 6 } := by
  intro image m
  obtain ⟨-, hmarks, hjumps, -⟩ :=
    marks_are_the_latest_comparison Output.writer image [none, some 0, none]
  have hm : m = { registers := { r0 := 1 }, flags := { zero := true }, pointer := 12 } := by
    decide +kernel
  have hlast : (({} : Machine).history Output.writer image [none, some 0, none]).getLast?
      = some (0, 0) := by
    decide +kernel
  have hd : image.decodeAt m.pointer.toNat = .ok (.jump .equal 6, 6) := by
    rw [hm]
    cbv
  obtain ⟨-, htaken, -⟩ := hjumps .equal 6 6 hd none
  have hnew : Image.decodeAt #[0xc0, 0x11, 0, 0, 0, 0] 0 = .ok (.jump .equal 0, 6) := by cbv
  obtain ⟨-, -, hbehind⟩ :=
    (marks_are_the_latest_comparison Output.writer #[0xc0, 0x11, 0, 0, 0, 0] []).2.2.1
      .equal 0 6 hnew none
  refine ⟨by rw [hm]; rfl, (hmarks 0 0 hlast).2.2.1.mpr rfl, htaken ?_, hbehind ?_⟩
  · rw [hlast]
    rfl
  · rintro (h | h | h) <;> cases h

end Machine

end ByteMachine
