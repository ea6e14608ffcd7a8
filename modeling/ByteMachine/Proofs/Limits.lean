/-
  ByteMachine.Proofs.Limits — runs with a limit and the run without one.

  A machine is driven by two loops.  One takes at most so many steps; the other has no limit and
  ends when the machine does.  The second is given here as a relation (`Session.Finishes`), for it
  need not end.  That the loops agree comes from what one step more does: a machine that does not
  go on stays as it is, a step that fails is the last, and any other is followed by the rest.

    • `runFor_add` — a run that did not fail can be gone on with,
    • `runFor_of_finishes`, `not_ended_of_finishes` — what a limit changes and what it does not,
    • `returns_run_iff` — what a caller who asks for a run to the end is given back,
    • `runFor_behind` — a run prints behind what was printed before, and does nothing else with it,
    • `emulator_of_load` — what the emulator leaves behind is one such run,
    • `limited_runs_agree` — so the emulator with a limit does what the run without one does, or
      says that it did not come to the end.
-/
import ByteMachine.Proofs.Calls
import ByteMachine.Proofs.Printed

namespace ByteMachine.Machine

/-! ## §1. One step more. -/

/-- A run that comes after so many steps of another. -/
def Run.after (r : Run) (steps : Nat) : Run := { r with steps := steps + r.steps }

theorem Run.after_after (r : Run) (m n : Nat) : (r.after m).after n = r.after (n + m) := by
  show Run.mk _ (n + (m + r.steps)) _ = Run.mk _ (n + m + r.steps) _
  rw [Nat.add_assoc]
  rfl

/-- A run that has not ended did not fault, and its machine goes on. -/
theorem Run.not_ended_iff {image : Image} {r : Run} :
    ¬ r.Ended image ↔ r.fault = none ∧ r.session.running image = true := by
  unfold Run.Ended
  rw [not_or, Bool.not_eq_true, Bool.not_eq_false, Option.isSome_eq_false_iff,
    Option.isNone_iff_eq_none]

namespace Session

variable {image : Image} {s t : Session} {r : Run} {fault : Fault} {limit n : Nat}

/-- The steps taken before are counted, and decide nothing else. -/
theorem runFrom_add (image : Image) (limit : Nat) : ∀ (m n : Nat) (s : Session),
    s.runFrom image (m + n) limit = (s.runFrom image n limit).after m := by
  induction limit with
  | zero => exact fun _ _ _ => rfl
  | succ limit ih =>
    intro m n s
    cases s.next image with
    | stopped h => rw [runFrom_of_not_running h, runFrom_of_not_running h]; rfl
    | failed hr h => rw [runFrom_of_fault hr h, runFrom_of_fault hr h]; rfl
    | goesOn hr h =>
      rw [runFrom_of_goesOn hr h, runFrom_of_goesOn hr h]
      exact ih m (n + 1) _

theorem runFor_of_stopped (h : s.running image = false) : s.runFor image limit = ⟨s, 0, none⟩ :=
  runFrom_of_not_running h

theorem runFor_of_failed (hr : s.running image = true) (h : s.step image = (t, some fault)) :
    s.runFor image (limit + 1) = ⟨t, 1, some fault⟩ :=
  runFrom_of_fault hr h

/-- A first step that completes is followed by a run of the others. -/
theorem runFor_of_goesOn (hr : s.running image = true) (h : s.step image = (t, none)) :
    s.runFor image (limit + 1) = (t.runFor image limit).after 1 := by
  rw [runFor, runFrom_of_goesOn hr h]
  exact runFrom_add image limit 1 0 t

/-! ## §2. Going on. -/

/-- **A run that did not fail can be gone on with**: the steps add up, and the rest is as in a run
of all the steps. -/
theorem runFor_add (m : Nat) : ∀ {s : Session}, (s.runFor image m).fault = none → ∀ n,
    s.runFor image (m + n)
      = ((s.runFor image m).session.runFor image n).after (s.runFor image m).steps := by
  induction m with
  | zero =>
    intro s _ n
    rw [Nat.zero_add]
    show _ = Run.mk _ (0 + _) _
    rw [Nat.zero_add]
    rfl
  | succ m ih =>
    intro s hfault n
    rw [Nat.succ_add]
    cases s.next image with
    | stopped h => simp only [runFor_of_stopped h]; rfl
    | failed hr h =>
      rw [runFor_of_failed hr h] at hfault
      cases hfault
    | goesOn hr h =>
      rw [runFor_of_goesOn hr h] at hfault ⊢
      rw [runFor_of_goesOn hr h, ih hfault n, Run.after_after]
      rfl

/-- A run that has not ended has taken all its steps. -/
theorem steps_of_not_ended (m : Nat) : ∀ {s : Session}, ¬ (s.runFor image m).Ended image →
    (s.runFor image m).steps = m := by
  induction m with
  | zero => exact fun _ => rfl
  | succ m ih =>
    intro s hended
    cases s.next image with
    | stopped h =>
      rw [runFor_of_stopped h] at hended
      exact absurd (.inr h) hended
    | failed hr h =>
      rw [runFor_of_failed hr h] at hended
      exact absurd (.inl rfl) hended
    | goesOn hr h =>
      rw [runFor_of_goesOn hr h] at hended ⊢
      show 1 + _ = _
      rw [ih hended, Nat.add_comm]

/-! ## §3. Without a limit. -/

/-- The loop without a limit: as long as the machine goes on it takes a step, and a step that fails
is the last. -/
inductive Finishes (image : Image) : Session → Run → Prop where
  | stopped {s : Session} (h : s.running image = false) : Finishes image s ⟨s, 0, none⟩
  | failed {s t : Session} {fault : Fault} (hr : s.running image = true)
      (h : s.step image = (t, some fault)) : Finishes image s ⟨t, 1, some fault⟩
  | goesOn {s t : Session} {r : Run} (hr : s.running image = true)
      (h : s.step image = (t, none)) (rest : Finishes image t r) : Finishes image s (r.after 1)

/-- A run without a limit that finishes has ended. -/
theorem Finishes.ended (h : Finishes image s r) : r.Ended image := by
  induction h with
  | stopped h => exact .inr h
  | failed _ _ => exact .inl rfl
  | goesOn _ _ _ ih => exact ih

/-- **A limit that is large enough changes nothing.** -/
theorem runFor_of_finishes (h : Finishes image s r) : ∀ {n : Nat}, r.steps ≤ n →
    s.runFor image n = r := by
  induction h with
  | stopped h => exact fun _ => runFor_of_stopped h
  | failed hr h =>
    intro n hn
    obtain ⟨n, rfl⟩ : ∃ m, n = m + 1 := ⟨n - 1, (Nat.sub_add_cancel hn).symm⟩
    exact runFor_of_failed hr h
  | goesOn hr h _ ih =>
    rename_i r _
    intro n hn
    change 1 + r.steps ≤ n at hn
    obtain ⟨n, rfl⟩ : ∃ m, n = m + 1 := ⟨n - 1, by omega⟩
    rw [runFor_of_goesOn hr h, ih (by omega)]

/-- A run that has ended is what the run without a limit finishes with. -/
theorem finishes_of_ended (m : Nat) : ∀ {s : Session}, (s.runFor image m).Ended image →
    Finishes image s (s.runFor image m) := by
  induction m with
  | zero =>
    intro s hended
    rcases hended with h | h
    · cases h
    · exact .stopped h
  | succ m ih =>
    intro s hended
    cases s.next image with
    | stopped h => rw [runFor_of_stopped h]; exact .stopped h
    | failed hr h => rw [runFor_of_failed hr h]; exact .failed hr h
    | goesOn hr h =>
      rw [runFor_of_goesOn hr h] at hended ⊢
      exact .goesOn hr h (ih hended)

/-- **A limit that is too small cuts the run short**: it has not ended. -/
theorem not_ended_of_finishes (h : Finishes image s r) (hn : n < r.steps) :
    ¬ (s.runFor image n).Ended image := by
  intro hended
  -- otherwise the run without a limit would finish in two ways, with a different number of steps
  have hle := steps_runFor_le image n s
  have hfirst := runFor_of_finishes (finishes_of_ended n hended) (Nat.le_trans hle hn.le)
  have hsteps := congrArg Run.steps (hfirst.symm.trans (runFor_of_finishes h (Nat.le_refl _)))
  omega

/-- A run that has ended takes no more steps. -/
theorem runFor_of_ended {m : Nat} (h : (s.runFor image n).Ended image) (hle : n ≤ m) :
    s.runFor image m = s.runFor image n :=
  runFor_of_finishes (finishes_of_ended n h) (Nat.le_trans (steps_runFor_le image n s) hle)

/-- A run that has not ended takes one step more. -/
theorem runFor_succ (h : ¬ (s.runFor image n).Ended image) :
    let next := (s.runFor image n).session.step image
    s.runFor image (n + 1) = ⟨next.1, n + 1, next.2⟩ := by
  intro next
  obtain ⟨hfault, hrunning⟩ := Run.not_ended_iff.mp h
  rw [runFor_add n hfault 1, steps_of_not_ended n h]
  cases (s.runFor image n).session.next image with
  | stopped hs => exact absurd (.inr hs) h
  | failed hr hs =>
    rw [runFor_of_failed hr hs, show next = _ from hs]
    rfl
  | goesOn hr hs =>
    rw [runFor_of_goesOn hr hs, show next = _ from hs]
    rfl

/-- The last of some steps, if the run goes on behind it. -/
theorem step_of_not_ended (h : ¬ (s.runFor image (n + 1)).Ended image) :
    ¬ (s.runFor image n).Ended image
      ∧ (s.runFor image n).session.step image = ((s.runFor image (n + 1)).session, none) := by
  have hbefore : ¬ (s.runFor image n).Ended image := by
    intro hended
    have hle := Nat.le_succ_of_le (steps_runFor_le image n s)
    rw [runFor_of_finishes (finishes_of_ended n hended) hle] at h
    exact h hended
  refine ⟨hbefore, ?_⟩
  rw [runFor_add n (Run.not_ended_iff.mp hbefore).1] at h ⊢
  cases (s.runFor image n).session.next image with
  | stopped hs => exact absurd (.inr hs) hbefore
  | failed hr hs =>
    rw [runFor_of_failed hr hs] at h
    exact absurd (.inl rfl) h
  | goesOn hr hs =>
    rw [hs, runFor_of_goesOn hr hs]
    rfl

/-- A run to the end gives back what the run without a limit finishes with. -/
theorem returns_run_iff {outcome : Option Fault} :
    Returns image s .run t outcome ↔ ∃ k, Finishes image s ⟨t, k, outcome⟩ := by
  constructor
  · intro h
    cases h with
    | @run limit r h ended =>
      subst h
      exact ⟨_, finishes_of_ended limit ended⟩
  · rintro ⟨k, h⟩
    exact .run (runFor_of_finishes h (Nat.le_refl k)) h.ended

end Session

/-! ## §4. What was printed before. -/

/-- An output with a text in front of all that was written. -/
def Output.behind (o : Output) (text : String) : Output := { o with written := text ++ o.written }

theorem Output.write_behind (o : Output) (before text : String) :
    (o.behind before).write text = (o.write text).behind before := by
  show Output.mk _ (before ++ o.written ++ _) = Output.mk _ (before ++ (o.written ++ _))
  rw [String.append_assoc]
  rfl

namespace Session

variable {image : Image}

/-- A session with a text in front of all that was printed. -/
def behind (s : Session) (text : String) : Session := { s with output := s.output.behind text }

/-- A session that prints to a new output, with the room that is left in the old one. -/
def afresh (s : Session) : Session := { s with output := { room := s.output.room } }

theorem behind_afresh (s : Session) : s.afresh.behind s.output.written = s := by
  show Session.mk _ ⟨_, s.output.written ++ ""⟩ = s
  rw [String.append_empty]
  rfl

/-- No effect depends on what was printed before. -/
theorem apply_behind (s : Session) (text : String) (last : Pointer) (e : Effect) :
    (s.behind text).apply last e = ((s.apply last e).1.behind text, (s.apply last e).2) := by
  cases e with
  | print v =>
    by_cases hf : s.output.fits (line v).length = true
    · have hbehind : (s.behind text).output.fits (line v).length = true := hf
      rw [apply_print_of_fits hf, apply_print_of_fits hbehind]
      exact congrArg (fun o => (Session.mk _ o, none)) (s.output.write_behind text _)
    · have hbehind : ¬ (s.behind text).output.fits (line v).length = true := hf
      rw [apply_print_of_not_fits hf, apply_print_of_not_fits hbehind]
      exact congrArg (fun o => (Session.mk _ o, some Fault.output)) (s.output.write_behind text _)
  | _ => rfl

theorem step_behind (image : Image) (s : Session) (text : String) :
    (s.behind text).step image = ((s.step image).1.behind text, (s.step image).2) := by
  cases hd : image.decodeAt s.machine.pointer.toNat with
  | error cause => rw [step_of_error hd, step_of_error (s := s.behind text) hd]
  | ok read =>
    obtain ⟨i, n⟩ := read
    rw [step_of_decodeAt hd, step_of_decodeAt (s := s.behind text) hd]
    exact s.apply_behind text _ _

/-- **A run prints behind what was printed before**, and does nothing else with it. -/
theorem runFor_behind (image : Image) (text : String) (limit : Nat) : ∀ s : Session,
    (s.behind text).runFor image limit
      = { s.runFor image limit with session := (s.runFor image limit).session.behind text } := by
  induction limit with
  | zero => exact fun _ => rfl
  | succ limit ih =>
    intro s
    have hstep := step_behind image s text
    cases s.next image with
    | stopped h =>
      rw [runFor_of_stopped h, runFor_of_stopped (s := s.behind text) h]
    | failed hr h =>
      rw [h] at hstep
      rw [runFor_of_failed hr h, runFor_of_failed (s := s.behind text) hr hstep]
    | goesOn hr h =>
      rw [h] at hstep
      rw [runFor_of_goesOn hr h, runFor_of_goesOn (s := s.behind text) hr hstep, ih]
      rfl

/-- What a run prints to a new output is what it adds to the old one. -/
theorem runFor_eq_afresh (s : Session) (limit : Nat) :
    s.runFor image limit
      = { s.afresh.runFor image limit with
            session := (s.afresh.runFor image limit).session.behind s.output.written } := by
  have h := runFor_behind image s.output.written limit s.afresh
  rwa [behind_afresh] at h

end Session

end ByteMachine.Machine

/-! ## §5. Runs and command lines. -/

namespace ByteMachine.CommandLine

open Assembly (textLines)
open Emulator (exitStatus load work)
open Machine (Session)

theorem emulator_of_options {directory : Directory} {arguments : List String}
    {o : Emulator.Options} (ho : Emulator.Options.ofArguments arguments = .ok o) :
    emulator directory arguments
      = (work o (directory.look o.image)).outcome o.level directory := by
  unfold emulator
  rw [ho]

/-- What the emulator leaves behind when the image can be loaded. -/
theorem emulator_of_load {directory : Directory} {arguments : List String} {o : Emulator.Options}
    {image : Image} (ho : Emulator.Options.ofArguments arguments = .ok o)
    (h : load o (directory.look o.image) = .ok image) :
    let run := Session.runFor image o.steps {}
    (emulator directory arguments).output = run.session.output.written
      ∧ (emulator directory arguments).status = exitStatus run
      ∧ (emulator directory arguments).lines
        = shownLines o.level (work o (directory.look o.image)).lines := by
  have hwork : (work o (directory.look o.image)).output
        = (Session.runFor image o.steps {}).session.output.written
      ∧ (work o (directory.look o.image)).status
        = exitStatus (Session.runFor image o.steps {}) := by
    rw [Emulator.work_of_load h]
    exact ⟨rfl, rfl⟩
  rw [emulator_of_options ho]
  exact ⟨hwork.1, hwork.2, rfl⟩

/-- **Runs with a limit agree with the run without one.**  From any session a run that did not fail
can be gone on with: the session, the fault and the number of steps are those of one run of all the
steps, and the output is that of the first followed by that of the second.  Where the run without a
limit finishes, each limit that is large enough gives the same, the greatest one among them; with a
smaller one all its steps are taken, and the machine neither stops nor faults.  So the emulator with
a large enough limit prints what the run without one does and ends with its status.  Among the lines
about its work there is one that says that the machine was stopped after so many instructions
exactly if the number is the limit, warnings are shown, no step within the limit failed and the
machine would go on. -/
theorem limited_runs_agree (image : Image) (s : Session) :
    (∀ n m, (s.runFor image n).fault = none →
      let first := s.runFor image n
      let second := first.session.afresh.runFor image m
      s.runFor image (n + m) = ⟨second.session.behind first.session.output.written,
        first.steps + second.steps, second.fault⟩) ∧
    (∀ r, s.Finishes image r →
      (∀ n, r.steps ≤ n → s.runFor image n = r) ∧
      (r.steps ≤ Session.stepBound → s.run image = r) ∧
      ∀ n, n < r.steps → ¬ (s.runFor image n).Ended image ∧ (s.runFor image n).steps = n) ∧
    ∀ directory arguments o n, Emulator.Options.ofArguments arguments = .ok o →
      o.limit = some n → load o (directory.look o.image) = .ok image →
        let seen := emulator directory arguments
        let run := Session.runFor image n {}
        (∀ r, Session.Finishes image {} r → r.steps ≤ n →
          seen.output = r.session.output.written ∧ seen.status = exitStatus r) ∧
        ∀ m : Nat, "WARN octet_emu: Stopped after " ++ Text.decimal m ++ " instructions"
            ∈ textLines seen.lines
          ↔ m = n ∧ o.level.shows .warn = true ∧ run.fault = none
            ∧ run.session.running image = true := by
  refine ⟨fun n m h => ?_, fun r h => ?_, fun directory arguments o n ho hn h => ?_⟩
  · rw [Session.runFor_add n h, Session.runFor_eq_afresh _ m]
    rfl
  · refine ⟨fun n => Session.runFor_of_finishes h, Session.runFor_of_finishes h, fun n hn => ?_⟩
    have hnot := Session.not_ended_of_finishes h hn
    exact ⟨hnot, Session.steps_of_not_ended n hnot⟩
  · have hsteps : o.steps = n := by
      unfold Emulator.Options.steps
      rw [hn]
      rfl
    obtain ⟨houtput, hstatus, hlines⟩ := emulator_of_load ho h
    rw [hsteps] at houtput hstatus
    refine ⟨fun r hr hle => ?_, fun m => ?_⟩
    · rw [houtput, hstatus, Session.runFor_of_finishes hr hle]
      exact ⟨rfl, rfl⟩
    · rw [hlines, ← hsteps]
      exact Emulator.stoppedAfter_mem_iff h

/-- A number is printed, and behind it stands a byte that is no opcode.  With two steps the fault is
met on the last of them, and it is all that is said; with one the machine is cut short in front of
it. -/
theorem limited_runs_agree_fault :
    let image : Image := #[0xbf, 0xfe, 0, 0, 0, 7, 0]
    let directory : Directory := ⟨[("a", image)]⟩
    let run : Machine.Run := ⟨⟨{ pointer := 6 }, { written := "7\n" }⟩, 2,
      some (.decode (.badOpcode 0 6))⟩
    let seen := fun limit => emulator directory ["--tmax", limit, "a"]
    Session.Finishes image {} run ∧
      (Session.runFor image 1 {}).fault = none ∧
      Session.runFor image (1 + 1) {} = run ∧
      Emulator.Options.ofArguments ["--tmax", "2", "a"] = .ok ⟨"a", false, false, some 2, .warn⟩ ∧
      (seen "2").output = "7\n" ∧ (seen "2").status = 1 ∧
      "WARN octet_emu: Stopped after 2 instructions" ∉ textLines (seen "2").lines ∧
      (seen "2").lines = "ERROR octet_emu: Invalid opcode 0x00 at offset 6.\n" ∧
      "WARN octet_emu: Stopped after 1 instructions" ∈ textLines (seen "1").lines := by
  intro image directory run seen
  have hrun : Session.runFor image 2 {} = run := by decide +kernel
  have hfirst : (Session.runFor image 1 {}).fault = none := by decide +kernel
  have hfinishes : Session.Finishes image {} run :=
    hrun ▸ Session.finishes_of_ended 2 (.inl (by rw [hrun]; rfl))
  have htwo : Emulator.Options.ofArguments ["--tmax", "2", "a"]
      = .ok ⟨"a", false, false, some 2, .warn⟩ := by
    cbv
  have hone : Emulator.Options.ofArguments ["--tmax", "1", "a"]
      = .ok ⟨"a", false, false, some 1, .warn⟩ := by
    cbv
  have hload : ∀ limit, load ⟨"a", false, false, limit, .warn⟩ (directory.look "a")
      = .ok image := by
    intro limit
    cbv
  obtain ⟨hadd, -, hemulator⟩ := limited_runs_agree image {}
  obtain ⟨hwork, hsilent⟩ := hemulator directory _ _ 2 htwo rfl (hload _)
  obtain ⟨-, hwarns⟩ := hemulator directory _ _ 1 hone rfl (hload _)
  obtain ⟨houtput, hstatus⟩ := hwork run hfinishes (Nat.le_refl 2)
  refine ⟨hfinishes, hfirst, (hadd 1 1 hfirst).trans (by decide +kernel), htwo, houtput, hstatus,
    fun hm => ?_, ?_, (hwarns 1).mpr ⟨rfl, rfl, hfirst, by decide +kernel⟩⟩
  · obtain ⟨-, -, hfault, -⟩ := (hsilent 2).mp hm
    rw [hrun] at hfault
    cases hfault
  · obtain ⟨-, -, hlines⟩ := emulator_of_load htwo (hload _)
    rw [hlines, Emulator.work_of_load (hload _)]
    decide +kernel

end ByteMachine.CommandLine
