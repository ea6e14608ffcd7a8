/-
  ByteMachine.Proofs.Calls — a machine that is called again and again, whatever its calls come to.

  A caller is not bound to stop at a fault: it may ask for a step or for a run once more, and finds
  the machine as the last call left it.  What holds after any such calls is what each single step
  keeps, whether it completes or fails:

    • `Session.Returns` — what a call gives back,
    • `Session.Leads` — what calls lead to, one after another,
    • `Leads.keeps` — what every step keeps, all calls keep,
    • `Session.StandsStill` — no call changes anything any more, and how each ends is known;
      `standsStill_of_stopped` and `standsStill_of_fault` say when this is so.
-/
import ByteMachine.Proofs.Steps

namespace ByteMachine.Machine

/-! ## §1. Calls. -/

/-- Something that a machine is asked for. -/
inductive Call where
  /-- One step, whether the machine is running or not. -/
  | step
  /-- A run to the machine's end. -/
  | run
  /-- A run of at most so many steps. -/
  | runFor (limit : Nat)
  deriving DecidableEq, Repr

/-- The run is over: by a fault, or because the machine does not go on. -/
def Run.Ended (image : Image) (r : Run) : Prop :=
  r.fault.isSome = true ∨ r.session.running image = false

namespace Session

/-- What a call gives back: the session it leaves, and its fault if it had one.  A run to the end
gives back what a run that is long enough does, and nothing if no run is. -/
inductive Returns (image : Image) (s : Session) : Call → Session → Option Fault → Prop where
  | step {t : Session} {fault : Option Fault} (h : s.step image = (t, fault)) :
      Returns image s .step t fault
  | run {limit : Nat} {r : Run} (h : s.runFor image limit = r) (ended : r.Ended image) :
      Returns image s .run r.session r.fault
  | runFor {limit : Nat} {r : Run} (h : s.runFor image limit = r) :
      Returns image s (.runFor limit) r.session r.fault

/-- What calls lead to, one after another, whether they fail or not. -/
inductive Leads (image : Image) (s : Session) : Session → Prop where
  | start : Leads image s s
  | call {c : Call} {t u : Session} {fault : Option Fault} (before : Leads image s t)
      (last : Returns image t c u fault) : Leads image s u

variable {image : Image} {s t u : Session} {fault : Fault} {steps limit : Nat}

/-! ## §2. What calls keep. -/

/-- What every step keeps, a run keeps. -/
theorem keeps_runFrom {P : Session → Prop} (hstep : ∀ s, P s → P (s.step image).1)
    (limit : Nat) : ∀ (steps : Nat) (s : Session), P s → P (s.runFrom image steps limit).session := by
  -- induction on the steps that are left, from any session a run may have come to
  induction limit with
  | zero => exact fun _ _ hs => hs
  | succ limit ih =>
    intro steps s hs
    have hnext := hstep s hs
    cases s.next image with
    | stopped h => rwa [runFrom_of_not_running h]
    | failed hr h =>
      -- a step that failed counts too: the run ends with what it left
      rw [h] at hnext
      rwa [runFrom_of_fault hr h]
    | goesOn hr h =>
      rw [h] at hnext
      rw [runFrom_of_goesOn hr h]
      exact ih (steps + 1) _ hnext

theorem Returns.keeps {P : Session → Prop} (hstep : ∀ s, P s → P (s.step image).1) {c : Call}
    {fault : Option Fault} (h : Returns image s c t fault) (hs : P s) : P t := by
  cases h with
  | step h =>
    have hnext := hstep s hs
    rwa [h] at hnext
  | run h => exact h ▸ keeps_runFrom hstep _ 0 s hs
  | runFor h => exact h ▸ keeps_runFrom hstep _ 0 s hs

/-- **What every step keeps, all calls keep.** -/
theorem Leads.keeps {P : Session → Prop} (hstep : ∀ s, P s → P (s.step image).1)
    (h : Leads image s t) (hs : P s) : P t := by
  induction h with
  | start => exact hs
  | call _ last ih => exact last.keeps hstep ih

/-- A step behind other calls. -/
theorem Leads.step (h : Leads image s t) : Leads image s (t.step image).1 :=
  .call h (.step rfl)

/-- Completed steps behind calls. -/
theorem Leads.reaches (h : Leads image s t) (hr : Reaches image t u) : Leads image s u := by
  induction hr with
  | start => exact h
  | step _ last ih =>
    have hstep := ih.step
    rwa [last] at hstep

/-- A call that ends with a fault ends with a step that does. -/
theorem step_of_returns {c : Call} (h : Returns image s c t (some fault)) :
    ∃ u, Reaches image s u ∧ u.step image = (t, some fault) := by
  -- a run of any length is steps that complete, and then perhaps one that fails
  have hrun : ∀ limit, ∀ r : Run, s.runFor image limit = r → r.fault = some fault →
      ∃ u, Reaches image s u ∧ u.step image = (r.session, some fault) := by
    rintro limit _ rfl hf
    unfold runFor at hf ⊢
    obtain ⟨u, hu, hlast | ⟨other, ho, -, hlast⟩⟩ := runFrom_reaches limit 0 s
    · rw [hlast] at hf
      cases hf
    · obtain rfl : other = fault := Option.some.inj (ho.symm.trans hf)
      exact ⟨u, hu, hlast⟩
  generalize hfault : some fault = outcome at h
  cases h with
  | step h => exact ⟨s, .start, hfault ▸ h⟩
  | run h _ => exact hfault ▸ hrun _ _ h hfault.symm
  | runFor h => exact hfault ▸ hrun _ _ h hfault.symm

/-! ## §3. Standing still. -/

/-- From here on no call changes anything, and each ends as `answer` says. -/
def StandsStill (image : Image) (s : Session) (answer : Call → Option Fault) : Prop :=
  (∀ t, Leads image s t → t = s) ∧
    ∀ c t fault, Returns image s c t fault ↔ t = s ∧ fault = answer c

end Session

namespace Call

/-- Only a step comes to something; a run finds nothing to do. -/
def onlyStep (outcome : Option Fault) : Call → Option Fault
  | .step => outcome
  | .run => none
  | .runFor _ => none

/-- Every call fails in the same way, unless it is for no step at all. -/
def anyStep (fault : Fault) : Call → Option Fault
  | .step => some fault
  | .run => some fault
  | .runFor limit => if limit = 0 then none else some fault

end Call

namespace Session

variable {image : Image} {s t : Session} {fault : Fault}

/-- Where a step leaves the session as it is, all calls do. -/
theorem eq_of_leads {outcome : Option Fault} (hstep : s.step image = (s, outcome))
    (h : Leads image s t) : t = s :=
  h.keeps (P := (· = s)) (fun u hu => by rw [hu, hstep]) rfl

/-- **A machine that does not go on stands still** where a step leaves it as it is. -/
theorem standsStill_of_stopped {outcome : Option Fault} (hr : s.running image = false)
    (hstep : s.step image = (s, outcome)) : StandsStill image s (Call.onlyStep outcome) := by
  -- a run has nothing to do, whatever its limit
  have hrun : ∀ limit, s.runFor image limit = ⟨s, 0, none⟩ := fun _ => runFrom_of_not_running hr
  refine ⟨fun t => eq_of_leads hstep, fun c t fault => ⟨?_, ?_⟩⟩
  · intro h
    cases h with
    | step h => cases hstep.symm.trans h; exact ⟨rfl, rfl⟩
    | run h => cases (hrun _).symm.trans h; exact ⟨rfl, rfl⟩
    | runFor h => cases (hrun _).symm.trans h; exact ⟨rfl, rfl⟩
  · rintro ⟨rfl, rfl⟩
    cases c with
    | step => exact .step hstep
    | run => exact .run (hrun 0) (.inr hr)
    | runFor limit => exact .runFor (hrun limit)

/-- **A machine that would go on stands still** where a step fails and leaves it as it is. -/
theorem standsStill_of_fault (hr : s.running image = true)
    (hstep : s.step image = (s, some fault)) : StandsStill image s (Call.anyStep fault) := by
  -- a run ends with its first step, if it is for a step at all
  have hnone : s.runFor image 0 = ⟨s, 0, none⟩ := rfl
  have hrun : ∀ limit, s.runFor image (limit + 1) = ⟨s, 1, some fault⟩ :=
    fun _ => runFrom_of_fault hr hstep
  refine ⟨fun t => eq_of_leads hstep, fun c t outcome => ⟨?_, ?_⟩⟩
  · intro h
    cases h with
    | step h => cases hstep.symm.trans h; exact ⟨rfl, rfl⟩
    | @run limit _ h ended =>
      cases limit with
      | zero =>
        -- a running machine has not come to its end before its first step
        cases hnone.symm.trans h
        rcases ended with h | h
        · cases h
        · cases hr.symm.trans h
      | succ limit => cases (hrun limit).symm.trans h; exact ⟨rfl, rfl⟩
    | @runFor limit _ h =>
      cases limit with
      | zero => cases hnone.symm.trans h; exact ⟨rfl, rfl⟩
      | succ limit => cases (hrun limit).symm.trans h; exact ⟨rfl, rfl⟩
  · rintro ⟨rfl, rfl⟩
    cases c with
    | step => exact .step hstep
    | run => exact .run (hrun 0) (.inl rfl)
    | runFor limit =>
      cases limit with
      | zero => exact .runFor hnone
      | succ limit => exact .runFor (hrun limit)

end Session

end ByteMachine.Machine
