/-
  ByteMachine.Proofs.Outcome — work in stages, each of which may fail.

  Work that succeeds as a whole has succeeded at every stage; these lemmas take such work apart.
  Work on the items of a list stops at the first item that fails (`mapM_error_iff`), and so does
  work that carries a state along, if what fails does not depend on the state (`foldlM_error_iff`).
-/

namespace ByteMachine

variable {ε α β σ : Type}

/-- Where two stages in sequence succeed, both did. -/
theorem ok_of_bind {x : Except ε α} {f : α → Except ε β} {b : β} (h : x >>= f = .ok b) :
    ∃ a, x = .ok a ∧ f a = .ok b := by
  cases x with
  | error e => cases h
  | ok a => exact ⟨a, rfl, h⟩

/-- Where work with its result changed succeeds, the work did. -/
theorem ok_of_map {x : Except ε α} {f : α → β} {b : β} (h : x.map f = .ok b) :
    ∃ a, x = .ok a ∧ f a = b := by
  cases x with
  | error e => cases h
  | ok a => exact ⟨a, rfl, Except.ok.inj h⟩

/-- Each result of work on the items of a list is that of one of the items. -/
theorem mem_of_mapM {f : α → Except ε β} {b : β} :
    ∀ {as : List α} {bs : List β}, as.mapM f = .ok bs → b ∈ bs → ∃ a ∈ as, f a = .ok b := by
  intro as
  induction as with
  | nil => intro bs h hb; cases h; cases hb
  | cons a as ih =>
    intro bs h hb
    rw [List.mapM_cons] at h
    obtain ⟨b', hb', h⟩ := ok_of_bind h
    obtain ⟨bs', hbs', h⟩ := ok_of_bind h
    cases h
    rcases List.mem_cons.mp hb with rfl | hb
    · exact ⟨a, List.mem_cons_self, hb'⟩
    · obtain ⟨a', ha', hf⟩ := ih hbs' hb
      exact ⟨a', List.mem_cons_of_mem _ ha', hf⟩

/-- Work on the items of a list succeeds exactly if it succeeds on each of them. -/
theorem exists_mapM_iff {f : α → Except ε β} {as : List α} :
    (∃ bs, as.mapM f = .ok bs) ↔ ∀ a ∈ as, ∃ b, f a = .ok b := by
  induction as with
  | nil => exact ⟨fun _ _ ha => absurd ha List.not_mem_nil, fun _ => ⟨[], rfl⟩⟩
  | cons a as ih =>
    rw [List.forall_mem_cons, ← ih, List.mapM_cons]
    constructor
    · rintro ⟨bs, h⟩
      obtain ⟨b, hb, h⟩ := ok_of_bind h
      obtain ⟨rest, hrest, -⟩ := ok_of_bind h
      exact ⟨⟨b, hb⟩, rest, hrest⟩
    · rintro ⟨⟨b, hb⟩, rest, hrest⟩
      exact ⟨b :: rest, by rw [hb, hrest]; rfl⟩

/-- Other work on the same items succeeds with changed results, if it does so on each item. -/
theorem mapM_ok_map {γ : Type} {f : α → Except ε β} {g : α → Except ε γ} {change : β → γ} :
    ∀ {as : List α} {bs : List β}, (∀ a ∈ as, ∀ b, f a = .ok b → g a = .ok (change b)) →
      as.mapM f = .ok bs → as.mapM g = .ok (bs.map change) := by
  intro as
  induction as with
  | nil => intro bs _ h; cases h; rfl
  | cons a as ih =>
    intro bs hg h
    obtain ⟨ha, has⟩ := List.forall_mem_cons.mp hg
    rw [List.mapM_cons] at h ⊢
    obtain ⟨b, hb, h⟩ := ok_of_bind h
    obtain ⟨rest, hrest, h⟩ := ok_of_bind h
    cases h
    rw [ha b hb, ih has hrest]
    rfl

/-- Other work on the same items has the same results, if it has on each item. -/
theorem mapM_ok_imp {f g : α → Except ε β} {as : List α} {bs : List β}
    (hg : ∀ a ∈ as, ∀ b, f a = .ok b → g a = .ok b) (h : as.mapM f = .ok bs) :
    as.mapM g = .ok bs := by
  have hid : as.mapM g = .ok (bs.map id) := mapM_ok_map hg h
  rwa [List.map_id] at hid

/-- **Work on the items of a list fails exactly as it does on the first item it fails on.** -/
theorem mapM_error_iff {f : α → Except ε β} {e : ε} :
    ∀ {as : List α}, as.mapM f = .error e ↔ ∃ before a after, as = before ++ a :: after
      ∧ (∀ other ∈ before, ∃ b, f other = .ok b) ∧ f a = .error e := by
  intro as
  induction as with
  | nil =>
    constructor
    · intro h
      cases h
    · rintro ⟨before, a, after, h, -⟩
      cases before <;> cases h
  | cons a as ih =>
    rw [List.mapM_cons]
    constructor
    · intro h
      cases ha : f a with
      | error cause =>
        rw [ha] at h
        cases h
        exact ⟨[], a, as, rfl, by simp, ha⟩
      | ok b =>
        rw [ha] at h
        cases hrest : as.mapM f with
        | ok rest => rw [hrest] at h; cases h
        | error cause =>
          rw [hrest] at h
          cases h
          obtain ⟨before, x, after, rfl, hbefore, hx⟩ := ih.mp hrest
          exact ⟨a :: before, x, after, rfl, List.forall_mem_cons.mpr ⟨⟨b, ha⟩, hbefore⟩, hx⟩
    · rintro ⟨before, x, after, hs, hbefore, hx⟩
      cases before with
      | nil =>
        cases hs
        rw [hx]
        rfl
      | cons first before =>
        obtain ⟨rfl, rfl⟩ := List.cons.inj hs
        obtain ⟨⟨b, hb⟩, hbefore⟩ := List.forall_mem_cons.mp hbefore
        rw [hb, ih.mpr ⟨before, x, after, rfl, hbefore, hx⟩]
        rfl

/-- **Work that carries a state along fails exactly as it does on the first item it fails on**, if
it fails on an item in the same way whatever the state is. -/
theorem foldlM_error_iff {f : σ → α → Except ε σ} {Fails : α → ε → Prop}
    (hf : ∀ s a e, f s a = .error e ↔ Fails a e) {e : ε} :
    ∀ {as : List α} {s : σ}, as.foldlM f s = .error e ↔ ∃ before a after,
      as = before ++ a :: after ∧ (∀ other ∈ before, ∀ cause, ¬ Fails other cause) ∧ Fails a e := by
  intro as
  induction as with
  | nil =>
    intro s
    constructor
    · intro h
      cases h
    · rintro ⟨before, a, after, h, -⟩
      cases before <;> cases h
  | cons a as ih =>
    intro s
    rw [List.foldlM_cons]
    cases ha : f s a with
    | error cause =>
      have hfails := (hf s a cause).mp ha
      constructor
      · rintro ⟨⟩
        exact ⟨[], a, as, rfl, by simp, hfails⟩
      · rintro ⟨before, x, after, hs, hbefore, hx⟩
        cases before with
        | nil =>
          obtain ⟨rfl, -⟩ := List.cons.inj hs
          have he := (hf s a e).mpr hx
          rw [ha] at he
          cases he
          rfl
        | cons first before =>
          obtain ⟨rfl, -⟩ := List.cons.inj hs
          exact absurd hfails (hbefore a List.mem_cons_self cause)
    | ok next =>
      have hpasses : ∀ cause, ¬ Fails a cause := by
        intro cause h
        rw [(hf s a cause).mpr h] at ha
        cases ha
      show as.foldlM f next = .error e ↔ _
      rw [ih]
      constructor
      · rintro ⟨before, x, after, rfl, hbefore, hx⟩
        exact ⟨a :: before, x, after, rfl, List.forall_mem_cons.mpr ⟨hpasses, hbefore⟩, hx⟩
      · rintro ⟨before, x, after, hs, hbefore, hx⟩
        cases before with
        | nil =>
          obtain ⟨rfl, -⟩ := List.cons.inj hs
          exact absurd hx (hpasses e)
        | cons first before =>
          obtain ⟨rfl, rfl⟩ := List.cons.inj hs
          exact ⟨before, x, after, rfl, (List.forall_mem_cons.mp hbefore).2, hx⟩

end ByteMachine
