/-
  ByteMachine.Proofs.Forward — programs that only jump forward come to an end.

  No number in a machine goes down from step to step, and its loop has no limit.  What grows is the
  pointer: an instruction has at least one byte, so a machine that goes on behind it has moved on,
  and one that jumps forward has too; a `halt` stays where it is, but is the last.  A machine that
  goes on stands inside its image, so there are no more steps than bytes.

    • `pointer_lt_of_step` — one completed step moves the pointer on,
    • `offsetAfter_lt`, `le_offsetAfter` — so does a run, by at least one byte for each step,
    • `finishes_of_onward` — so a run that jumps forward finishes,
    • `onward_of_ahead` — a source whose labels stand behind the jumps to them jumps forward,
    • `forward_jumps_terminate` — so it is executed line by line, no line twice.
-/
import ByteMachine.Proofs.Closed
import ByteMachine.Proofs.Limits
import ByteMachine.Proofs.Lockstep

namespace ByteMachine.Machine

/-! ## §1. Jumps of a run. -/

/-- The offset of the next instruction once a run has taken so many steps. -/
def Session.offsetAfter (image : Image) (s : Session) (n : Nat) : Nat :=
  (s.runFor image n).session.machine.pointer.toNat

/-- The machine goes on, and does so by taking a jump to this target. -/
def Session.Jumping (image : Image) (s : Session) (target : UInt32) : Prop :=
  s.running image = true ∧ ∃ condition n,
    image.decodeAt s.machine.pointer.toNat = .ok (.jump condition target, n)
      ∧ s.machine.flags.satisfy condition = true

/-- Every jump that is taken in the run of a session leads forward. -/
def Session.Onward (image : Image) (s : Session) : Prop :=
  ∀ n target, (s.runFor image n).fault = none →
    (s.runFor image n).session.Jumping image target → s.offsetAfter image n < target.toNat

namespace Session

variable {image : Image} {s t : Session}

/-- **One completed step moves the pointer on**, unless it is the last or jumps back. -/
theorem pointer_lt_of_step (ha : Addressable image) (hr : s.running image = true)
    (h : s.step image = (t, none)) (ht : t.running image = true)
    (hjump : ∀ target, s.Jumping image target → s.machine.pointer.toNat < target.toNat) :
    s.machine.pointer.toNat < t.machine.pointer.toNat := by
  obtain ⟨i, n, hd, hp⟩ := pointer_of_step h
  have hpos := Image.decodeAt_pos hd
  have hle := Image.le_size_of_decodeAt hd
  rcases hp with ⟨condition, target, rfl, hc, hto⟩ | ⟨hhalted, -⟩ | hto
  · rw [hto, UInt32.toNat_toUInt64]
    exact hjump target ⟨hr, condition, n, hd, hc⟩
  · -- a machine that halted does not go on
    cases hhalted.symm.trans (running_iff.mp ht).1
  · rw [hto, Pointer.toNat_behind (Nat.lt_of_le_of_lt hle ha)]
    omega

/-! ## §2. Runs that jump forward. -/

/-- The pointer moves on with each step of a run. -/
theorem offsetAfter_lt_succ (ha : Addressable image) (ho : s.Onward image) {n : Nat}
    (h : ¬ (s.runFor image (n + 1)).Ended image) :
    s.offsetAfter image n < s.offsetAfter image (n + 1) := by
  obtain ⟨hbefore, hstep⟩ := step_of_not_ended h
  obtain ⟨hfault, hr⟩ := Run.not_ended_iff.mp hbefore
  obtain ⟨-, ht⟩ := Run.not_ended_iff.mp h
  exact pointer_lt_of_step ha hr hstep ht fun target hj => ho n target hfault hj

/-- **No offset is come to twice.** -/
theorem offsetAfter_lt (ha : Addressable image) (ho : s.Onward image) {i : Nat} : ∀ {j : Nat},
    i < j → ¬ (s.runFor image j).Ended image →
      s.offsetAfter image i < s.offsetAfter image j := by
  intro j
  induction j with
  | zero => exact fun hij => absurd hij (Nat.not_lt_zero i)
  | succ j ih =>
    intro hij h
    have hlast := offsetAfter_lt_succ ha ho h
    rcases Nat.lt_succ_iff_lt_or_eq.mp hij with hij | rfl
    · exact (ih hij (step_of_not_ended h).1).trans hlast
    · exact hlast

/-- Each step moves the pointer by at least one byte. -/
theorem le_offsetAfter (ha : Addressable image) (ho : s.Onward image) {n : Nat}
    (h : ¬ (s.runFor image n).Ended image) : n ≤ s.offsetAfter image n := by
  induction n with
  | zero => exact Nat.zero_le _
  | succ n ih =>
    exact Nat.succ_le_of_lt (Nat.lt_of_le_of_lt (ih (step_of_not_ended h).1)
      (offsetAfter_lt_succ ha ho h))

/-- A run that jumps forward has ended when it has taken a step for each byte. -/
theorem ended_of_onward (ha : Addressable image) (ho : s.Onward image) :
    (s.runFor image image.size).Ended image := by
  by_contra h
  have hle := le_offsetAfter ha ho h
  have hlt := (running_iff.mp (Run.not_ended_iff.mp h).2).2
  exact absurd hlt (Nat.not_lt.mpr hle)

/-- **A run that only jumps forward comes to an end**, in no more steps than the image has bytes. -/
theorem finishes_of_onward (ha : Addressable image) (ho : s.Onward image) :
    s.Finishes image (s.run image) ∧ (s.run image).steps ≤ image.size := by
  have hfinishes := finishes_of_ended _ (ended_of_onward ha ho)
  have hsteps := steps_runFor_le image image.size s
  have hbound : image.size ≤ stepBound := Nat.le_sub_one_of_lt ha
  have hrun : s.run image = s.runFor image image.size :=
    runFor_of_finishes hfinishes (hsteps.trans hbound)
  rw [hrun]
  exact ⟨hfinishes, hsteps⟩

end Session

end ByteMachine.Machine

namespace ByteMachine.Source

open Assembly
open Machine (Addressable Session)

/-! ## §3. Sources that jump forward. -/

/-- The last definition of each jump's label stands behind the jump. -/
def Ahead (nodes : List Tree) : Prop :=
  ∀ before word name after, nodes = before ++ .line [.mnemonic word, .label name] :: after →
    ∃ between, beforeLast? name nodes
      = some (before ++ .line [.mnemonic word, .label name] :: between)

variable {nodes : List Tree} {image : Image}

/-- The line of a number, with what stands before it and behind it. -/
theorem split_of_getElem? {k : Nat} {s : Statement} (h : (statements nodes)[k]? = some s) :
    ∃ before line after, nodes = before ++ .line line :: after
      ∧ codeSize before = lineOffset nodes k ∧ Says line s := by
  obtain ⟨hlt, hs⟩ := List.getElem?_eq_some_iff.mp h
  have hsplit : nodes.filterMap Tree.statement?
      = (statements nodes).take k ++ s :: (statements nodes).drop (k + 1) := by
    rw [← hs, ← List.drop_eq_getElem_cons hlt, List.take_append_drop]
    rfl
  obtain ⟨first, rest, hnodes, hfirst, hrest⟩ := List.filterMap_eq_append_iff.mp hsplit
  obtain ⟨labels, node, after, rfl, hlabels, hnode, -⟩ := List.filterMap_eq_cons_iff.mp hrest
  obtain ⟨line, rfl, hl⟩ := Tree.line_of_statement? hnode
  refine ⟨first ++ labels, line, after, by rw [hnodes, List.append_assoc], ?_, ofLine_iff.mp hl⟩
  have hbefore : statements (first ++ labels) = (statements nodes).take k := by
    rw [statements_append]
    show first.filterMap Tree.statement? ++ labels.filterMap Tree.statement? = _
    rw [hfirst, List.filterMap_eq_nil_iff.mpr hlabels, List.append_nil]
  unfold codeSize lineOffset
  rw [hbefore]

theorem lineOffset_mono {k l : Nat} (h : k ≤ l) : lineOffset nodes k ≤ lineOffset nodes l := by
  obtain ⟨d, rfl⟩ := Nat.exists_eq_add_of_le h
  unfold lineOffset
  rw [List.take_add, List.map_append, List.sum_append]
  exact Nat.le_add_right _ _

/-- The label of a line that jumps ahead stands for a later offset. -/
theorem lineOffset_lt_of_ahead (ha : Ahead nodes) {k : Nat} {condition : JumpCondition}
    {name : String} (h : (statements nodes)[k]? = some (.jump condition name))
    {before : List Tree} (hb : beforeLast? name nodes = some before) :
    lineOffset nodes k < codeSize before := by
  obtain ⟨first, line, after, hnodes, hfirst, hsays⟩ := split_of_getElem? h
  cases hsays with
  | jump =>
    obtain ⟨between, hlast⟩ := ha first _ _ after hnodes
    obtain rfl := Option.some.inj (hb.symm.trans hlast)
    have hsize : codeSize (.line [.mnemonic condition.mnemonic, .label name] :: between)
        = Instruction.jumpSize + codeSize between := by
      have hs := Tree.statement?_line (ofLine_iff.mpr (.jump condition name))
      unfold codeSize statements
      rw [List.filterMap_cons_some hs]
      rfl
    rw [codeSize_append, hfirst, hsize]
    exact Nat.lt_add_of_pos_right (Nat.add_pos_left (by decide) _)

/-- The machine stands at the line that the source has come to. -/
theorem offsetAfter_eq (hl : Loaded nodes image) {n : Nat}
    (h : (Session.runFor image n {}).fault = none) :
    Session.offsetAfter image {} n = lineOffset nodes (run nodes n {}).state.line :=
  (lockStep_from hl n 0 {} {} (.start nodes)).pointer h

/-- A machine that goes on has come to a line. -/
theorem line_lt (hl : Loaded nodes image) {n : Nat}
    (h : (Session.runFor image n {}).fault = none)
    (hr : (Session.runFor image n {}).session.running image = true) :
    (run nodes n {}).state.line < (lines nodes).length := by
  have hwithin := (lockStep_from hl n 0 {} {} (.start nodes)).within
  refine (hl.lineOffset_lt_iff hwithin).mp ?_
  rw [← offsetAfter_eq hl h]
  exact (Session.running_iff.mp hr).2

/-- **A source whose labels stand behind the jumps to them jumps forward.** -/
theorem onward_of_ahead (hl : Loaded nodes image) (ha : Ahead nodes) :
    Session.Onward image {} := by
  rintro n target hfault ⟨hr, condition, size, hread, -⟩
  have hlt := line_lt hl hfault hr
  change image.decodeAt (Session.offsetAfter image {} n) = _ at hread
  rw [offsetAfter_eq hl hfault] at hread ⊢
  rw [length_lines hl.readable] at hlt
  -- the line that the machine stands at is the jump it takes
  have hs := List.getElem?_eq_getElem hlt
  obtain ⟨i, hi, -, hd⟩ := hl.decodeAt hs
  have hreduce := (Prod.mk.inj (Except.ok.inj (hd.symm.trans hread))).1
  obtain rfl := Instruction.eq_jump_of_reduce hreduce
  generalize (statements nodes)[(run nodes n {}).state.line] = s at hs hi
  cases s with
  | plain i =>
    cases hi
    exact absurd rfl (plain_ne_jump (List.mem_of_getElem? hs) condition target)
  | jump condition name =>
    obtain ⟨offset, ho, hjump⟩ := TwoPass.jump_of_resolve hi
    obtain ⟨before, hb, rfl⟩ := Option.map_eq_some_iff.mp ho
    cases hjump
    have hshort : codeSize before < 2 ^ 32 :=
      Nat.lt_of_le_of_lt (codeSize_le_of_beforeLast? hb) (hl.size_image ▸ hl.short)
    rw [UInt32.toNat_ofNat', Nat.mod_eq_of_lt hshort]
    exact lineOffset_lt_of_ahead ha hs hb

/-! ## §4. Termination. -/

/-- **Programs that only jump forward come to an end.**  If every jump that is taken in a run leads
behind itself, the run ends, behind the image, with a halt or with a fault; it takes no more steps
than the image has bytes, and no two of them are at one offset.  In the run of a source that is
assembled below 2³² bytes, and in which the last definition of each jump's label stands behind the
jump, each step is that of a line, and no line is executed twice.  So a run without an end takes a
jump to its own offset or an earlier one. -/
theorem forward_jumps_terminate :
    (∀ (image : Image) (s : Session), Addressable image → s.Onward image →
      s.Finishes image (s.run image) ∧ (s.run image).steps ≤ image.size ∧
      ∀ i j, i < j → j < (s.run image).steps →
        s.offsetAfter image i < s.offsetAfter image j) ∧
    (∀ (source : String) (nodes : List Tree) (image : Image), assemble source = .ok image →
      image.size < 2 ^ 32 → Tree.ofSource source = .ok (.root nodes) → Ahead nodes →
      Session.Finishes image {} (Session.run image {}) ∧
      ∀ j, j < (Session.run image {}).steps →
        (run nodes j {}).state.line < (lines nodes).length ∧
        Session.offsetAfter image {} j = lineOffset nodes (run nodes j {}).state.line ∧
        ∀ i, i < j → (run nodes i {}).state.line < (run nodes j {}).state.line) ∧
    (∀ (image : Image) (s : Session), Addressable image → (∀ r, ¬ s.Finishes image r) →
      ∃ n target, (s.runFor image n).fault = none ∧
        (s.runFor image n).session.Jumping image target ∧
        target.toNat ≤ s.offsetAfter image n) := by
  refine ⟨fun image s ha ho => ?_, fun source nodes image h hsize ht hahead => ?_,
    fun image s ha hendless => ?_⟩
  · obtain ⟨hfinishes, hsteps⟩ := Session.finishes_of_onward ha ho
    exact ⟨hfinishes, hsteps, fun i j hij hj =>
      Session.offsetAfter_lt ha ho hij (Session.not_ended_of_finishes hfinishes hj)⟩
  · have ha : Addressable image := hsize.trans (by decide)
    have hl := loaded_of_source h ht hsize
    have ho := onward_of_ahead hl hahead
    obtain ⟨hfinishes, -⟩ := Session.finishes_of_onward ha ho
    refine ⟨hfinishes, fun j hj => ?_⟩
    have hgoes : ∀ {i}, i ≤ j → (Session.runFor image i {}).fault = none
        ∧ (Session.runFor image i {}).session.running image = true := fun hij =>
      Machine.Run.not_ended_iff.mp
        (Session.not_ended_of_finishes hfinishes (Nat.lt_of_le_of_lt hij hj))
    obtain ⟨hfault, hr⟩ := hgoes (Nat.le_refl j)
    refine ⟨line_lt hl hfault hr, offsetAfter_eq hl hfault, fun i hij => ?_⟩
    -- a later offset is that of a later line
    have hlt := Session.offsetAfter_lt ha ho hij (Session.not_ended_of_finishes hfinishes hj)
    rw [offsetAfter_eq hl (hgoes hij.le).1, offsetAfter_eq hl hfault] at hlt
    exact Nat.lt_of_not_le fun hle => absurd hlt (Nat.not_lt.mpr (lineOffset_mono hle))
  · by_contra hnone
    -- a run without such a jump only jumps forward
    have ho : s.Onward image := by
      intro n target hfault hj
      by_contra hle
      exact hnone ⟨n, target, hfault, hj, Nat.not_lt.mp hle⟩
    exact hendless _ (Session.finishes_of_onward ha ho).1

/-- A jump over a print: both lines that are executed are, once each.  And a jump to its own offset,
which is endless. -/
theorem forward_jumps_terminate_over :
    let source := "jmp @b\nprib #1\n@b:\nprib #2\n"
    let image : Image := #[0xc0, 0x10, 0, 0, 0, 12, 0xbf, 0xfe, 0, 0, 0, 1, 0xbf, 0xfe, 0, 0, 0, 2]
    let circle : Image := #[0xc0, 0x10, 0, 0, 0, 0]
    assemble source = .ok image ∧ Session.Onward image {} ∧
      (Session.run image {}).steps ≤ 18 ∧ Session.Finishes image {} (Session.run image {}) ∧
      (∀ r, ¬ Session.Finishes circle {} r) ∧
      ∃ n target, (Session.runFor circle n {}).session.Jumping circle target := by
  intro source image circle
  obtain ⟨himages, hsources, hendless⟩ := forward_jumps_terminate
  have ht : Tree.ofSource source = .ok (.root [.line [.mnemonic "jmp", .label "b"],
      .line [.mnemonic "prib", .integer 1], .label "b",
      .line [.mnemonic "prib", .integer 2]]) := by
    cbv
  have ha : assemble source = .ok image := by
    show (Tree.ofSource source >>= Tree.assemble) = _
    rw [ht]
    rfl
  have hsize : image.size < 2 ^ 32 := by decide
  have hahead : Ahead [.line [.mnemonic "jmp", .label "b"], .line [.mnemonic "prib", .integer 1],
      .label "b", .line [.mnemonic "prib", .integer 2]] := by
    -- only the first line holds a label behind its word
    rintro (_ | ⟨_, _ | ⟨_, _ | ⟨_, _ | ⟨_, before⟩⟩⟩⟩) word name after h
    · cases h
      exact ⟨[.line [.mnemonic "prib", .integer 1]], rfl⟩
    all_goals simp at h
  have ho := onward_of_ahead (loaded_of_source ha ht hsize) hahead
  obtain ⟨hfinishes, -⟩ := hsources source _ image ha hsize ht hahead
  obtain ⟨-, hsteps, -⟩ := himages image {} (show 18 < UInt64.size by decide) ho
  have hcircle : ∀ r, ¬ Session.Finishes circle {} r := by
    -- each step leaves the machine as it is new
    have hstep : Session.step circle {} = ({}, none) := by decide +kernel
    intro r h
    generalize hs : ({} : Session) = s at h
    induction h with
    | stopped h => subst hs; cases h
    | failed _ h => subst hs; cases hstep.symm.trans h
    | goesOn _ h _ ih => subst hs; cases hstep.symm.trans h; exact ih rfl
  obtain ⟨n, target, -, hjump, -⟩ := hendless circle {} (show 6 < UInt64.size by decide) hcircle
  exact ⟨ha, ho, hsteps, hfinishes, hcircle, n, target, hjump⟩

end ByteMachine.Source
