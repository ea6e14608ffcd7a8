/-
  ByteMachine.Proofs.Diagnosis — what is said of a tree that has no image.

  A tree may be built by hand, with any node in any place.  Three things can be wrong with it, and
  they are looked for in this order: the node at the top is no root; a child of the root is neither
  a label nor a line with a meaning; a jump leads to a name that nobody defines.  The second is
  found in all of the tree before the third is looked for in any of it.

    • `Misfit` — what is wrong with a child of a root, one rule for each fault,
    • `addNode_error_iff` — laying out a child fails with its fault, whatever was laid out before,
    • `jumpNames_split` — the jump that a name in the list of jumps comes from,
    • `assemble_error_iff` — the fault of a tree is its `Diagnosis`,
    • `trees_are_diagnosed` — and a tree without one has an image.
-/
import ByteMachine.Proofs.Agreement

namespace ByteMachine.Assembly

variable {nodes : List Tree} {tree node : Tree} {name : String}

/-! ## §1. Children of a root. -/

/-- What a root may hold: labels, and lines of one of the forms. -/
inductive Placeable : Tree → Prop where
  | label (name : String) : Placeable (.label name)
  | line {nodes : List Tree} {s : Statement} (h : Says nodes s) : Placeable (.line nodes)

/-- What is wrong with a child of a root. -/
inductive Misfit : Tree → TreeError → Prop where
  /-- Neither a label nor a line: it is reported by its kind. -/
  | child {node : Tree} (hlabel : ∀ name, node ≠ .label name)
      (hline : ∀ nodes, node ≠ .line nodes) :
      Misfit node (.unexpectedRootChild node.kind)
  /-- A line that is empty or begins with something other than a mnemonic. -/
  | mnemonic {nodes : List Tree} (h : ∀ word operands, nodes ≠ .mnemonic word :: operands) :
      Misfit (.line nodes) .missingMnemonic
  /-- A jump with anything but exactly one label behind its mnemonic. -/
  | jump (condition : JumpCondition) {operands : List Tree} (h : ∀ name, operands ≠ [.label name]) :
      Misfit (.line (.mnemonic condition.mnemonic :: operands))
        (.expectedJumpLabel condition.mnemonic)
  /-- Any other mnemonic, known or not, in a line of none of the forms. -/
  | instruction {word : String} {operands : List Tree}
      (hjump : ∀ condition : JumpCondition, word ≠ condition.mnemonic)
      (h : ∀ s, ¬ Says (.mnemonic word :: operands) s) :
      Misfit (.line (.mnemonic word :: operands)) (.malformedInstruction word)

/-- A child may stand in a root exactly if it is a label or a line that counts. -/
theorem placeable_iff : Placeable node ↔ (node.statement? = none → ∃ name, node = .label name) := by
  constructor
  · rintro (⟨name⟩ | ⟨h⟩) hnone
    · exact ⟨name, rfl⟩
    · rw [Tree.statement?_line (ofLine_iff.mpr h)] at hnone
      cases hnone
  · intro h
    cases hs : node.statement? with
    | none =>
      obtain ⟨name, rfl⟩ := h hs
      exact .label name
    | some s =>
      obtain ⟨line, rfl, hline⟩ := Tree.line_of_statement? hs
      exact .line (ofLine_iff.mp hline)

theorem readable_iff : Readable nodes ↔ ∀ node ∈ nodes, Placeable node := by
  simp only [Readable, placeable_iff]

/-- A word that no condition is found for is the mnemonic of none. -/
theorem ne_mnemonic_of_ofMnemonic? {word : String}
    (h : JumpCondition.ofMnemonic? word = none) (condition : JumpCondition) :
    word ≠ condition.mnemonic := by
  rintro rfl
  rw [JumpCondition.ofMnemonic?_mnemonic] at h
  cases h

/-- **What is said of a line without a meaning.** -/
theorem misfit_of_ofLine {line : List Tree} {e : TreeError}
    (h : Statement.ofLine line = .error e) : Misfit (.line line) e := by
  have hsays : ∀ s, ¬ Says line s := by
    intro s hs
    rw [ofLine_iff.mpr hs] at h
    cases h
  unfold Statement.ofLine at h
  split at h
  · rename_i word operands
    unfold Statement.ofMnemonic at h
    split at h
    · rename_i condition hc
      obtain rfl := eq_mnemonic_of_find? hc
      split at h
      · cases h
      · rename_i hlabel
        cases h
        exact .jump condition hlabel
    · rename_i hc
      split at h
      · cases h
      · cases h
        exact .instruction (ne_mnemonic_of_ofMnemonic? hc) hsays
  · rename_i hline
    cases h
    exact .mnemonic hline

theorem ofLine_of_misfit {line : List Tree} {e : TreeError} (h : Misfit (.line line) e) :
    Statement.ofLine line = .error e := by
  cases h with
  | child _ hline => exact absurd rfl (hline line)
  | mnemonic h =>
    unfold Statement.ofLine
    split
    · exact absurd rfl (h _ _)
    · rfl
  | @jump condition operands h =>
    show Statement.ofMnemonic condition.mnemonic operands = _
    unfold Statement.ofMnemonic
    rw [JumpCondition.ofMnemonic?_mnemonic]
    dsimp only
    split
    · exact absurd rfl (h _)
    · rfl
  | @instruction word operands hjump h =>
    show Statement.ofMnemonic word operands = _
    unfold Statement.ofMnemonic
    -- the word is that of no jump, and the line is of no other form
    cases hc : JumpCondition.ofMnemonic? word with
    | some condition => exact absurd (eq_mnemonic_of_find? hc) (hjump condition)
    | none =>
      cases hp : Statement.plain? word operands with
      | some i => exact absurd (says_of_plain? hp) (h _)
      | none => rfl

/-- **Laying out a child fails with what is wrong with it**, whatever was laid out before. -/
theorem addNode_error_iff {d : Draft} {e : TreeError} :
    d.addNode node = .error e ↔ Misfit node e := by
  cases node with
  | label name =>
    constructor
    · intro h
      cases h
    · rintro ⟨hlabel, -⟩
      exact absurd rfl (hlabel name)
  | line line =>
    have hline : d.addNode (.line line) = .error e ↔ Statement.ofLine line = .error e := by
      cases hs : Statement.ofLine line <;> simp [Draft.addNode, hs]
    rw [hline]
    exact ⟨misfit_of_ofLine, ofLine_of_misfit⟩
  | _ =>
    constructor
    · intro h
      cases h
      exact .child (fun _ he => by cases he) (fun _ he => by cases he)
    · intro h
      cases h
      rfl

/-- A child either may stand in a root, or one thing is wrong with it. -/
theorem misfit_iff : (∃ e, Misfit node e) ↔ ¬ Placeable node := by
  rw [placeable_iff, ← exists_addNode_iff (d := {})]
  simp only [← addNode_error_iff (d := {})]
  cases Draft.addNode {} node with
  | ok next => simp
  | error e => simp

/-! ## §2. Jumps to names. -/

/-- The name that a child of a root jumps to. -/
def Tree.jumpName? (node : Tree) : Option String := node.statement?.bind Statement.target?

theorem jumpNames_eq (nodes : List Tree) : jumpNames nodes = nodes.filterMap Tree.jumpName? :=
  List.filterMap_filterMap

theorem line_of_jumpName? (h : node.jumpName? = some name) :
    ∃ condition : JumpCondition, node = .line [.mnemonic condition.mnemonic, .label name] := by
  obtain ⟨s, hs, ht⟩ := Option.bind_eq_some_iff.mp h
  obtain ⟨line, rfl, hline⟩ := Tree.line_of_statement? hs
  cases s with
  | plain i => cases ht
  | jump condition other =>
    cases ht
    have hform := ofLine_iff.mp hline
    cases hform
    exact ⟨condition, rfl⟩

/-- **A name in the list of jumps comes from one jump**, and those before it from the children
before that. -/
theorem jumpNames_split {before after : List String}
    (h : jumpNames nodes = before ++ name :: after) :
    ∃ first word rest, nodes = first ++ .line [.mnemonic word, .label name] :: rest ∧
      jumpNames first = before := by
  rw [jumpNames_eq] at h
  obtain ⟨first, others, rfl, hfirst, hothers⟩ := List.filterMap_eq_append_iff.mp h
  obtain ⟨between, node, rest, rfl, hbetween, hnode, -⟩ := List.filterMap_eq_cons_iff.mp hothers
  obtain ⟨condition, rfl⟩ := line_of_jumpName? hnode
  refine ⟨first ++ between, condition.mnemonic, rest, by rw [List.append_assoc], ?_⟩
  rw [jumpNames_eq, List.filterMap_append, hfirst, List.filterMap_eq_nil_iff.mpr hbetween,
    List.append_nil]

/-! ## §3. Diagnosis. -/

/-- What is wrong with a tree. -/
inductive Diagnosis : Tree → AssemblyError → Prop where
  | notRoot {tree : Tree} (h : ∀ nodes, tree ≠ .root nodes) :
      Diagnosis tree (.tree (.notRoot tree.kind))
  /-- The first child that may not stand in a root, whatever the jumps before it lead to. -/
  | child {before after : List Tree} {node : Tree} {e : TreeError}
      (hbefore : ∀ other ∈ before, Placeable other) (h : Misfit node e) :
      Diagnosis (.root (before ++ node :: after)) (.tree e)
  /-- The first jump to a name that is no label of the root, if all children may stand there. -/
  | undefined {nodes before after : List Tree} {word name : String}
      (hnodes : ∀ node ∈ nodes, Placeable node)
      (hs : nodes = before ++ .line [.mnemonic word, .label name] :: after)
      (hbefore : ∀ word other, .line [.mnemonic word, .label other] ∈ before →
        .label other ∈ nodes)
      (h : .label name ∉ nodes) :
      Diagnosis (.root nodes) (.undefinedLabel name)

/-- A root is at fault as a tree exactly by the first child that may not stand in it. -/
theorem assemble_tree_error_iff {e : TreeError} :
    (Tree.root nodes).assemble = .error (.tree e) ↔ ∃ before node after,
      nodes = before ++ node :: after ∧ (∀ other ∈ before, Placeable other) ∧ Misfit node e := by
  have hfold : Draft.ofTree (.root nodes) = .error e ↔ ∃ before node after,
      nodes = before ++ node :: after ∧ (∀ other ∈ before, Placeable other) ∧ Misfit node e := by
    have hplace : ∀ other : Tree, (∀ cause, ¬ Misfit other cause) ↔ Placeable other := by
      intro other
      rw [← not_exists, misfit_iff, not_not]
    have hfails : ∀ (d : Draft) (node : Tree) (cause : TreeError),
        d.addNode node = .error cause ↔ Misfit node cause := fun _ _ _ => addNode_error_iff
    simp only [← hplace]
    exact foldlM_error_iff hfails
  rw [← hfold]
  unfold Tree.assemble
  cases hd : Draft.ofTree (.root nodes) with
  | error cause => simp
  | ok d =>
    -- a draft that is laid out can only fail by an undefined name
    constructor
    · intro hf
      obtain ⟨_, _, _, _, _, _, he⟩ := (Draft.lays_of_ofTree hd).finish_error_iff.mp hf
      cases he
    · intro h
      cases h

/-- A root whose children may all stand in it is at fault by the first jump to an undefined name. -/
theorem assemble_undefined_iff (hr : Readable nodes) {e : AssemblyError} :
    (Tree.root nodes).assemble = .error e ↔ ∃ before name after,
      jumpNames nodes = before ++ name :: after ∧ (∀ other ∈ before, .label other ∈ nodes) ∧
      .label name ∉ nodes ∧ .undefinedLabel name = e := by
  obtain ⟨d, hd⟩ := exists_draft_iff.mpr ⟨nodes, rfl, hr⟩
  have hassemble : (Tree.root nodes).assemble = d.finish := by
    unfold Tree.assemble
    rw [hd]
  rw [hassemble]
  exact (Draft.lays_of_ofTree hd).finish_error_iff

/-- **The fault of a tree is its diagnosis.** -/
theorem assemble_error_iff {e : AssemblyError} : tree.assemble = .error e ↔ Diagnosis tree e := by
  by_cases hroot : ∃ nodes, tree = .root nodes
  swap
  · -- no root, so there is nothing to lay out
    push Not at hroot
    have hfails : tree.assemble = .error (.tree (.notRoot tree.kind)) := by
      cases tree with
      | root nodes => exact absurd rfl (hroot nodes)
      | _ => rfl
    rw [hfails]
    constructor
    · rintro ⟨⟩
      exact .notRoot hroot
    · intro h
      cases h with
      | notRoot _ => rfl
      | child _ _ => exact absurd rfl (hroot _)
      | undefined _ _ _ _ => exact absurd rfl (hroot _)
  obtain ⟨nodes, rfl⟩ := hroot
  constructor
  · intro h
    by_cases hr : Readable nodes
    · obtain ⟨before, name, after, hnames, hbefore, hname, rfl⟩ := (assemble_undefined_iff hr).mp h
      obtain ⟨first, word, rest, hs, rfl⟩ := jumpNames_split hnames
      have hfirst : Readable first := fun node hn => hr node (by rw [hs]; simp [hn])
      refine .undefined (readable_iff.mp hr) hs (fun word other ho => ?_) hname
      exact hbefore other ((mem_jumpNames_iff hfirst).mpr ⟨word, ho⟩)
    · -- some child is at fault, and by nothing else could the tree have failed
      obtain ⟨cause, hcause⟩ := exists_tree_error hr
      rw [hcause] at h
      cases h
      obtain ⟨before, node, after, rfl, hbefore, hmisfit⟩ := assemble_tree_error_iff.mp hcause
      exact .child hbefore hmisfit
  · intro h
    cases h with
    | notRoot h => exact absurd rfl (h nodes)
    | child hbefore h => exact assemble_tree_error_iff.mpr ⟨_, _, _, rfl, hbefore, h⟩
    | @undefined _ before after word name hnodes hs hbefore h =>
      have hr := readable_iff.mpr hnodes
      have hjump : (Tree.line [.mnemonic word, .label name]).jumpName? = some name := by
        have hplace : Placeable (.line [.mnemonic word, .label name]) :=
          hnodes _ (by rw [hs]; simp)
        cases hplace with
        | line hsays =>
          rw [Tree.jumpName?, Tree.statement?_line (ofLine_iff.mpr hsays)]
          exact jump_of_says hsays
      refine (assemble_undefined_iff hr).mpr
        ⟨jumpNames before, name, jumpNames after, ?_, ?_, h, rfl⟩
      · rw [hs, jumpNames_eq, List.filterMap_append, List.filterMap_cons_some hjump, jumpNames_eq,
          jumpNames_eq]
      · intro other ho
        have hfirst : Readable before := fun node hn => hr node (by rw [hs]; simp [hn])
        obtain ⟨word, hword⟩ := (mem_jumpNames_iff hfirst).mp ho
        exact hbefore word other hword

/-- **Every tree is diagnosed exactly.**  A tree without an image has the fault that `Diagnosis`
says, and no other: it is no root; or else its first child that may not stand in a root decides,
also behind a jump to a name that is not defined; or else the first jump to a name that is defined
nowhere does.  Of a child that may not stand in a root exactly one thing is said.  A root of labels
and lines of the forms, all of whose jumps lead to labels, has an image. -/
theorem trees_are_diagnosed (tree : Tree) :
    (∀ e, tree.assemble = .error e ↔ Diagnosis tree e) ∧
    ((∃ kind, tree.assemble = .error (.tree (.notRoot kind))) ↔ ∀ nodes, tree ≠ .root nodes) ∧
    (∀ node : Tree, ¬ Placeable node ↔ ∃! e, Misfit node e) ∧
    ((∃ image, tree.assemble = .ok image) ↔
      ∃ nodes, tree = .root nodes ∧ (∀ node ∈ nodes, Placeable node) ∧ tree.Linked) := by
  refine ⟨fun e => assemble_error_iff, ?_, fun node => ?_, ?_⟩
  · constructor
    · rintro ⟨kind, h⟩ nodes rfl
      -- a root is at fault by a child or by a name, and neither of them says that it is none
      cases assemble_error_iff.mp h with
      | notRoot hroot => exact hroot nodes rfl
      | child hbefore hmisfit => cases hmisfit
    · exact fun h => ⟨tree.kind, assemble_error_iff.mpr (.notRoot h)⟩
  · rw [← misfit_iff]
    constructor
    · rintro ⟨e, h⟩
      refine ⟨e, h, fun cause hcause => ?_⟩
      -- laying out the child fails in one way
      have he := addNode_error_iff (d := {}).mpr h
      rw [addNode_error_iff.mpr hcause] at he
      exact Except.error.inj he
    · rintro ⟨e, h, -⟩
      exact ⟨e, h⟩
  · rw [exists_image_iff]
    constructor
    · rintro ⟨nodes, rfl, hr, hall⟩
      exact ⟨nodes, rfl, readable_iff.mp hr, (linked_iff hr).mpr hall⟩
    · rintro ⟨nodes, rfl, hnodes, hlinked⟩
      have hr := readable_iff.mpr hnodes
      exact ⟨nodes, rfl, hr, (linked_iff hr).mp hlinked⟩

/-- A jump that leads nowhere stands before a line that is no line: the line is the fault. -/
example : (Tree.root [.line [.mnemonic "jmp", .label "a"], .line [.root [.label "a"]],
    .integer 1]).assemble = .error (.tree .missingMnemonic) := rfl

end ByteMachine.Assembly
