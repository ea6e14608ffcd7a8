/-
  ByteMachine.Proofs.Renaming — the names of labels leave no trace in an image.

  An image knows offsets, and a draft looks names up for no other purpose.  So two trees have the
  same image if their lines are the same up to the names of labels, and every name that is jumped to
  stands at the same offset in both (`assemble_eq_of_lines`).  No bound on the size is needed, since
  the offsets that a draft notes are the same words in both.

    • `ofLine_rename` — a renamed line means the same, with its label renamed,
    • `beforeLast?_rename` — a renamed name has the same last definition, if no other name becomes
      the same,
    • `assemble_rename` — a renamed tree has the same image, or the same fault renamed,
    • `Thinned.offset` — a definition that no jump needs can be left out,
    • `label_names_are_irrelevant` — both.
-/
import ByteMachine.Proofs.Diagnosis

namespace ByteMachine.Assembly

/-! ## §1. Renamed trees. -/

mutual

/-- The tree with another name in every label, wherever it stands. -/
def Tree.rename (f : String → String) : Tree → Tree
  | .root children => .root (renameAll f children)
  | .label name => .label (f name)
  | .line children => .line (renameAll f children)
  | .mnemonic word => .mnemonic word
  | .register reg => .register reg
  | .integer value => .integer value

/-- The trees with another name in every label. -/
def Tree.renameAll (f : String → String) : List Tree → List Tree
  | [] => []
  | node :: rest => node.rename f :: renameAll f rest

end

/-- The meaning of a line with another name for the label that it jumps to. -/
def Statement.rename (f : String → String) : Statement → Statement
  | .plain i => .plain i
  | .jump condition name => .jump condition (f name)

/-- The fault with another name for a label that is not defined. -/
def AssemblyError.rename (f : String → String) : AssemblyError → AssemblyError
  | .undefinedLabel name => .undefinedLabel (f name)
  | e => e

/-- A name occurs in a tree: a child of the root defines it, or jumps to it. -/
def Tree.Mentions (tree : Tree) (name : String) : Prop :=
  .label name ∈ tree.children ∨ name ∈ jumpNames tree.children

variable {f : String → String} {nodes rest : List Tree} {tree node : Tree} {name : String}

theorem renameAll_eq (f : String → String) (nodes : List Tree) :
    Tree.renameAll f nodes = nodes.map (Tree.rename f) := by
  induction nodes with
  | nil => rfl
  | cons node nodes ih => exact congrArg (_ :: ·) ih

/-! ## §2. Renamed lines. -/

namespace Statement

theorem operand?_rename (f : String → String) (node : Tree) :
    operand? (node.rename f) = operand? node := by
  cases node <;> rfl

theorem operands?_rename (f : String → String) (nodes : List Tree) :
    operands? (nodes.map (Tree.rename f)) = operands? nodes := by
  match nodes with
  | [] => rfl
  | [_] => rfl
  | [src, dst] =>
    cases dst with
    | register reg =>
      show (operand? (src.rename f)).map _ = _
      rw [operand?_rename]
      rfl
    | _ => rfl
  | _ :: dst :: _ :: _ => cases dst <;> rfl

theorem unary?_rename (f : String → String) (op : UnaryOp) (nodes : List Tree) :
    unary? op (nodes.map (Tree.rename f)) = unary? op nodes := by
  match nodes with
  | [] => rfl
  | [node] =>
    cases op with
    | print =>
      show (operand? (node.rename f)).map _ = _
      rw [operand?_rename]
      rfl
    | _ => cases node <;> rfl
  | node :: _ :: _ => cases op <;> cases node <;> rfl

/-- No instruction but a jump looks at a label. -/
theorem plain?_rename (f : String → String) (word : String) (nodes : List Tree) :
    plain? word (nodes.map (Tree.rename f)) = plain? word nodes := by
  unfold plain?
  simp only [operands?_rename, unary?_rename, List.isEmpty_map]

/-- **A renamed line means the same, with its label renamed.** -/
theorem ofLine_rename (f : String → String) (nodes : List Tree) :
    ofLine (nodes.map (Tree.rename f)) = (ofLine nodes).map (rename f) := by
  match nodes with
  | [] => rfl
  | .mnemonic word :: operands =>
    show ofMnemonic word (operands.map (Tree.rename f)) = (ofMnemonic word operands).map (rename f)
    unfold ofMnemonic
    rw [plain?_rename]
    cases JumpCondition.ofMnemonic? word with
    | none => cases plain? word operands <;> rfl
    | some condition =>
      match operands with
      | [] => rfl
      | [node] => cases node <;> rfl
      | node :: _ :: _ => cases node <;> rfl
  | .root _ :: _ => rfl
  | .label _ :: _ => rfl
  | .line _ :: _ => rfl
  | .register _ :: _ => rfl
  | .integer _ :: _ => rfl

@[simp] theorem size_rename (f : String → String) (s : Statement) : (s.rename f).size = s.size := by
  cases s <;> rfl

@[simp] theorem reserve_rename (f : String → String) (s : Statement) :
    (s.rename f).reserve = s.reserve := by
  cases s <;> rfl

end Statement

theorem statement?_rename (f : String → String) (node : Tree) :
    (node.rename f).statement? = node.statement?.map (Statement.rename f) := by
  cases node with
  | line nodes =>
    rw [Tree.rename, renameAll_eq]
    simp only [Tree.statement?, Statement.ofLine_rename]
    cases Statement.ofLine nodes <;> rfl
  | _ => rfl

theorem statements_rename (f : String → String) (nodes : List Tree) :
    statements (nodes.map (Tree.rename f)) = (statements nodes).map (Statement.rename f) := by
  unfold statements
  rw [List.filterMap_map, List.map_filterMap]
  exact List.filterMap_congr fun node _ => statement?_rename f node

/-- The same is wrong with a renamed child. -/
theorem misfit_rename {e : TreeError} : Misfit (node.rename f) e ↔ Misfit node e := by
  rw [← addNode_error_iff (d := {}), ← addNode_error_iff (d := {})]
  cases node with
  | line nodes =>
    rw [Tree.rename, renameAll_eq, Draft.addNode, Draft.addNode, Statement.ofLine_rename]
    cases Statement.ofLine nodes with
    | ok s => simp [Except.map]
    | error cause => simp [Except.map]
  | label name => simp [Tree.rename, Draft.addNode]
  | _ => rfl

theorem placeable_rename : Placeable (node.rename f) ↔ Placeable node := by
  rw [← not_iff_not, ← misfit_iff, ← misfit_iff]
  simp only [misfit_rename]

/-! ## §3. The same lines at the same offsets. -/

/-- A pending jump to a label of another name. -/
def PendingJump.rename (f : String → String) (jump : PendingJump) : PendingJump :=
  { jump with label := f jump.label }

/-- Renamed lines have their jumps where the lines have theirs. -/
theorem jumpsAt_rename (f : String → String) (lines : List Statement) : ∀ offset : Nat,
    (jumpsAt offset (lines.map (Statement.rename f))).map noted
      = ((jumpsAt offset lines).map noted).map (PendingJump.rename f) := by
  induction lines with
  | nil => intro offset; rfl
  | cons line lines ih =>
    intro offset
    cases line with
    | plain i => exact ih (offset + i.size)
    | jump condition name => exact congrArg (_ :: ·) (ih (offset + Instruction.jumpSize))

/-- **Jumps are written alike under other names**, if the names are at the same offsets in the two
tables; the first name that is not defined is the same. -/
theorem patches_rename {labels labels' : LabelTable} : ∀ {jumps : List PendingJump} (code : Image),
    (∀ jump ∈ jumps, labels'.find? (f jump.label) = labels.find? jump.label) →
      (jumps.map (PendingJump.rename f)).foldlM (Draft.patch labels') code
        = (jumps.foldlM (Draft.patch labels) code).mapError (AssemblyError.rename f) := by
  intro jumps
  induction jumps with
  | nil => intro code _; rfl
  | cons jump jumps ih =>
    intro code h
    obtain ⟨hjump, hrest⟩ := List.forall_mem_cons.mp h
    have hfound : labels'.find? (jump.rename f).label = labels.find? jump.label := hjump
    rw [List.map_cons, List.foldlM_cons, List.foldlM_cons, Draft.patch, Draft.patch, hfound]
    cases labels.find? jump.label with
    | none => rfl
    | some target => exact ih _ hrest

/-- **Trees with the same lines at the same offsets.**  If the lines of two roots are the same up to
the names of labels, and each name that is jumped to is at the offset of its new name, then the
images are the same, or the faults are up to the name. -/
theorem assemble_eq_of_lines (hr : Readable nodes) (hr' : Readable rest)
    (hlines : statements rest = (statements nodes).map (Statement.rename f))
    (hoffset : ∀ name ∈ jumpNames nodes,
      (beforeLast? (f name) rest).map codeSize = (beforeLast? name nodes).map codeSize) :
    (Tree.root rest).assemble
      = (Tree.root nodes).assemble.mapError (AssemblyError.rename f) := by
  obtain ⟨d, hd⟩ := exists_draft_iff.mpr ⟨nodes, rfl, hr⟩
  obtain ⟨d', hd'⟩ := exists_draft_iff.mpr ⟨rest, rfl, hr'⟩
  have hlays := Draft.lays_of_ofTree hd
  have hlays' := Draft.lays_of_ofTree hd'
  have hcode : d'.code = d.code := by
    rw [← Array.toList_inj, hlays.code, hlays'.code]
    show reserveAll (statements rest) = reserveAll (statements nodes)
    rw [hlines, reserveAll, List.flatMap_map, reserveAll]
    simp only [Statement.reserve_rename]
  have hpending : d'.pending.toList = d.pending.toList.map (PendingJump.rename f) := by
    rw [hlays.pending, hlays'.pending]
    show (jumpsAt 0 (statements rest)).map noted = _
    rw [hlines]
    exact jumpsAt_rename f _ 0
  have hfind : ∀ jump ∈ d.pending.toList,
      d'.labels.find? (f jump.label) = d.labels.find? jump.label := by
    intro jump hj
    have hname : jump.label ∈ jumpNames nodes := by
      have hnames : d.pending.toList.map (·.label) = jumpNames nodes := by
        rw [hlays.pending]
        exact map_label_noted _ 0
      rw [← hnames]
      exact List.mem_map_of_mem hj
    rw [hlays.find?_eq, hlays'.find?_eq]
    exact congrArg (Option.map _) (hoffset _ hname)
  unfold Tree.assemble
  rw [hd, hd']
  show d'.pending.toList.foldlM (Draft.patch d'.labels) d'.code = _
  rw [hpending, hcode]
  exact patches_rename d.code hfind

/-! ## §4. Renaming. -/

theorem codeSize_eq_of_lines
    (hlines : statements rest = (statements nodes).map (Statement.rename f)) :
    codeSize rest = codeSize nodes := by
  unfold codeSize
  rw [hlines, List.map_map]
  congr 2
  exact funext fun s => s.size_rename f

/-- **A renamed name has the same last definition**, if no other name that is defined becomes the
same. -/
theorem beforeLast?_rename
    (hinj : ∀ other, .label other ∈ nodes → f other = f name → other = name) :
    beforeLast? (f name) (nodes.map (Tree.rename f))
      = (beforeLast? name nodes).map (List.map (Tree.rename f)) := by
  induction nodes with
  | nil => rfl
  | cons node nodes ih =>
    rw [List.map_cons, beforeLast?, beforeLast?,
      ih fun other ho => hinj other (List.mem_cons_of_mem _ ho)]
    cases beforeLast? name nodes with
    | some before => rfl
    | none =>
      have hdefines : (node.rename f).defines (f name) = node.defines name := by
        cases node with
        | label other =>
          show (f other == f name) = (other == name)
          rw [Bool.eq_iff_iff, beq_iff_eq, beq_iff_eq]
          exact ⟨hinj other List.mem_cons_self, congrArg f⟩
        | _ => rfl
      show (if (node.rename f).defines (f name) = true then some [] else none) = _
      rw [hdefines]
      dsimp only
      split <;> rfl

/-- **A renamed tree has the same image**, or the same fault up to the name in it, if no two names
that occur in it become the same. -/
theorem assemble_rename (hf : Set.InjOn f {name | tree.Mentions name}) :
    (tree.rename f).assemble = tree.assemble.mapError (AssemblyError.rename f) := by
  cases tree with
  | root nodes =>
    rw [Tree.rename, renameAll_eq]
    by_cases hr : Readable nodes
    · have hr' : Readable (nodes.map (Tree.rename f)) := by
        rw [readable_iff] at hr ⊢
        intro node hn
        obtain ⟨other, ho, rfl⟩ := List.mem_map.mp hn
        exact placeable_rename.mpr (hr other ho)
      refine assemble_eq_of_lines hr hr' (statements_rename f nodes) fun name hname => ?_
      have hinj : ∀ other, .label other ∈ nodes → f other = f name → other = name :=
        fun other ho heq => hf (.inl ho) (.inr hname) heq
      rw [beforeLast?_rename hinj, Option.map_map]
      exact congrFun (congrArg Option.map
        (funext fun before => codeSize_eq_of_lines (statements_rename f before))) _
    · -- the first child at fault is the same
      obtain ⟨e, he⟩ := exists_tree_error hr
      obtain ⟨before, node, after, rfl, hbefore, hnode⟩ := assemble_tree_error_iff.mp he
      have hrenamed : (Tree.root ((before ++ node :: after).map (Tree.rename f))).assemble
          = .error (.tree e) := by
        refine assemble_tree_error_iff.mpr ⟨before.map (Tree.rename f), node.rename f,
          after.map (Tree.rename f), by rw [List.map_append, List.map_cons], ?_,
          misfit_rename.mpr hnode⟩
        intro other ho
        obtain ⟨child, hc, rfl⟩ := List.mem_map.mp ho
        exact placeable_rename.mpr (hbefore child hc)
      rw [hrenamed, he]
      rfl
  | _ => rfl

/-! ## §5. Definitions that no jump needs. -/

/-- The second list of children is the first one without some definitions: each of them is
overridden by a definition further on, or its name is none of those that are jumped to. -/
inductive Thinned (jumped : List String) : List Tree → List Tree → Prop where
  | nil : Thinned jumped [] []
  | keep (node : Tree) {nodes rest : List Tree} (behind : Thinned jumped nodes rest) :
      Thinned jumped (node :: nodes) (node :: rest)
  | drop {name : String} {nodes rest : List Tree} (h : .label name ∈ nodes ∨ name ∉ jumped)
      (behind : Thinned jumped nodes rest) : Thinned jumped (.label name :: nodes) rest

namespace Thinned

variable {jumped : List String}

theorem sublist (h : Thinned jumped nodes rest) : rest.Sublist nodes := by
  induction h with
  | nil => exact .slnil
  | keep node _ ih => exact ih.cons_cons node
  | drop _ _ ih => exact ih.cons _

/-- The lines are all there. -/
theorem statements_eq (h : Thinned jumped nodes rest) : statements rest = statements nodes := by
  induction h with
  | nil => rfl
  | keep node _ ih =>
    rw [← List.singleton_append, statements_append, ih, ← statements_append]
    rfl
  | drop _ _ ih => exact ih

/-- **A name that is jumped to stays at its offset.** -/
theorem offset (h : Thinned jumped nodes rest) (hname : name ∈ jumped) :
    (beforeLast? name rest).map codeSize = (beforeLast? name nodes).map codeSize := by
  have hcons : ∀ (node : Tree) (before : List Tree),
      codeSize (node :: before) = codeSize [node] + codeSize before := fun node before =>
    codeSize_append [node] before
  induction h with
  | nil => rfl
  | @keep node nodes rest _ ih =>
    rw [beforeLast?, beforeLast?]
    cases hn : beforeLast? name nodes with
    | none =>
      rw [hn] at ih
      rw [Option.map_eq_none_iff.mp ih]
    | some before =>
      rw [hn] at ih
      obtain ⟨before', hb, hsize⟩ := Option.map_eq_some_iff.mp ih
      rw [hb]
      show some (codeSize (node :: before')) = some (codeSize (node :: before))
      rw [hcons, hcons node before, hsize]
  | @drop other nodes rest hdrop _ ih =>
    rw [ih, beforeLast?]
    cases hn : beforeLast? name nodes with
    | some before => rfl
    | none =>
      -- the name has no definition further on, and it is jumped to, so this one is of another name
      have hne : ¬ (Tree.label other).defines name = true := by
        intro hd
        obtain rfl : other = name := eq_of_beq hd
        rcases hdrop with hmem | hnot
        · obtain ⟨before, hb⟩ := exists_beforeLast?_iff.mpr hmem
          rw [hn] at hb
          cases hb
        · exact hnot hname
      rw [if_neg hne]

/-- **Without definitions that no jump needs, an image is the same.** -/
theorem assemble (h : Thinned (jumpNames nodes) nodes rest) {image : Image}
    (himage : (Tree.root nodes).assemble = .ok image) : (Tree.root rest).assemble = .ok image := by
  obtain ⟨others, hothers, hr, -⟩ := exists_image_iff.mp ⟨image, himage⟩
  cases hothers
  have hr' : Readable rest := fun node hn => hr node (h.sublist.subset hn)
  have hlines : statements rest = (statements nodes).map (Statement.rename id) := by
    have hid : Statement.rename id = id := funext fun s => by cases s <;> rfl
    rw [h.statements_eq, hid, List.map_id]
  rw [assemble_eq_of_lines hr hr' hlines fun name hname => h.offset hname, himage]
  rfl

end Thinned

/-- Whether a child is a definition that no jump needs, where the other children stand behind it. -/
def Tree.needless (jumped : List String) (others : List Tree) : Tree → Bool
  | .label name => others.any (·.defines name) || !jumped.contains name
  | _ => false

/-- The children without all definitions that no jump needs. -/
def pruned (jumped : List String) : List Tree → List Tree
  | [] => []
  | node :: rest =>
    if node.needless jumped rest then pruned jumped rest else node :: pruned jumped rest

theorem thinned_pruned (jumped : List String) (nodes : List Tree) :
    Thinned jumped nodes (pruned jumped nodes) := by
  induction nodes with
  | nil => exact .nil
  | cons node nodes ih =>
    rw [pruned]
    split
    · rename_i hneedless
      cases node with
      | label name =>
        refine .drop ?_ ih
        rcases Bool.or_eq_true_iff.mp hneedless with hany | hnot
        · obtain ⟨other, ho, hd⟩ := List.any_eq_true.mp hany
          cases other with
          | label other =>
            obtain rfl : other = name := eq_of_beq hd
            exact .inl ho
          | _ => cases hd
        · exact .inr (by simpa using hnot)
      | _ => cases hneedless
    · exact .keep node ih

/-- **Label names are irrelevant to the image.**  Where no two names that occur in a tree become the
same, the renamed tree has the same image, or is at fault in the same way: by the new name of the
name that is not defined, or by exactly the same fault of a tree.  And an image stays the same
without any of the definitions that are overridden by a later one of the same name or that no jump
refers to, and without all of them. -/
theorem label_names_are_irrelevant (tree : Tree) :
    (∀ f : String → String, Set.InjOn f {name | tree.Mentions name} →
      (∀ image, tree.assemble = .ok image → (tree.rename f).assemble = .ok image) ∧
      (∀ name, tree.assemble = .error (.undefinedLabel name) →
        (tree.rename f).assemble = .error (.undefinedLabel (f name))) ∧
      ∀ e, tree.assemble = .error (.tree e) → (tree.rename f).assemble = .error (.tree e)) ∧
    ∀ image, tree.assemble = .ok image →
      (∀ rest, Thinned (jumpNames tree.children) tree.children rest →
        (Tree.root rest).assemble = .ok image) ∧
      (Tree.root (pruned (jumpNames tree.children) tree.children)).assemble = .ok image := by
  constructor
  · intro f hf
    rw [assemble_rename hf]
    refine ⟨fun image h => ?_, fun name h => ?_, fun e h => ?_⟩
    all_goals
      rw [h]
      rfl
  · intro image h
    obtain ⟨nodes, rfl, -⟩ := exists_image_iff.mp ⟨image, h⟩
    exact ⟨fun rest hrest => hrest.assemble h, (thinned_pruned _ nodes).assemble h⟩

/-- Two names change places.  One of them is defined twice and jumped to, the other is not jumped
to: two of the three definitions can be left out.  And where only one of them is defined, the fault
is a jump to the other. -/
theorem label_names_are_irrelevant_swapped :
    let swap : String → String := fun name => if name = "a" then "b" else "a"
    let tree : Tree := .root [.label "a", .line [.mnemonic "jmp", .label "a"], .label "b",
      .label "a", .line [.mnemonic "halt"]]
    let broken : Tree := .root [.label "b", .line [.mnemonic "jz", .label "a"]]
    let image : Image := #[0xc0, 0x10, 0, 0, 0, 6, 0xf4]
    Set.InjOn swap {name | tree.Mentions name} ∧ tree.assemble = .ok image ∧
      (tree.rename swap).assemble = .ok image ∧
      (Tree.root [.line [.mnemonic "jmp", .label "a"], .label "a",
        .line [.mnemonic "halt"]]).assemble = .ok image ∧
      Set.InjOn swap {name | broken.Mentions name} ∧
      broken.assemble = .error (.undefinedLabel "a") ∧
      (broken.rename swap).assemble = .error (.undefinedLabel "b") := by
  intro swap tree broken image
  have hswap : Set.InjOn swap {"a", "b"} := by simp [Set.InjOn, swap]
  have hjumps : jumpNames tree.children = ["a"] := by rfl
  have hjumps' : jumpNames broken.children = ["a"] := by rfl
  have hinj : Set.InjOn swap {name | tree.Mentions name} := by
    refine hswap.mono ?_
    rintro name (hlabel | hjump)
    · simpa [tree, Tree.children, or_comm] using hlabel
    · exact .inl (List.mem_singleton.mp (hjumps ▸ hjump))
  have hinj' : Set.InjOn swap {name | broken.Mentions name} := by
    refine hswap.mono ?_
    rintro name (hlabel | hjump)
    · exact .inr (by simpa [broken, Tree.children] using hlabel)
    · exact .inl (List.mem_singleton.mp (hjumps' ▸ hjump))
  have himage : tree.assemble = .ok image := by cbv
  have hbroken : broken.assemble = .error (.undefinedLabel "a") := by rfl
  exact ⟨hinj, himage, ((label_names_are_irrelevant tree).1 swap hinj).1 image himage,
    ((label_names_are_irrelevant tree).2 image himage).2, hinj', hbroken,
    ((label_names_are_irrelevant broken).1 swap hinj').2.1 "a" hbroken⟩

end ByteMachine.Assembly
