/-
  ByteMachine.Proofs.Layout — where the lines of a tree come to stand.

  What a draft knows is a function of the children laid out so far.  `Draft.Lays` is that
  function, written as an invariant; no bound on the size is needed for it, since the draft keeps
  offsets as 32-bit words and the invariant says which words.

    • `beforeLast?` — the children before the last definition of a name: a later definition of the
      same name counts, an earlier one does not,
    • `Draft.Lays.addNode` — one more child keeps the invariant,
    • `Draft.lays_of_ofTree` — so the draft of a whole tree is what the invariant says.
-/
import Mathlib
import ByteMachine.Assembly.Draft
import ByteMachine.Proofs.Outcome

namespace ByteMachine.Assembly

/-! ## §1. Lines and their sizes. -/

namespace Statement

/-- The number of bytes a line takes. -/
def size : Statement → Nat
  | .plain i => i.size
  | .jump _ _ => Instruction.jumpSize

/-- The bytes a line has before the jumps are written: a jump is kept open with zeros. -/
def reserve : Statement → List UInt8
  | .plain i => i.encode
  | .jump _ _ => List.replicate Instruction.jumpSize 0

@[simp] theorem length_reserve (s : Statement) : s.reserve.length = s.size := by
  cases s with
  | plain i => exact i.length_encode
  | jump condition label => rfl

end Statement

/-- What a child of a root asks for; labels and lines without a meaning ask for nothing. -/
def Tree.statement? : Tree → Option Statement
  | .line nodes =>
    match Statement.ofLine nodes with
    | .ok statement => some statement
    | .error _ => none
  | _ => none

theorem Tree.statement?_line {line : List Tree} {s : Statement}
    (h : Statement.ofLine line = .ok s) : (Tree.line line).statement? = some s := by
  simp only [Tree.statement?, h]

/-- Only a line asks for something. -/
theorem Tree.line_of_statement? {node : Tree} {s : Statement} (h : node.statement? = some s) :
    ∃ line, node = .line line ∧ Statement.ofLine line = .ok s := by
  unfold Tree.statement? at h
  split at h
  · split at h
    · cases h
      exact ⟨_, rfl, ‹_›⟩
    · cases h
  · cases h

/-- What the lines among the children of a root ask for, in order. -/
def statements (nodes : List Tree) : List Statement := nodes.filterMap Tree.statement?

/-- The number of bytes of the lines among the children of a root. -/
def codeSize (nodes : List Tree) : Nat := ((statements nodes).map Statement.size).sum

theorem statements_append (before after : List Tree) :
    statements (before ++ after) = statements before ++ statements after :=
  List.filterMap_append

theorem codeSize_append (before after : List Tree) :
    codeSize (before ++ after) = codeSize before + codeSize after := by
  unfold codeSize
  rw [statements_append, List.map_append, List.sum_append]

/-- The bytes of some lines before their jumps are written. -/
def reserveAll (lines : List Statement) : List UInt8 := lines.flatMap Statement.reserve

theorem reserveAll_append (before after : List Statement) :
    reserveAll (before ++ after) = reserveAll before ++ reserveAll after :=
  List.flatMap_append

theorem length_reserveAll (lines : List Statement) :
    (reserveAll lines).length = (lines.map Statement.size).sum := by
  induction lines with
  | nil => rfl
  | cons line lines ih =>
    show (line.reserve ++ reserveAll lines).length = line.size + (lines.map Statement.size).sum
    rw [List.length_append, Statement.length_reserve, ih]

/-- The jumps among some lines, each with its offset, where the first line stands at `offset`. -/
def jumpsAt (offset : Nat) : List Statement → List (Nat × JumpCondition × String)
  | [] => []
  | .plain i :: rest => jumpsAt (offset + i.size) rest
  | .jump condition label :: rest =>
    (offset, condition, label) :: jumpsAt (offset + Instruction.jumpSize) rest

/-- A jump at an offset as a draft notes it. -/
def noted : Nat × JumpCondition × String → PendingJump
  | (offset, condition, label) => ⟨.ofNat offset, condition, label⟩

theorem jumpsAt_append (before after : List Statement) :
    ∀ offset : Nat, jumpsAt offset (before ++ after)
      = jumpsAt offset before ++ jumpsAt (offset + (before.map Statement.size).sum) after := by
  induction before with
  | nil => intro offset; rfl
  | cons line before ih =>
    intro offset
    have hs : (((line :: before).map Statement.size).sum)
        = line.size + (before.map Statement.size).sum := rfl
    rw [hs, ← Nat.add_assoc]
    cases line with
    | plain i => exact ih (offset + i.size)
    | jump condition label =>
      show _ :: jumpsAt (offset + Instruction.jumpSize) (before ++ after) = _
      rw [ih]
      rfl

/-- A jump stands behind the lines before it. -/
theorem split_of_mem_jumpsAt {jump : Nat × JumpCondition × String} :
    ∀ {lines : List Statement} {offset : Nat}, jump ∈ jumpsAt offset lines →
      ∃ before after, lines = before ++ .jump jump.2.1 jump.2.2 :: after
        ∧ jump.1 = offset + (before.map Statement.size).sum := by
  intro lines
  induction lines with
  | nil => intro offset h; cases h
  | cons line lines ih =>
    intro offset h
    cases line with
    | plain i =>
      obtain ⟨before, after, hs, ho⟩ := ih h
      refine ⟨.plain i :: before, after, by rw [hs]; rfl, ?_⟩
      show _ = offset + (i.size + (before.map Statement.size).sum)
      omega
    | jump condition label =>
      rcases List.mem_cons.mp h with rfl | h
      · exact ⟨[], lines, rfl, rfl⟩
      · obtain ⟨before, after, hs, ho⟩ := ih h
        refine ⟨.jump condition label :: before, after, by rw [hs]; rfl, ?_⟩
        show _ = offset + (Instruction.jumpSize + (before.map Statement.size).sum)
        omega

/-- The bytes of a jump lie among those of the lines. -/
theorem le_codeSize_of_mem_jumpsAt {nodes : List Tree} {jump : Nat × JumpCondition × String}
    (h : jump ∈ jumpsAt 0 (statements nodes)) :
    jump.1 + Instruction.jumpSize ≤ codeSize nodes := by
  obtain ⟨before, after, hs, ho⟩ := split_of_mem_jumpsAt h
  unfold codeSize
  rw [hs, ho, List.map_append, List.sum_append, List.map_cons, List.sum_cons, Nat.zero_add]
  exact Nat.add_le_add_left (Nat.le_add_right _ _) _

/-- Lines without jumps hold none. -/
theorem jumpsAt_plain (is : List Instruction) :
    ∀ offset : Nat, jumpsAt offset (is.map .plain) = [] := by
  induction is with
  | nil => intro offset; rfl
  | cons i is ih => intro offset; exact ih (offset + i.size)

/-! ## §2. Definitions of a name. -/

/-- Whether a child of a root defines a name. -/
def Tree.defines (name : String) : Tree → Bool
  | .label other => other == name
  | _ => false

/-- The children of a root before the last definition of a name. -/
def beforeLast? (name : String) : List Tree → Option (List Tree)
  | [] => none
  | node :: rest =>
    match beforeLast? name rest with
    -- a definition further on counts, whatever stands here
    | some before => some (node :: before)
    | none => if node.defines name then some [] else none

/-- The last definition among more children is the one behind, if there is one. -/
theorem beforeLast?_append (name : String) (before after : List Tree) :
    beforeLast? name (before ++ after)
      = ((beforeLast? name after).map (before ++ ·)).or (beforeLast? name before) := by
  induction before with
  | nil =>
    rw [List.nil_append]
    cases beforeLast? name after <;> rfl
  | cons head before ih =>
    rw [List.cons_append, beforeLast?, ih, beforeLast?]
    cases beforeLast? name after <;> rfl

/-- A child at the end is the last definition of the name it defines, and of no other. -/
theorem beforeLast?_snoc (name : String) (nodes : List Tree) (node : Tree) :
    beforeLast? name (nodes ++ [node])
      = if node.defines name then some nodes else beforeLast? name nodes := by
  rw [beforeLast?_append]
  show ((if node.defines name then some [] else none).map (nodes ++ ·)).or _ = _
  split
  · exact congrArg some (List.append_nil nodes)
  · rfl

/-- The children before a definition, and those from it on, are all the children. -/
theorem beforeLast?_split {name : String} :
    ∀ {nodes before : List Tree}, beforeLast? name nodes = some before →
      ∃ after, nodes = before ++ .label name :: after ∧ beforeLast? name after = none := by
  intro nodes
  induction nodes with
  | nil => intro before h; cases h
  | cons node rest ih =>
    intro before h
    rw [beforeLast?] at h
    cases hr : beforeLast? name rest with
    | some more =>
      rw [hr] at h
      cases h
      obtain ⟨after, hs, hn⟩ := ih hr
      exact ⟨after, by rw [hs]; rfl, hn⟩
    | none =>
      rw [hr] at h
      by_cases hd : node.defines name = true
      · rw [if_pos hd] at h
        cases h
        cases node with
        | label other => exact ⟨rest, by rw [eq_of_beq hd]; rfl, hr⟩
        | _ => cases hd
      · rw [if_neg hd] at h
        cases h

/-- What stands before a definition is no longer than the whole. -/
theorem codeSize_le_of_beforeLast? {name : String} {nodes before : List Tree}
    (h : beforeLast? name nodes = some before) : codeSize before ≤ codeSize nodes := by
  obtain ⟨after, hs, -⟩ := beforeLast?_split h
  rw [hs, codeSize_append]
  exact Nat.le_add_right _ _

/-! ## §3. The draft of some children. -/

/-- Every child of the root is a label or a line with a meaning. -/
def Readable (nodes : List Tree) : Prop :=
  ∀ node ∈ nodes, node.statement? = none → ∃ name, node = .label name

namespace Draft

/-- The draft is that of these children of a root. -/
structure Lays (d : Draft) (nodes : List Tree) : Prop where
  code : d.code.toList = reserveAll (statements nodes)
  labels : ∀ name,
    d.labels.find? name = (beforeLast? name nodes).map fun before => .ofNat (codeSize before)
  pending : d.pending.toList = (jumpsAt 0 (statements nodes)).map noted
  readable : Readable nodes

namespace Lays

variable {d : Draft} {nodes : List Tree}

theorem empty : Lays {} [] where
  code := rfl
  labels _ := rfl
  pending := rfl
  readable _ h := absurd h List.not_mem_nil

theorem size_code (h : d.Lays nodes) : d.code.size = codeSize nodes := by
  rw [← Array.length_toList, h.code, length_reserveAll]
  rfl

theorem offset_eq (h : d.Lays nodes) : d.offset = .ofNat (codeSize nodes) := by
  unfold Draft.offset
  rw [h.size_code]

/-- A label takes the offset reached so far. -/
theorem define (h : d.Lays nodes) (name : String) :
    (d.define name).Lays (nodes ++ [.label name]) := by
  have hst : statements (nodes ++ [.label name]) = statements nodes := by
    rw [statements_append]
    exact List.append_nil _
  refine ⟨?_, ?_, ?_, ?_⟩
  · rw [hst]
    exact h.code
  · -- the new entry hides every earlier one of the name, as the last definition does
    intro other
    show (d.labels.define name d.offset).find? other = _
    rw [LabelTable.find?_define, h.labels, h.offset_eq, beforeLast?_snoc]
    by_cases hn : other = name
    · subst hn
      rw [if_pos rfl, if_pos (by exact beq_self_eq_true other)]
      rfl
    · have hd : ¬ (Tree.label name).defines other = true := by
        intro hb
        exact hn (eq_of_beq hb).symm
      rw [if_neg hn, if_neg hd]
  · rw [hst]
    exact h.pending
  · intro node hm hs
    rcases List.mem_append.mp hm with hm | hm
    · exact h.readable node hm hs
    · exact ⟨name, List.mem_singleton.mp hm⟩

/-- A line adds its bytes, and a jump is noted besides. -/
theorem add (h : d.Lays nodes) {line : List Tree} {s : Statement}
    (hs : Statement.ofLine line = .ok s) : (d.add s).Lays (nodes ++ [.line line]) := by
  have hone : statements [.line line] = [s] := by
    show List.filterMap Tree.statement? [.line line] = [s]
    rw [List.filterMap_cons, Tree.statement?_line hs]
    rfl
  have hst : statements (nodes ++ [.line line]) = statements nodes ++ [s] := by
    rw [statements_append, hone]
  have hlabels : ∀ name, beforeLast? name (nodes ++ [.line line]) = beforeLast? name nodes := by
    intro name
    rw [beforeLast?_snoc]
    rfl
  refine ⟨?_, ?_, ?_, ?_⟩
  · have hcode : (d.add s).code.toList = d.code.toList ++ s.reserve := by
      cases s with
      | plain i => exact Array.toList_appendList
      | jump condition label => exact Array.toList_appendList
    rw [hcode, h.code, hst, reserveAll_append]
    exact congrArg _ (List.flatMap_singleton _ _).symm
  · intro name
    rw [hlabels, ← h.labels]
    cases s <;> rfl
  · rw [hst, jumpsAt_append, List.map_append, ← h.pending, Nat.zero_add]
    cases s with
    | plain i => exact (List.append_nil _).symm
    | jump condition label =>
      show (d.pending.push ⟨d.offset, condition, label⟩).toList = _
      rw [Array.toList_push, h.offset_eq]
      rfl
  · intro node hm hn
    rcases List.mem_append.mp hm with hm | hm
    · exact h.readable node hm hn
    · rw [List.mem_singleton.mp hm, Tree.statement?_line hs] at hn
      cases hn

/-- **One more child keeps the invariant.** -/
theorem addNode (h : d.Lays nodes) {node : Tree} {next : Draft}
    (hn : d.addNode node = .ok next) : next.Lays (nodes ++ [node]) := by
  cases node with
  | label name => cases hn; exact h.define name
  | line line =>
    cases hs : Statement.ofLine line with
    | ok s =>
      simp only [Draft.addNode, hs] at hn
      cases hn
      exact h.add hs
    | error e =>
      simp only [Draft.addNode, hs] at hn
      cases hn
  | _ => cases hn

/-- All further children keep it. -/
theorem foldlM :
    ∀ {rest : List Tree} {nodes : List Tree} {d last : Draft}, d.Lays nodes →
      rest.foldlM Draft.addNode d = .ok last → last.Lays (nodes ++ rest) := by
  intro rest
  induction rest with
  | nil =>
    intro nodes d last h hl
    cases hl
    rwa [List.append_nil]
  | cons node rest ih =>
    intro nodes d last h hl
    rw [List.foldlM_cons] at hl
    obtain ⟨next, hn, hl⟩ := ok_of_bind hl
    rw [show nodes ++ node :: rest = (nodes ++ [node]) ++ rest from by simp]
    exact ih (h.addNode hn) hl

end Lays

/-- **The draft of a tree is that of the children of its root.** -/
theorem lays_of_ofTree {tree : Tree} {d : Draft} (h : ofTree tree = .ok d) :
    d.Lays tree.children := by
  cases tree with
  | root nodes => exact Lays.empty.foldlM h
  | _ => cases h

end Draft

end ByteMachine.Assembly
