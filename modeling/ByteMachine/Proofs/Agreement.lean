/-
  ByteMachine.Proofs.Agreement — the parser and the generator agree on what an instruction is.

  Each has checks of its own: the parser counts the tokens of a line and looks at their kinds, the
  generator matches the nodes of a line against its mnemonic.  Both accept the forms of `Says` and
  nothing else, so the trees that can be parsed are those that can be laid out, and what is left to
  fail is a jump to a name that nobody defines.

    • `exists_draft_iff` — a tree is laid out exactly if its children are labels and forms,
    • `Draft.Lays.finish_cases` — a draft is finished, or fails at the first jump to a name that is
      not defined,
    • `exists_image_iff` — which trees have an image,
    • `ofTokens_listing` — a tree that is laid out is read back from its listing,
    • `parser_and_generator_agree` — the two together.
-/
import ByteMachine.Proofs.Parsing
import ByteMachine.Proofs.TwoPass

namespace ByteMachine.Assembly

variable {nodes : List Tree} {tree : Tree} {name : String}

/-! ## §1. Trees that are laid out. -/

/-- A child is laid out exactly if it is a label or a line with a meaning. -/
theorem exists_addNode_iff {d : Draft} {node : Tree} :
    (∃ next, d.addNode node = .ok next)
      ↔ (node.statement? = none → ∃ name, node = .label name) := by
  cases node with
  | label name => exact ⟨fun _ _ => ⟨name, rfl⟩, fun _ => ⟨_, rfl⟩⟩
  | line nodes =>
    cases hs : Statement.ofLine nodes with
    | ok s => simp [Draft.addNode, Tree.statement?, hs]
    | error e => simp [Draft.addNode, Tree.statement?, hs]
  | _ => simp [Draft.addNode, Tree.statement?]

/-- Children are laid out exactly if all of them are labels and lines with a meaning. -/
theorem exists_foldlM_addNode_iff : ∀ {nodes : List Tree} {d : Draft},
    (∃ last, nodes.foldlM Draft.addNode d = .ok last) ↔ Readable nodes := by
  intro nodes
  induction nodes with
  | nil =>
    intro d
    exact ⟨fun _ _ hm => absurd hm List.not_mem_nil, fun _ => ⟨d, rfl⟩⟩
  | cons node nodes ih =>
    intro d
    unfold Readable at ih ⊢
    rw [List.forall_mem_cons, ← exists_addNode_iff (d := d), List.foldlM_cons]
    constructor
    · rintro ⟨last, h⟩
      obtain ⟨next, hn, h⟩ := ok_of_bind h
      exact ⟨⟨next, hn⟩, ih.mp ⟨last, h⟩⟩
    · rintro ⟨⟨next, hn⟩, hrest⟩
      obtain ⟨last, hl⟩ := (ih (d := next)).mpr hrest
      exact ⟨last, by rw [hn]; exact hl⟩

/-- **A tree is laid out exactly if it is a root whose children are labels and lines with a
meaning.** -/
theorem exists_draft_iff :
    (∃ d, Draft.ofTree tree = .ok d) ↔ ∃ nodes, tree = .root nodes ∧ Readable nodes := by
  constructor
  · rintro ⟨d, h⟩
    cases tree with
    | root nodes => exact ⟨nodes, rfl, exists_foldlM_addNode_iff.mp ⟨d, h⟩⟩
    | _ => cases h
  · rintro ⟨nodes, rfl, h⟩
    exact exists_foldlM_addNode_iff.mpr h

/-! ## §2. Names that are defined, and names that are jumped to. -/

/-- A name has a last definition exactly if it has one. -/
theorem exists_beforeLast?_iff :
    (∃ before, beforeLast? name nodes = some before) ↔ .label name ∈ nodes := by
  constructor
  · rintro ⟨before, h⟩
    obtain ⟨after, rfl, -⟩ := beforeLast?_split h
    exact List.mem_append_right _ List.mem_cons_self
  · intro h
    induction nodes with
    | nil => cases h
    | cons node nodes ih =>
      rw [beforeLast?]
      cases hr : beforeLast? name nodes with
      | some before => exact ⟨_, rfl⟩
      | none =>
        -- no definition stands further on, so it is the first child that defines the name
        rcases List.mem_cons.mp h with rfl | h
        · exact ⟨[], if_pos (beq_self_eq_true name)⟩
        · obtain ⟨before, hb⟩ := ih h
          rw [hr] at hb
          cases hb

/-- The name that a line jumps to. -/
def Statement.target? : Statement → Option String
  | .plain _ => none
  | .jump _ name => some name

/-- The names that the lines among the children of a root jump to, in order. -/
def jumpNames (nodes : List Tree) : List String := (statements nodes).filterMap Statement.target?

/-- The jumps that are noted are those to the names. -/
theorem map_label_noted (lines : List Statement) : ∀ offset : Nat,
    ((jumpsAt offset lines).map noted).map (·.label) = lines.filterMap Statement.target? := by
  induction lines with
  | nil => intro offset; rfl
  | cons line lines ih =>
    intro offset
    cases line with
    | plain i => exact ih (offset + i.size)
    | jump condition name => exact congrArg (name :: ·) (ih (offset + Instruction.jumpSize))

/-- A form that holds a label behind its word is a jump to it. -/
theorem jump_of_says {word : String} {s : Statement}
    (h : Says [.mnemonic word, .label name] s) : s.target? = some name := by
  generalize hnodes : [Tree.mnemonic word, Tree.label name] = line at h
  cases h with
  | jump condition other => cases hnodes; rfl
  | alu op src => cases src <;> cases hnodes
  | bitwise op src => cases src <;> cases hnodes
  | print src => cases src <;> cases hnodes
  | _ => cases hnodes

/-- A name is jumped to exactly if a line holds it behind its mnemonic. -/
theorem mem_jumpNames_iff (h : Readable nodes) :
    name ∈ jumpNames nodes ↔ ∃ word, .line [.mnemonic word, .label name] ∈ nodes := by
  constructor
  · intro hm
    obtain ⟨s, hs, ht⟩ := List.mem_filterMap.mp hm
    obtain ⟨node, hnode, hs⟩ := List.mem_filterMap.mp hs
    obtain ⟨line, rfl, hl⟩ := Tree.line_of_statement? hs
    cases s with
    | plain i => cases ht
    | jump condition other =>
      cases ht
      have hform := ofLine_iff.mp hl
      cases hform
      exact ⟨condition.mnemonic, hnode⟩
  · rintro ⟨word, hm⟩
    -- the line has a meaning, for it is no label
    cases hs : (Tree.line [.mnemonic word, .label name]).statement? with
    | none =>
      obtain ⟨other, ho⟩ := h _ hm hs
      cases ho
    | some s =>
      obtain ⟨line, he, hl⟩ := Tree.line_of_statement? hs
      cases he
      exact List.mem_filterMap.mpr ⟨s, List.mem_filterMap.mpr ⟨_, hm, hs⟩,
        jump_of_says (ofLine_iff.mp hl)⟩

/-! ## §3. Drafts that are finished. -/

namespace Draft

variable {labels : LabelTable} {d : Draft}

/-- A jump is not written exactly if its label is not in the table. -/
theorem patch_error_iff {code : Image} {jump : PendingJump} {e : AssemblyError} :
    patch labels code jump = .error e
      ↔ labels.find? jump.label = none ∧ .undefinedLabel jump.label = e := by
  rw [patch]
  cases labels.find? jump.label with
  | none => simp
  | some target => simp

/-- The table of a draft holds the names that are defined. -/
theorem Lays.find?_eq_none_iff (h : d.Lays nodes) :
    d.labels.find? name = none ↔ .label name ∉ nodes := by
  rw [h.labels, ← exists_beforeLast?_iff]
  cases beforeLast? name nodes with
  | none => simp
  | some before => simp

/-- **A draft is not finished exactly if a name that is jumped to is not defined**, and the first
such name is the fault. -/
theorem Lays.finish_error_iff (h : d.Lays nodes) {e : AssemblyError} :
    d.finish = .error e ↔ ∃ before name after, jumpNames nodes = before ++ name :: after ∧
      (∀ other ∈ before, .label other ∈ nodes) ∧ .label name ∉ nodes ∧
      .undefinedLabel name = e := by
  have hnames : d.pending.toList.map (·.label) = jumpNames nodes := by
    rw [h.pending]
    exact map_label_noted _ 0
  have hfails : ∀ (code : Image) (jump : PendingJump) (cause : AssemblyError),
      patch d.labels code jump = .error cause
        ↔ d.labels.find? jump.label = none ∧ .undefinedLabel jump.label = cause :=
    fun _ _ _ => patch_error_iff
  unfold Draft.finish
  rw [foldlM_error_iff hfails, ← hnames]
  constructor
  · rintro ⟨before, jump, after, hs, hbefore, hjump, rfl⟩
    refine ⟨before.map (·.label), jump.label, after.map (·.label), ?_, ?_,
      h.find?_eq_none_iff.mp hjump, rfl⟩
    · rw [hs, List.map_append, List.map_cons]
    · intro name hn
      obtain ⟨other, ho, rfl⟩ := List.mem_map.mp hn
      by_contra hnot
      exact hbefore other ho _ ⟨h.find?_eq_none_iff.mpr hnot, rfl⟩
  · rintro ⟨before, name, after, hs, hbefore, hname, rfl⟩
    obtain ⟨jumps, rest, hsplit, rfl, hrest⟩ := List.map_eq_append_iff.mp hs
    obtain ⟨jump, others, rfl, rfl, -⟩ := List.map_eq_cons_iff.mp hrest
    refine ⟨jumps, jump, others, hsplit, ?_, h.find?_eq_none_iff.mpr hname, rfl⟩
    rintro other ho cause ⟨hnone, -⟩
    exact h.find?_eq_none_iff.mp hnone (hbefore _ (List.mem_map_of_mem ho))

/-- **A draft is finished exactly if every name that is jumped to is defined**; if not, the first
that is not is the fault. -/
theorem Lays.finish_cases (h : d.Lays nodes) :
    ((∃ image, d.finish = .ok image) ∧ ∀ name ∈ jumpNames nodes, .label name ∈ nodes) ∨
    ∃ before name after, jumpNames nodes = before ++ name :: after ∧
      (∀ other ∈ before, .label other ∈ nodes) ∧ .label name ∉ nodes ∧
      d.finish = .error (.undefinedLabel name) := by
  rcases free_or_split (fun name => (d.labels.find? name).isNone) (jumpNames nodes) with
    hall | ⟨before, name, after, hsplit, hbefore, hname⟩
  · have hdefined : ∀ name ∈ jumpNames nodes, .label name ∈ nodes := by
      intro name hn
      by_contra hnot
      have hfound := hall name hn
      rw [h.find?_eq_none_iff.mpr hnot] at hfound
      cases hfound
    refine .inl ⟨?_, hdefined⟩
    cases hf : d.finish with
    | ok image => exact ⟨image, rfl⟩
    | error e =>
      obtain ⟨before, name, after, hs, -, hnot, -⟩ := h.finish_error_iff.mp hf
      exact absurd (hdefined name (by rw [hs]; simp)) hnot
  · have hnot : .label name ∉ nodes :=
      h.find?_eq_none_iff.mp (Option.isNone_iff_eq_none.mp hname)
    have hdefined : ∀ other ∈ before, .label other ∈ nodes := by
      intro other ho
      by_contra hother
      have hfound := hbefore other ho
      rw [h.find?_eq_none_iff.mpr hother] at hfound
      cases hfound
    exact .inr ⟨before, name, after, hsplit, hdefined, hnot,
      h.finish_error_iff.mpr ⟨before, name, after, hsplit, hdefined, hnot, rfl⟩⟩

end Draft

/-! ## §4. The generator. -/

/-- **What the generator makes of a tree that is laid out**: an image if every name that is jumped
to is defined, and else the first that is not. -/
theorem assemble_cases (h : Readable nodes) :
    ((∃ image, (Tree.root nodes).assemble = .ok image) ∧
      ∀ name ∈ jumpNames nodes, .label name ∈ nodes) ∨
    ∃ before name after, jumpNames nodes = before ++ name :: after ∧
      (∀ other ∈ before, .label other ∈ nodes) ∧ .label name ∉ nodes ∧
      (Tree.root nodes).assemble = .error (.undefinedLabel name) := by
  obtain ⟨d, hd⟩ := exists_draft_iff.mpr ⟨nodes, rfl, h⟩
  have hlays := Draft.lays_of_ofTree hd
  unfold Tree.assemble
  rw [hd]
  exact hlays.finish_cases

/-- **A tree without jumps has the bytes of its lines**, one behind the other, whatever its size. -/
theorem assemble_of_plain {is : List Instruction} (h : Readable nodes)
    (hs : statements nodes = is.map .plain) :
    ∃ image, (Tree.root nodes).assemble = .ok image ∧
      image.toList = Instruction.encodeAll is := by
  obtain ⟨d, hd⟩ := exists_draft_iff.mpr ⟨nodes, rfl, h⟩
  have hlays := Draft.lays_of_ofTree hd
  have hpending : d.pending.toList = [] := by
    rw [hlays.pending]
    show (jumpsAt 0 (statements nodes)).map noted = []
    rw [hs, jumpsAt_plain]
    rfl
  refine ⟨d.code, ?_, ?_⟩
  · unfold Tree.assemble Draft.finish
    rw [hd]
    show d.pending.toList.foldlM _ _ = _
    rw [hpending]
    rfl
  · rw [hlays.code]
    show (statements nodes).flatMap Statement.reserve = is.flatMap Instruction.encode
    rw [hs, List.flatMap_map]
    rfl

/-- A tree is at fault as a tree exactly if it is not laid out. -/
theorem structured_iff :
    (∀ e, tree.assemble ≠ .error (.tree e)) ↔ ∃ nodes, tree = .root nodes ∧ Readable nodes := by
  constructor
  · intro h
    rw [← exists_draft_iff]
    cases hd : Draft.ofTree tree with
    | ok d => exact ⟨d, rfl⟩
    | error e =>
      refine absurd ?_ (h e)
      unfold Tree.assemble
      rw [hd]
  · rintro ⟨nodes, rfl, h⟩ e he
    rcases assemble_cases h with ⟨⟨image, hi⟩, -⟩ | ⟨before, name, after, -, -, -, hn⟩
    · rw [hi] at he
      cases he
    · rw [hn] at he
      cases he

/-- A root with a child that is neither is at fault as a tree. -/
theorem exists_tree_error (h : ¬ Readable nodes) :
    ∃ e, (Tree.root nodes).assemble = .error (.tree e) := by
  by_contra hnone
  push Not at hnone
  obtain ⟨others, hothers, hr⟩ := structured_iff.mp hnone
  cases hothers
  exact h hr

/-- **There is an image exactly of a root of labels and lines with a meaning in which every name
that is jumped to is defined.** -/
theorem exists_image_iff :
    (∃ image, tree.assemble = .ok image)
      ↔ ∃ nodes, tree = .root nodes ∧ Readable nodes ∧
        ∀ name ∈ jumpNames nodes, .label name ∈ nodes := by
  constructor
  · rintro ⟨image, h⟩
    obtain ⟨nodes, rfl, hr⟩ := structured_iff.mp fun e he => by
      rw [h] at he
      cases he
    refine ⟨nodes, rfl, hr, ?_⟩
    rcases assemble_cases hr with ⟨-, hall⟩ | ⟨before, name, after, -, -, -, he⟩
    · exact hall
    · rw [h] at he
      cases he
  · rintro ⟨nodes, rfl, hr, hall⟩
    rcases assemble_cases hr with ⟨himage, -⟩ | ⟨before, name, after, hnames, -, hnot, -⟩
    · exact himage
    · exact absurd (hall name (by rw [hnames]; simp)) hnot

/-! ## §5. The parser. -/

/-- A phrase stands for a line with a meaning. -/
theorem statement?_of_phrase {kinds : List TokenKind} (h : Phrase kinds) :
    (Tree.line (kinds.filterMap TokenKind.node?)).statement? ≠ none := by
  obtain ⟨line, s, hs, rfl⟩ := says_of_phrase h
  obtain ⟨text, operandNodes, rfl⟩ := hs.head
  show (Tree.line (.mnemonic text :: (operandTokens operandNodes).filterMap _)).statement? ≠ none
  rw [hs.filterMap_node?, Tree.statement?_line (ofLine_iff.mpr hs)]
  exact Option.some_ne_none s

/-- **A tree that is parsed is laid out.** -/
theorem readable_of_ofTokens {tokens : List Token} (h : Tree.ofTokens tokens = .ok tree) :
    ∃ nodes, tree = .root nodes ∧ Readable nodes := by
  obtain ⟨nodes, rfl, -, hnodes⟩ := children_of_ofTokens h
  refine ⟨nodes, rfl, fun node hn hs => ?_⟩
  rcases hnodes node hn with hlabel | ⟨kinds, hp, rfl⟩
  · exact hlabel
  · exact absurd hs (statement?_of_phrase hp)

/-- The tokens of a child of a root. -/
def Tree.lineKinds : Tree → List TokenKind
  | .line nodes => lineTokens nodes
  | node => node.tokens

/-- Children of a root, each on a line of its own from the line with this number on: a label as it
is, an instruction as its word and its operands with a comma between two, and a line end. -/
def listing (line : Nat) : List Tree → List Token
  | [] => []
  | node :: rest => node.lineKinds.map (⟨·, line⟩) ++ ⟨.newline, line⟩ :: listing (line + 1) rest

/-- The tokens of a line with a meaning hold no line end. -/
theorem Says.newline_not_mem {nodes : List Tree} {s : Statement} (h : Says nodes s) :
    .newline ∉ lineTokens nodes := by
  cases h with
  | alu op src => cases src <;> simp [lineTokens, operandTokens, Operand.node, Tree.tokens]
  | bitwise op src => cases src <;> simp [lineTokens, operandTokens, Operand.node, Tree.tokens]
  | print src => cases src <;> simp [lineTokens, operandTokens, Operand.node, Tree.tokens]
  | _ => simp [lineTokens, operandTokens, Tree.tokens]

/-- A child that is laid out is read back from its tokens, which are one line. -/
theorem lineNodes_lineKinds {node : Tree}
    (h : node.statement? = none → ∃ name, node = .label name) (line : Nat) :
    .newline ∉ node.lineKinds ∧ lineNodes (node.lineKinds.map (⟨·, line⟩)) = .ok [node] := by
  cases hs : node.statement? with
  | none =>
    obtain ⟨name, rfl⟩ := h hs
    exact ⟨by simp [Tree.lineKinds, Tree.tokens], rfl⟩
  | some s =>
    obtain ⟨nodes, rfl, hl⟩ := Tree.line_of_statement? hs
    have hform := ofLine_iff.mp hl
    exact ⟨hform.newline_not_mem, lineNodes_line hform line⟩

/-- The lines of a listing are read as the children, one by one, and an empty line. -/
theorem mapM_listing (h : Readable nodes) : ∀ line : Nat,
    (tokenLines (listing line nodes)).mapM lineNodes = .ok (nodes.map ([·]) ++ [[]]) := by
  induction nodes with
  | nil => intro line; rfl
  | cons node nodes ih =>
    intro line
    obtain ⟨hnode, hnodes⟩ := List.forall_mem_cons.mp h
    obtain ⟨hfree, hread⟩ := lineNodes_lineKinds hnode line
    have hline : ∀ token ∈ node.lineKinds.map (Token.mk · line),
        (token.kind == .newline) = false := by
      intro token ht
      obtain ⟨kind, hk, rfl⟩ := List.mem_map.mp ht
      exact beq_eq_false_iff_ne.mpr fun he => hfree (he ▸ hk)
    have hsplit : tokenLines (listing line (node :: nodes))
        = node.lineKinds.map (Token.mk · line) :: tokenLines (listing (line + 1) nodes) :=
      segments_append_cons hline rfl _
    rw [hsplit, List.mapM_cons, hread, ih hnodes (line + 1)]
    rfl

/-- **A tree that is laid out is read back from its listing.** -/
theorem ofTokens_listing (h : Readable nodes) (line : Nat) :
    Tree.ofTokens (listing line nodes) = .ok (.root nodes) := by
  refine ofTokens_iff.mpr ⟨_, mapM_listing h line, ?_⟩
  rw [List.flatten_append, ← List.flatMap_def, List.flatMap_singleton']
  exact congrArg Tree.root (List.append_nil nodes).symm

/-- What cannot be scanned is at fault as a source. -/
theorem source_of_scanFrom_error {e : AssemblyError} (source : List Char) :
    ∀ {line : Nat} {operand : Bool} {done : List Token},
      scanFrom line operand done source = .error e → ∃ line cause, e = .source line cause := by
  induction source using scan_induction with
  | nil =>
    intro line operand done h
    rw [scanFrom_nil] at h
    cases h
  | lexeme c rest ih =>
    intro line operand done h
    rcases hl : lexeme operand c rest with cause | ⟨_ | kind, left⟩
    · rw [scanFrom_error hl] at h
      cases h
      exact ⟨line, cause, rfl⟩
    · rw [scanFrom_skip hl] at h
      exact ih hl h
    · rw [scanFrom_token hl] at h
      exact ih hl h

/-- What cannot be scanned or parsed is at fault as a source. -/
theorem source_of_ofSource_error {source : String} {e : AssemblyError}
    (h : Tree.ofSource source = .error e) : ∃ line cause, e = .source line cause := by
  unfold Tree.ofSource at h
  cases hs : scan source with
  | error cause =>
    rw [hs] at h
    cases h
    exact source_of_scanFrom_error _ hs
  | ok tokens =>
    rw [hs] at h
    obtain ⟨-, line, -, -, -, hl⟩ := ofTokens_error_inv h
    obtain ⟨-, token, -, cause, -, -, -, he, -⟩ := fault_of_lineNodes hl
    exact ⟨_, _, he⟩

/-- **No source is at fault as a tree.** -/
theorem assemble_ne_tree_error (source : String) (e : TreeError) :
    assemble source ≠ .error (.tree e) := by
  intro h
  unfold assemble at h
  cases ht : Tree.ofSource source with
  | error cause =>
    rw [ht] at h
    obtain ⟨line, fault, rfl⟩ := source_of_ofSource_error ht
    cases h
  | ok tree =>
    rw [ht] at h
    obtain ⟨tokens, -, htokens⟩ := ok_of_bind ht
    exact structured_iff.mpr (readable_of_ofTokens htokens) e h

/-! ## §6. Agreement. -/

/-- Every name that a line of the tree jumps to is the name of a label somewhere in the tree. -/
def Tree.Linked (tree : Tree) : Prop :=
  ∀ word name, .line [.mnemonic word, .label name] ∈ tree.children → .label name ∈ tree.children

theorem linked_iff (h : Readable nodes) :
    (Tree.root nodes).Linked ↔ ∀ name ∈ jumpNames nodes, .label name ∈ nodes := by
  constructor
  · intro hl name hn
    obtain ⟨word, hw⟩ := (mem_jumpNames_iff h).mp hn
    exact hl word name hw
  · intro hl word name hw
    exact hl name ((mem_jumpNames_iff h).mpr ⟨word, hw⟩)

/-- **The parser and the generator agree.**  A tree that is parsed from any tokens is at fault for
the generator in no other way than by a name that is jumped to and not defined: there is an image
exactly if there is no such name.  A tree that the generator does not find at fault as a tree is
parsed from its listing.  So these are the same trees, and no source is at fault as a tree. -/
theorem parser_and_generator_agree (tree : Tree) :
    (∀ tokens, Tree.ofTokens tokens = .ok tree →
      ((∃ image, tree.assemble = .ok image) ↔ tree.Linked) ∧
      ((∃ name, tree.assemble = .error (.undefinedLabel name)) ↔ ¬ tree.Linked) ∧
      ∀ name, tree.assemble = .error (.undefinedLabel name) →
        (∃ word, .line [.mnemonic word, .label name] ∈ tree.children) ∧
        .label name ∉ tree.children) ∧
    ((∀ e, tree.assemble ≠ .error (.tree e)) →
      Tree.ofTokens (listing 1 tree.children) = .ok tree) ∧
    ((∃ tokens, Tree.ofTokens tokens = .ok tree) ↔ ∀ e, tree.assemble ≠ .error (.tree e)) ∧
    ∀ source e, assemble source ≠ .error (.tree e) := by
  have hback : (∀ e, tree.assemble ≠ .error (.tree e)) →
      Tree.ofTokens (listing 1 tree.children) = .ok tree := by
    intro h
    obtain ⟨nodes, rfl, hr⟩ := structured_iff.mp h
    exact ofTokens_listing hr 1
  refine ⟨?_, hback, ⟨?_, fun h => ⟨_, hback h⟩⟩, ?_⟩
  · intro tokens h
    obtain ⟨nodes, rfl, hr⟩ := readable_of_ofTokens h
    rw [linked_iff hr]
    rcases assemble_cases hr with ⟨⟨image, hi⟩, hall⟩ | ⟨before, name, after, hnames, -, hnot, he⟩
    · rw [hi]
      refine ⟨⟨fun _ => hall, fun _ => ⟨image, rfl⟩⟩, ⟨fun ⟨_, he⟩ => ?_, fun hn => absurd hall hn⟩,
        fun _ he => ?_⟩
      · cases he
      · cases he
    · have hm : name ∈ jumpNames nodes := by
        rw [hnames]
        exact List.mem_append_right _ List.mem_cons_self
      rw [he]
      refine ⟨⟨fun ⟨_, hi⟩ => ?_, fun hl => absurd (hl name hm) hnot⟩,
        ⟨fun _ hl => hnot (hl name hm), fun _ => ⟨name, rfl⟩⟩, fun other ho => ?_⟩
      · cases hi
      · cases ho
        exact ⟨(mem_jumpNames_iff hr).mp hm, hnot⟩
  · rintro ⟨tokens, h⟩
    exact structured_iff.mpr (readable_of_ofTokens h)
  · exact assemble_ne_tree_error

/-- A jump to a label with an empty name, which no source can spell, and a jump to a name that is no
label: both are parsed, and only the first has an image. -/
theorem parser_and_generator_agree_unlinked :
    let linked : Tree := .root [.label "", .line [.mnemonic "jmp", .label ""],
      .line [.mnemonic "xorb", .integer 7, .register .r3]]
    let unlinked : Tree := .root [.line [.mnemonic "jz", .label "a b"], .label "a"]
    let tokens : List Token := [⟨.label "", 4⟩, ⟨.mnemonic "jmp", 9⟩, ⟨.label "", 1⟩, ⟨.newline, 0⟩,
      ⟨.mnemonic "xorb", 2⟩, ⟨.number 7, 2⟩, ⟨.comma, 3⟩, ⟨.register .r3, 2⟩]
    Tree.ofTokens tokens = .ok linked ∧ (∃ image, linked.assemble = .ok image) ∧
      Tree.ofTokens (listing 1 unlinked.children) = .ok unlinked ∧
      (∃ name, unlinked.assemble = .error (.undefinedLabel name)) ∧ ¬ unlinked.Linked := by
  intro linked unlinked tokens
  have hparsed : Tree.ofTokens tokens = .ok linked := by rfl
  have hlinked : linked.Linked := by
    intro word name hm
    have hname : Tree.line [.mnemonic word, .label name] = .line [.mnemonic "jmp", .label ""] := by
      simpa [linked, Tree.children] using hm
    cases hname
    exact List.mem_cons_self
  have hundefined : unlinked.assemble = .error (.undefinedLabel "a b") := by rfl
  have hlisted := (parser_and_generator_agree unlinked).2.1 fun e he => by
    rw [hundefined] at he
    cases he
  exact ⟨hparsed, ((parser_and_generator_agree linked).1 tokens hparsed).1.mpr hlinked, hlisted,
    ⟨_, hundefined⟩, ((parser_and_generator_agree unlinked).1 _ hlisted).2.1.mp ⟨_, hundefined⟩⟩

end ByteMachine.Assembly
