/-
  ByteMachine.Proofs.Parsing — the token lists that are programs, and what is read of them.

  The grammar is written down once more, without tables, numbers of operands and checks in turn: a
  line is labels and then nothing or one `Phrase`.  The tokens may be any, also such as no scan
  finds: unknown words, commas anywhere, lines numbered at random.

    • `operands_iff_phrase` — the operands of a word are read exactly if word and operands are a
      phrase,
    • `lineNodes_iff` — what a line is read as, if it can be read (`Reads`),
    • `fault_of_lineNodes` — where the fault of a line is reported, and which it is,
    • `parsing_follows_the_grammar` — all lines together.
-/
import ByteMachine.Proofs.Lines
import ByteMachine.Proofs.Rendering

namespace ByteMachine.Assembly

/-! ## §1. The grammar. -/

/-- The words that jump. -/
def jumpWords : List String := ["jmp", "je", "jne", "jz", "jnz", "jg", "jge", "jl", "jle"]

/-- The words of two operands. -/
def binaryWords : List String := ["movb", "addb", "subb", "mulb", "divb", "cmpb", "orb", "xorb"]

/-- An instruction, token by token. -/
inductive Phrase : List TokenKind → Prop where
  | halt : Phrase [.mnemonic "halt"]
  | print (src : Operand) : Phrase [.mnemonic "prib", operandToken src]
  | increment (reg : Register) : Phrase [.mnemonic "incb", .register reg]
  | decrement (reg : Register) : Phrase [.mnemonic "decb", .register reg]
  | jump {word : String} (h : word ∈ jumpWords) (name : String) :
      Phrase [.mnemonic word, .label name]
  | binary {word : String} (h : word ∈ binaryWords) (src : Operand) (dst : Register) :
      Phrase [.mnemonic word, operandToken src, .comma, .register dst]

/-- A line without its line end: labels, and behind them nothing or one instruction. -/
def Conforms (kinds : List TokenKind) : Prop :=
  ∃ (names : List String) (body : List TokenKind),
    kinds = names.map .label ++ body ∧ (body = [] ∨ Phrase body)

/-- The node that a token stands for; a comma and a line end stand for none. -/
def TokenKind.node? : TokenKind → Option Tree
  | .mnemonic text => some (.mnemonic text)
  | .register reg => some (.register reg)
  | .number v => some (.integer v)
  | .label name => some (.label name)
  | .comma => none
  | .newline => none

/-- Whether the token is a label. -/
def TokenKind.isLabel : TokenKind → Bool
  | .label _ => true
  | _ => false

/-- A child of a root from left to right. -/
def Tree.leaves : Tree → List Tree
  | .line nodes => nodes
  | node => [node]

/-! ## §2. Operands. -/

variable {text : String} {kinds rest : List TokenKind} {nodes : List Tree}

theorem Says.phrase {s : Statement} (h : Says (.mnemonic text :: nodes) s) :
    Phrase (.mnemonic text :: operandTokens nodes) := by
  cases h with
  | alu op src dst =>
    have hword : op.mnemonic ∈ binaryWords := by cases op <;> decide
    have hp := Phrase.binary hword src dst
    rwa [← lineTokens_binary] at hp
  | bitwise op src dst =>
    have hword : op.mnemonic ∈ binaryWords := by cases op <;> decide
    have hp := Phrase.binary hword src dst
    rwa [← lineTokens_binary] at hp
  | print src =>
    have hp := Phrase.print src
    rwa [← lineTokens_unary] at hp
  | increment reg => exact .increment reg
  | decrement reg => exact .decrement reg
  | jump condition name =>
    have hword : condition.mnemonic ∈ jumpWords := by cases condition <;> decide
    exact .jump hword name
  | halt => exact .halt

/-- The nodes of a form are those that its tokens stand for. -/
theorem Says.filterMap_node? {s : Statement} (h : Says (.mnemonic text :: nodes) s) :
    (operandTokens nodes).filterMap TokenKind.node? = nodes := by
  cases h with
  | alu op src dst => cases src <;> rfl
  | bitwise op src dst => cases src <;> rfl
  | print src => cases src <;> rfl
  | _ => rfl

/-- A word that jumps is the mnemonic of a condition. -/
theorem condition_of_mem {word : String} (h : word ∈ jumpWords) :
    ∃ condition : JumpCondition, condition.mnemonic = word := by
  have hall : jumpWords = JumpCondition.all.map (·.mnemonic) := rfl
  rw [hall] at h
  obtain ⟨condition, -, hc⟩ := List.mem_map.mp h
  exact ⟨condition, hc⟩

/-- A word of two operands is the mnemonic of an arithmetic or of a bitwise operation. -/
theorem operation_of_mem {word : String} (h : word ∈ binaryWords) :
    (∃ op : AluOp, op.mnemonic = word) ∨ ∃ op : BitwiseOp, op.mnemonic = word := by
  have hall : binaryWords = AluOp.all.map (·.mnemonic) ++ BitwiseOp.all.map (·.mnemonic) := rfl
  rw [hall] at h
  rcases List.mem_append.mp h with h | h
  · obtain ⟨op, -, ho⟩ := List.mem_map.mp h
    exact .inl ⟨op, ho⟩
  · obtain ⟨op, -, ho⟩ := List.mem_map.mp h
    exact .inr ⟨op, ho⟩

/-- A phrase is the tokens of a form. -/
theorem says_of_phrase (h : Phrase kinds) : ∃ nodes s, Says nodes s ∧ kinds = lineTokens nodes := by
  cases h with
  | halt => exact ⟨_, _, .halt, rfl⟩
  | print src => exact ⟨_, _, .print src, (lineTokens_unary src).symm⟩
  | increment reg => exact ⟨_, _, .increment reg, rfl⟩
  | decrement reg => exact ⟨_, _, .decrement reg, rfl⟩
  | jump h name =>
    obtain ⟨condition, rfl⟩ := condition_of_mem h
    exact ⟨_, _, .jump condition name, rfl⟩
  | binary h src dst =>
    rcases operation_of_mem h with ⟨op, rfl⟩ | ⟨op, rfl⟩
    · exact ⟨_, _, .alu op src dst, (lineTokens_binary src dst).symm⟩
    · exact ⟨_, _, .bitwise op src dst, (lineTokens_binary src dst).symm⟩

/-- **The operands of a word are read exactly if word and operands are a phrase**, and they are read
as the nodes they stand for. -/
theorem operands_iff_phrase :
    operands text kinds = .ok nodes
      ↔ Phrase (.mnemonic text :: kinds) ∧ nodes = kinds.filterMap TokenKind.node? := by
  rw [operands_iff]
  constructor
  · rintro ⟨⟨s, hs⟩, rfl⟩
    exact ⟨hs.phrase, hs.filterMap_node?.symm⟩
  · rintro ⟨hp, rfl⟩
    obtain ⟨line, s, hs, hkinds⟩ := says_of_phrase hp
    obtain ⟨word, operandNodes, rfl⟩ := hs.head
    obtain ⟨hword, rfl⟩ := List.cons.inj
      (show .mnemonic text :: kinds = .mnemonic word :: operandTokens operandNodes from hkinds)
    cases hword
    rw [hs.filterMap_node?]
    exact ⟨⟨s, hs⟩, rfl⟩

/-- Bad operands are never reported as a missing word. -/
theorem operands_ne_missingMnemonic (text : String) (kinds : List TokenKind) :
    operands text kinds ≠ .error .missingMnemonic := by
  intro h
  unfold operands at h
  split at h
  · split at h <;> cases h
  · rename_i operand
    cases hu : unaryOperand text operand with
    | ok node => rw [hu] at h; cases h
    | error cause =>
      rw [hu] at h
      cases h
      unfold unaryOperand at hu
      split at hu <;> cases hu
  · unfold binaryOperands at h
    split at h
    · cases h
    split at h
    · cases h
    split at h <;> cases h
  · cases h

/-! ## §3. A line. -/

/-- What a line is read as: labels as themselves, and an instruction as one node that holds what its
tokens stand for. -/
inductive Reads : List TokenKind → List Tree → Prop where
  | nothing : Reads [] []
  | instruction {kinds : List TokenKind} (h : Phrase kinds) :
      Reads kinds [.line (kinds.filterMap TokenKind.node?)]
  | label (name : String) {kinds : List TokenKind} {nodes : List Tree} (h : Reads kinds nodes) :
      Reads (.label name :: kinds) (.label name :: nodes)

/-- **A line is read exactly if the grammar says what it is read as.** -/
theorem lineNodes_iff : ∀ {tokens : List Token} {nodes : List Tree},
    lineNodes tokens = .ok nodes ↔ Reads (tokens.map (·.kind)) nodes := by
  intro tokens
  induction tokens with
  | nil =>
    intro nodes
    constructor
    · intro h
      cases h
      exact .nothing
    · intro h
      cases h with
      | nothing => rfl
      | instruction h => cases h
  | cons token others ih =>
    intro nodes
    obtain ⟨kind, line⟩ := token
    cases kind with
    | label name =>
      constructor
      · intro h
        obtain ⟨more, hm, h⟩ := ok_of_bind (show (lineNodes others >>= fun more =>
          Except.ok (Tree.label name :: more)) = .ok nodes from h)
        cases h
        exact .label name (ih.mp hm)
      · intro h
        cases h with
        | instruction h => cases h
        | label _ h =>
          show (lineNodes others >>= fun more => Except.ok (Tree.label name :: more)) = _
          rw [ih.mpr h]
          rfl
    | mnemonic text =>
      constructor
      · intro h
        cases ho : operands text (others.map (·.kind)) with
        | error cause =>
          simp only [lineNodes, ho] at h
          cases h
        | ok operandNodes =>
          rw [lineNodes_mnemonic ho] at h
          cases h
          obtain ⟨hp, rfl⟩ := operands_iff_phrase.mp ho
          exact .instruction hp
      · intro h
        cases h with
        | instruction h => exact lineNodes_mnemonic (operands_iff_phrase.mpr ⟨h, rfl⟩)
    | _ =>
      -- neither a label nor a word: no rule begins so
      constructor
      · intro h
        cases h
      · intro h
        cases h with
        | instruction h => cases h

/-- What conforms to the grammar is read as something. -/
theorem conforms_iff : Conforms kinds ↔ ∃ nodes, Reads kinds nodes := by
  constructor
  · rintro ⟨names, body, rfl, hbody⟩
    induction names with
    | nil =>
      rcases hbody with rfl | hp
      · exact ⟨_, .nothing⟩
      · exact ⟨_, .instruction hp⟩
    | cons name names ih =>
      obtain ⟨nodes, hn⟩ := ih
      exact ⟨_, .label name hn⟩
  · rintro ⟨nodes, h⟩
    induction h with
    | nothing => exact ⟨[], [], rfl, .inl rfl⟩
    | instruction h => exact ⟨[], _, rfl, .inr h⟩
    | label name _ ih =>
      obtain ⟨names, body, rfl, hbody⟩ := ih
      exact ⟨name :: names, body, rfl, hbody⟩

/-- A line is read exactly if it conforms to the grammar. -/
theorem exists_lineNodes_iff {tokens : List Token} :
    (∃ nodes, lineNodes tokens = .ok nodes) ↔ Conforms (tokens.map (·.kind)) := by
  rw [conforms_iff]
  exact exists_congr fun nodes => lineNodes_iff

/-- From left to right, a line is read as what its tokens stand for. -/
theorem Reads.leaves (h : Reads kinds nodes) :
    nodes.flatMap Tree.leaves = kinds.filterMap TokenKind.node? := by
  induction h with
  | nothing => rfl
  | instruction _ => exact List.flatMap_singleton _ _
  | label name _ ih =>
    rw [List.flatMap_cons, ih]
    rfl

/-- What a line is read as is labels and instructions. -/
theorem Reads.mem (h : Reads kinds nodes) : ∀ node ∈ nodes, (∃ name, node = .label name)
    ∨ ∃ body, Phrase body ∧ node = .line (body.filterMap TokenKind.node?) := by
  induction h with
  | nothing => exact fun _ hn => absurd hn List.not_mem_nil
  | instruction h =>
    intro node hn
    exact .inr ⟨_, h, List.mem_singleton.mp hn⟩
  | label name _ ih => exact List.forall_mem_cons.mpr ⟨.inl ⟨name, rfl⟩, ih⟩

/-- **The fault of a line** is reported on its first token that is not a label, and says that a word
is missing exactly if that token is none. -/
theorem fault_of_lineNodes {e : AssemblyError} : ∀ {tokens : List Token},
    lineNodes tokens = .error e → ∃ labels token rest cause, tokens = labels ++ token :: rest
      ∧ (∀ label ∈ labels, label.kind.isLabel = true) ∧ token.kind.isLabel = false
      ∧ e = .source token.line (.grammar cause)
      ∧ (cause = .missingMnemonic ↔ token.kind.isMnemonic = false) := by
  intro tokens
  induction tokens with
  | nil => intro h; cases h
  | cons token others ih =>
    intro h
    obtain ⟨kind, line⟩ := token
    cases kind with
    | label name =>
      cases ho : lineNodes others with
      | ok nodes =>
        simp only [lineNodes, ho] at h
        cases h
      | error cause =>
        simp only [lineNodes, ho] at h
        cases h
        obtain ⟨labels, token, rest, cause, rfl, hl, hfault⟩ := ih ho
        exact ⟨_ :: labels, token, rest, cause, rfl, List.forall_mem_cons.mpr ⟨rfl, hl⟩, hfault⟩
    | mnemonic text =>
      cases ho : operands text (others.map (·.kind)) with
      | ok nodes =>
        simp only [lineNodes, ho] at h
        cases h
      | error cause =>
        simp only [lineNodes, ho] at h
        cases h
        refine ⟨[], _, others, cause, rfl, by simp, rfl, rfl, fun hc => ?_, fun hm => by cases hm⟩
        rw [hc] at ho
        exact absurd ho (operands_ne_missingMnemonic _ _)
    | _ =>
      cases h
      exact ⟨[], _, others, .missingMnemonic, rfl, by simp, rfl, rfl, fun _ => rfl, fun _ => rfl⟩

/-! ## §4. All lines. -/

variable {tokens : List Token}

/-- What the lines of tokens are: no line end stands in one, joined by line ends they are the
tokens, and no token but the line ends is lost. -/
theorem tokenLines_spec (tokens : List Token) :
    (∀ line ∈ tokenLines tokens, ∀ token ∈ line, token.kind ≠ .newline) ∧
      [.newline].intercalate ((tokenLines tokens).map (List.map Token.kind))
        = tokens.map Token.kind ∧
      (tokenLines tokens).flatten = tokens.filter (·.kind != .newline) := by
  refine ⟨?_, ?_, flatten_segments _ _⟩
  · intro line hl token ht
    exact beq_eq_false_iff_ne.mp (free_of_mem_segments tokens line hl token ht)
  · exact intercalate_segments (fun token ht => eq_of_beq ht) tokens

/-- Tokens are read if their lines are, and the tree has the nodes of the lines. -/
theorem ofTokens_iff {tree : Tree} :
    Tree.ofTokens tokens = .ok tree
      ↔ ∃ lists, (tokenLines tokens).mapM lineNodes = .ok lists ∧ tree = .root lists.flatten := by
  constructor
  · intro h
    obtain ⟨lists, hl, h⟩ := ok_of_bind h
    cases h
    exact ⟨lists, hl, rfl⟩
  · rintro ⟨lists, hl, rfl⟩
    show ((tokenLines tokens).mapM lineNodes >>= _) = _
    rw [hl]
    rfl

/-- Tokens are at fault as the first of their lines that is. -/
theorem ofTokens_error_inv {e : AssemblyError} (h : Tree.ofTokens tokens = .error e) :
    ∃ before line after, tokenLines tokens = before ++ line :: after ∧
      (∀ other ∈ before, ∃ nodes, lineNodes other = .ok nodes) ∧ lineNodes line = .error e := by
  apply mapM_error_iff.mp
  change ((tokenLines tokens).mapM lineNodes >>= _) = _ at h
  cases hl : (tokenLines tokens).mapM lineNodes with
  | ok lists =>
    rw [hl] at h
    cases h
  | error cause =>
    rw [hl] at h
    cases h
    rfl

/-- From left to right, lines are read as what their tokens stand for. -/
theorem leaves_of_mapM : ∀ {lines : List (List Token)} {lists : List (List Tree)},
    lines.mapM lineNodes = .ok lists →
      lists.flatten.flatMap Tree.leaves
        = (lines.flatten.map Token.kind).filterMap TokenKind.node? := by
  intro lines
  induction lines with
  | nil => intro lists h; cases h; rfl
  | cons line lines ih =>
    intro lists h
    rw [List.mapM_cons] at h
    obtain ⟨nodes, hn, h⟩ := ok_of_bind h
    obtain ⟨more, hm, h⟩ := ok_of_bind h
    cases h
    rw [List.flatten_cons, List.flatten_cons, List.flatMap_append, List.map_append,
      List.filterMap_append, ih hm, (lineNodes_iff.mp hn).leaves]

/-- Line ends stand for no node. -/
theorem node?_of_filter (tokens : List Token) :
    ((tokens.filter (·.kind != .newline)).map Token.kind).filterMap TokenKind.node?
      = (tokens.map Token.kind).filterMap TokenKind.node? := by
  induction tokens with
  | nil => rfl
  | cons token tokens ih =>
    obtain ⟨kind, line⟩ := token
    cases kind with
    | newline => exact ih
    | comma => exact ih
    | _ => exact congrArg (List.cons _) ih

/-- The children of a tree read from tokens. -/
theorem children_of_ofTokens {tree : Tree} (h : Tree.ofTokens tokens = .ok tree) :
    ∃ nodes, tree = .root nodes ∧
      nodes.flatMap Tree.leaves = (tokens.map Token.kind).filterMap TokenKind.node? ∧
      ∀ node ∈ nodes, (∃ name, node = .label name)
        ∨ ∃ body, Phrase body ∧ node = .line (body.filterMap TokenKind.node?) := by
  obtain ⟨lists, hl, rfl⟩ := ofTokens_iff.mp h
  refine ⟨_, rfl, ?_, fun node hn => ?_⟩
  · rw [leaves_of_mapM hl, (tokenLines_spec tokens).2.2, node?_of_filter]
  · obtain ⟨nodes, hm, hn⟩ := List.mem_flatten.mp hn
    obtain ⟨line, -, hline⟩ := mem_of_mapM hl hm
    exact (lineNodes_iff.mp hline).mem node hn

/-- Tokens are a program exactly if all their lines conform to the grammar. -/
theorem exists_ofTokens_iff :
    (∃ tree, Tree.ofTokens tokens = .ok tree)
      ↔ ∀ line ∈ tokenLines tokens, Conforms (line.map Token.kind) := by
  have hlists : (∃ tree, Tree.ofTokens tokens = .ok tree)
      ↔ ∃ lists, (tokenLines tokens).mapM lineNodes = .ok lists := by
    constructor
    · rintro ⟨tree, h⟩
      obtain ⟨lists, hl, -⟩ := ofTokens_iff.mp h
      exact ⟨lists, hl⟩
    · rintro ⟨lists, hl⟩
      exact ⟨_, ofTokens_iff.mpr ⟨lists, hl, rfl⟩⟩
  rw [hlists, exists_mapM_iff]
  exact forall₂_congr fun line _ => exists_lineNodes_iff

/-- **Parsing follows the grammar, and loses nothing.**  The tokens may be any.  They are a program
exactly if each of their lines is labels and then nothing or one instruction.  If so, the children
of the root are labels and instructions, and from left to right they are what the tokens stand for,
in order.  If not, the fault is one of grammar; it is that of the first line that does not conform,
it is reported on the line that is stored in the first token there that is not a label, and it says
that a word is missing exactly if that token is none. -/
theorem parsing_follows_the_grammar (tokens : List Token) :
    ((∀ line ∈ tokenLines tokens, ∀ token ∈ line, token.kind ≠ .newline) ∧
      [.newline].intercalate ((tokenLines tokens).map (List.map Token.kind))
        = tokens.map Token.kind ∧
      (tokenLines tokens).flatten = tokens.filter (·.kind != .newline)) ∧
    ((∃ tree, Tree.ofTokens tokens = .ok tree)
      ↔ ∀ line ∈ tokenLines tokens, Conforms (line.map Token.kind)) ∧
    (∀ tree, Tree.ofTokens tokens = .ok tree → ∃ nodes, tree = .root nodes ∧
      nodes.flatMap Tree.leaves = (tokens.map Token.kind).filterMap TokenKind.node? ∧
      ∀ node ∈ nodes, (∃ name, node = .label name)
        ∨ ∃ body, Phrase body ∧ node = .line (body.filterMap TokenKind.node?)) ∧
    ∀ e, Tree.ofTokens tokens = .error e → ∃ before line after labels token rest cause,
      tokenLines tokens = before ++ line :: after ∧
      (∀ other ∈ before, Conforms (other.map Token.kind)) ∧ ¬ Conforms (line.map Token.kind) ∧
      line = labels ++ token :: rest ∧ (∀ label ∈ labels, label.kind.isLabel = true) ∧
      token.kind.isLabel = false ∧ e = .source token.line (.grammar cause) ∧
      (cause = .missingMnemonic ↔ token.kind.isMnemonic = false) := by
  refine ⟨tokenLines_spec tokens, exists_ofTokens_iff, fun tree => children_of_ofTokens, ?_⟩
  intro e h
  obtain ⟨before, line, after, hlines, hbefore, hline⟩ := ofTokens_error_inv h
  obtain ⟨labels, token, rest, cause, hsplit, hfault⟩ := fault_of_lineNodes hline
  refine ⟨before, line, after, labels, token, rest, cause, hlines,
    fun other ho => exists_lineNodes_iff.mp (hbefore other ho), fun hc => ?_, hsplit, hfault⟩
  obtain ⟨nodes, hn⟩ := exists_lineNodes_iff.mpr hc
  rw [hn] at hline
  cases hline

/-- A jump behind the label it names, a blank line and a product, on lines numbered at random; and a
comma behind a label, where an instruction should begin. -/
theorem parsing_follows_the_grammar_comma :
    let program : List Token := [⟨.label "a b", 9⟩, ⟨.mnemonic "jmp", 2⟩, ⟨.label "a b", 4⟩,
      ⟨.newline, 0⟩, ⟨.newline, 7⟩, ⟨.mnemonic "mulb", 1⟩, ⟨.number (-3), 1⟩, ⟨.comma, 1⟩,
      ⟨.register .r2, 5⟩]
    let faulty : List Token := [⟨.mnemonic "halt", 5⟩, ⟨.newline, 5⟩, ⟨.label "x", 8⟩, ⟨.comma, 3⟩,
      ⟨.mnemonic "halt", 4⟩]
    Tree.ofTokens program = .ok (.root [.label "a b", .line [.mnemonic "jmp", .label "a b"],
        .line [.mnemonic "mulb", .integer (-3), .register .r2]]) ∧
      (∀ line ∈ tokenLines program, Conforms (line.map Token.kind)) ∧
      Tree.ofTokens faulty = .error (.source 3 (.grammar .missingMnemonic)) ∧
      ∃ line ∈ tokenLines faulty, ¬ Conforms (line.map Token.kind) := by
  intro program faulty
  have hok : Tree.ofTokens program = .ok (.root [.label "a b",
      .line [.mnemonic "jmp", .label "a b"],
      .line [.mnemonic "mulb", .integer (-3), .register .r2]]) := by rfl
  have herror : Tree.ofTokens faulty = .error (.source 3 (.grammar .missingMnemonic)) := by rfl
  refine ⟨hok, (parsing_follows_the_grammar program).2.1.mp ⟨_, hok⟩, herror, ?_⟩
  obtain ⟨before, line, after, -, -, -, -, hlines, -, hnot, -⟩ :=
    (parsing_follows_the_grammar faulty).2.2.2 _ herror
  refine ⟨line, ?_, hnot⟩
  rw [hlines]
  exact List.mem_append_right _ List.mem_cons_self

end ByteMachine.Assembly
