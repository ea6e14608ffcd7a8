/-
  ByteMachine.Proofs.Rendering — what comes back when the text of a tree is read.

  A tree that was read from source is rendered with a colon behind each label it defines and with
  none behind the label a jump names.  The reader drops one colon of an operand that has one, so a
  name that ends in a colon itself comes back shorter, or not at all.  Nothing else is lost:

    • `written_of_ofSource` — the children of a tree read from source,
    • `scan_lineText` — what each of them is read back as (`Tree.reread`),
    • `ofSource_text_root` — so the whole text is read back child by child,
    • `rendering_reads_back_iff` — a tree comes back exactly if no jump names a label that ends in a
      colon.
-/
import ByteMachine.Proofs.Grammar
import ByteMachine.Proofs.Spelling

namespace ByteMachine.Assembly

/-! ## §1. The text of a tree. -/

/-- The text of a child of a root, without its line end. -/
def Tree.lineText : Tree → List Char
  | .label name => '@' :: (name.toList ++ [':'])
  | node => node.text.toList

theorem rootLines_cons (node : Tree) (nodes : List Tree) :
    Tree.rootLines (node :: nodes)
      = String.ofList (node.lineText ++ ['\n']) :: Tree.rootLines nodes := by
  apply (List.cons.injEq _ _ _ _).mpr
  refine ⟨String.toList_inj.mp ?_, rfl⟩
  rw [String.toList_ofList]
  cases node with
  | label name =>
    show ("@" ++ name ++ ":\n").toList = '@' :: (name.toList ++ [':']) ++ ['\n']
    simp
  | _ => exact String.toList_append

/-- The text of a root is that of its children, each with a line end. -/
theorem toList_text_root (nodes : List Tree) :
    (Tree.root nodes).text.toList = nodes.flatMap fun node => node.lineText ++ ['\n'] := by
  rw [Tree.text, String.toList_join]
  induction nodes with
  | nil => rfl
  | cons node nodes ih =>
    rw [rootLines_cons, List.flatMap_cons, List.flatMap_cons, String.toList_ofList, ih]

variable {text : String}

theorem toList_text_one : (Tree.line [.mnemonic text]).text.toList = text.toList := by
  simp [Tree.text, Tree.texts, Tree.joinLine]

theorem toList_text_two (node : Tree) :
    (Tree.line [.mnemonic text, node]).text.toList = text.toList ++ ' ' :: node.text.toList := by
  simp [Tree.text, Tree.texts, Tree.joinLine]

theorem toList_text_three (src dst : Tree) :
    (Tree.line [.mnemonic text, src, dst]).text.toList
      = text.toList ++ ' ' :: (src.text.toList ++ ',' :: ' ' :: dst.text.toList) := by
  simp [Tree.text, Tree.texts, Tree.joinLine]

/-! ## §2. Reading a line back. -/

/-- The token of an operand. -/
def operandToken : Operand → TokenKind
  | .register reg => .register reg
  | .immediate v => .number v

theorem lineTokens_unary (src : Operand) :
    lineTokens [.mnemonic text, src.node] = [.mnemonic text, operandToken src] := by
  cases src <;> rfl

theorem lineTokens_binary (src : Operand) (dst : Register) :
    lineTokens [.mnemonic text, src.node, .register dst]
      = [.mnemonic text, operandToken src, .comma, .register dst] := by
  cases src <;> rfl

variable {rest : List Char} {done : List Token}

theorem scanFrom_mnemonic (h : isMnemonic text = true) (hr : Stops rest) (line : Nat) :
    scanFrom line false [] (text.toList ++ rest)
      = scanFrom line true [⟨.mnemonic text, line⟩] rest :=
  scanFrom_word (wordlike_of_isMnemonic h) (word_of_isMnemonic h) hr line false []

theorem scanFrom_register (reg : Register) (hr : Stops rest) (line : Nat) (operand : Bool) :
    scanFrom line operand done ((Tree.register reg).text.toList ++ rest)
      = scanFrom line false (⟨.register reg, line⟩ :: done) rest :=
  scanFrom_word (wordlike_register reg) (word_register reg) hr line operand done

theorem scanFrom_operand (src : Operand) (hr : Stops rest) (line : Nat) (operand : Bool) :
    scanFrom line operand done (src.node.text.toList ++ rest)
      = scanFrom line false (⟨operandToken src, line⟩ :: done) rest := by
  cases src with
  | register reg => exact scanFrom_register reg hr line operand
  | immediate v =>
    have htext : (Operand.immediate v).node.text.toList = '#' :: Text.Decimal.spell v.toInt := by
      show (Tree.integer v).text.toList = _
      simp [Tree.text, Text.decimal]
    rw [htext]
    exact scanFrom_number v hr line operand done

/-- A line of two operands is read back. -/
theorem scanFrom_binary (h : isMnemonic text = true) (src : Operand) (dst : Register) (line : Nat) :
    scanFrom line false [] (Tree.line [.mnemonic text, src.node, .register dst]).text.toList
      = .ok ((lineTokens [.mnemonic text, src.node, .register dst]).map (⟨·, line⟩)) := by
  have hblank : isDelimiter ' ' = true := rfl
  have hcomma : isDelimiter ',' = true := rfl
  rw [toList_text_three, scanFrom_mnemonic h (stops_cons hblank _), scanFrom_blank rfl,
    scanFrom_operand src (stops_cons hcomma _), scanFrom_comma, scanFrom_blank rfl,
    ← List.append_nil (Tree.register dst).text.toList, scanFrom_register dst stops_nil,
    scanFrom_nil, lineTokens_binary]
  rfl

/-- A line of one operand that is not a label is read back. -/
theorem scanFrom_unary (h : isMnemonic text = true) (src : Operand) (line : Nat) :
    scanFrom line false [] (Tree.line [.mnemonic text, src.node]).text.toList
      = .ok ((lineTokens [.mnemonic text, src.node]).map (⟨·, line⟩)) := by
  have hblank : isDelimiter ' ' = true := rfl
  rw [toList_text_two, scanFrom_mnemonic h (stops_cons hblank _), scanFrom_blank rfl,
    ← List.append_nil src.node.text.toList, scanFrom_operand src stops_nil, scanFrom_nil,
    lineTokens_unary]
  rfl

/-- Characters without a line end are all taken for a label. -/
theorem lexeme_label (operand : Bool) {run : List Char} (hrun : ∀ c ∈ run, isLineEnd c = false) :
    lexeme operand '@' run
      = ((labelName operand run).map fun name => (some (.label name), [])).mapError .label := by
  have hall : ∀ c ∈ run, (!isLineEnd c) = true := fun c hc => by
    rw [hrun c hc]
    rfl
  have hstop : ∀ c ∈ ([] : List Char).head?, (!isLineEnd c) = false := by simp
  have htake : run.takeWhile (!isLineEnd ·) = run := by
    rw [← List.append_nil run]
    exact (takeWhile_run hall hstop).trans (List.append_nil run).symm
  have hdrop : run.dropWhile (!isLineEnd ·) = [] := by
    rw [← List.append_nil run]
    exact dropWhile_run hall hstop
  unfold lexeme
  rw [htake, hdrop]
  cases labelName operand run <;> rfl

/-- A jump is read back with the name that is left of its label. -/
theorem scanFrom_jump (h : isMnemonic text = true) {name : String} (hn : Name name) (line : Nat) :
    scanFrom line false [] (Tree.line [.mnemonic text, .label name]).text.toList
      = ((labelName true name.toList).map fun other =>
          (lineTokens [.mnemonic text, .label other]).map (⟨·, line⟩)).mapError
            fun e => .source line (.label e) := by
  have hblank : isDelimiter ' ' = true := rfl
  have htext : (Tree.label name).text.toList = '@' :: name.toList := by
    simp [Tree.text]
  have hrun : ∀ c ∈ name.toList, isLineEnd c = false := fun c hc => (hn.2 c hc).2.2
  rw [toList_text_two, scanFrom_mnemonic h (stops_cons hblank _), scanFrom_blank rfl, htext]
  have hlexeme := lexeme_label true hrun
  cases hl : labelName true name.toList with
  | ok other =>
    rw [hl] at hlexeme
    rw [scanFrom_token hlexeme, if_neg (by simp), scanFrom_nil]
    rfl
  | error e =>
    rw [hl] at hlexeme
    exact scanFrom_error hlexeme

/-! ## §3. The children of a tree read from source. -/

/-- The node is a child of the root of a tree read from source. -/
inductive Tree.Written : Tree → Prop where
  | label {name : String} (h : Name name) : Written (.label name)
  | line {nodes : List Tree} {s : Statement} (h : Says nodes s)
      (hs : ∀ kind ∈ lineTokens nodes, kind.Spellable) : Written (.line nodes)

/-- The words of all forms are mnemonics. -/
theorem Says.isMnemonic {nodes : List Tree} {s : Statement}
    (h : Says (.mnemonic text :: nodes) s) : isMnemonic text = true := by
  cases h with
  | alu op => cases op <;> decide
  | bitwise op => cases op <;> decide
  | jump condition => cases condition <;> decide
  | _ => decide

theorem spellable_operandToken (src : Operand) : (operandToken src).Spellable := by
  cases src <;> trivial

theorem spellable_two (h : isMnemonic text = true) (src : Operand) :
    ∀ kind ∈ lineTokens [.mnemonic text, src.node], kind.Spellable := by
  rw [lineTokens_unary]
  exact List.forall_mem_cons.mpr ⟨h, List.forall_mem_singleton.mpr (spellable_operandToken src)⟩

theorem spellable_three (h : isMnemonic text = true) (src : Operand) (dst : Register) :
    ∀ kind ∈ lineTokens [.mnemonic text, src.node, .register dst], kind.Spellable := by
  rw [lineTokens_binary]
  exact List.forall_mem_cons.mpr ⟨h, List.forall_mem_cons.mpr ⟨spellable_operandToken src,
    List.forall_mem_cons.mpr ⟨trivial, List.forall_mem_singleton.mpr trivial⟩⟩⟩

/-- A line that says an instruction can stand in a source, for no label is in it. -/
theorem written_of_plain {nodes : List Tree} {i : Instruction} (h : Says nodes (.plain i)) :
    (Tree.line nodes).Written := by
  obtain ⟨text, operandNodes, rfl⟩ := h.head
  have hm := h.isMnemonic
  refine .line h ?_
  cases h with
  | alu op src dst => exact spellable_three hm src dst
  | bitwise op src dst => exact spellable_three hm src dst
  | print src => exact spellable_two hm src
  | increment reg => exact spellable_two hm (.register reg)
  | decrement reg => exact spellable_two hm (.register reg)
  | halt => exact List.forall_mem_singleton.mpr hm

theorem written_jump (condition : JumpCondition) {name : String} (h : Name name) :
    (Tree.line [.mnemonic condition.mnemonic, .label name]).Written :=
  .line (.jump condition name) (List.forall_mem_cons.mpr
    ⟨(Says.jump condition name).isMnemonic, List.forall_mem_singleton.mpr h⟩)

/-- **The children of a tree read from source.** -/
theorem written_of_ofSource {source : String} {tree : Tree} (h : Tree.ofSource source = .ok tree) :
    tree = .root tree.children ∧ ∀ node ∈ tree.children, node.Written := by
  obtain ⟨tokens, hscan, h⟩ := ok_of_bind h
  obtain ⟨lists, hlists, h⟩ := ok_of_bind h
  cases h
  refine ⟨rfl, fun node hn => ?_⟩
  obtain ⟨nodes, hnodes, hn⟩ := List.mem_flatten.mp hn
  obtain ⟨line, hline, hnode⟩ := mem_of_mapM hlists hnodes
  have hspellable : ∀ kind ∈ line.map (·.kind), kind.Spellable := by
    intro kind hk
    obtain ⟨token, ht, rfl⟩ := List.mem_map.mp hk
    have hm : token ∈ (tokenLines tokens).flatten := List.mem_flatten.mpr ⟨line, hline, ht⟩
    unfold tokenLines at hm
    rw [flatten_segments] at hm
    exact spellable_of_mem hscan token (List.mem_filter.mp hm).1
  -- what stands in a child stood in a token, and tokens are spellable
  rcases mem_lineNodes hnode node hn with ⟨name, rfl, hm⟩ | ⟨nodes, s, rfl, hs, hsub⟩
  · exact .label (hspellable _ hm)
  · exact .line hs fun kind hk => hspellable kind (hsub hk)

/-! ## §4. What comes back. -/

/-- What a child of a root comes back as when its text is read on a line of its own: all of them as
they are, but for a jump whose label ends in a colon. -/
def Tree.reread (line : Nat) : Tree → Except AssemblyError Tree
  | .line [.mnemonic text, .label name] =>
    ((labelName true name.toList).map fun other => .line [.mnemonic text, .label other]).mapError
      fun e => .source line (.label e)
  | node => .ok node

/-- What the children of a root come back as, from the line with this number on. -/
def Tree.rereadAll (line : Nat) : List Tree → Except AssemblyError (List Tree)
  | [] => .ok []
  | node :: rest => do
    let other ← node.reread line
    return other :: (← rereadAll (line + 1) rest)

/-- **A child is scanned on a line of its own, and read, as what it comes back as.** -/
theorem scan_lineText {node : Tree} (h : node.Written) (line : Nat) :
    (∃ e, scanFrom line false [] node.lineText = .error e ∧ node.reread line = .error e)
      ∨ ∃ tokens other, scanFrom line false [] node.lineText = .ok tokens
        ∧ lineNodes tokens = .ok [other] ∧ node.reread line = .ok other := by
  cases h with
  | @label name hn =>
    refine .inr ⟨[⟨.label name, line⟩], .label name, ?_, rfl, rfl⟩
    have hrun : ∀ c ∈ name.toList ++ [':'], isLineEnd c = false := by
      intro c hc
      rcases List.mem_append.mp hc with hc | hc
      · exact (hn.2 c hc).2.2
      · rw [List.mem_singleton.mp hc]
        rfl
    have hlexeme := lexeme_label false hrun
    rw [labelName_closed hn] at hlexeme
    show scanFrom line false [] ('@' :: (name.toList ++ [':'])) = _
    rw [scanFrom_token hlexeme, if_neg (by simp), scanFrom_nil]
    rfl
  | @line nodes s hs hspellable =>
    cases hs with
    | alu op src dst =>
      have hline := Says.alu op src dst
      refine .inr ⟨_, _, scanFrom_binary hline.isMnemonic src dst line,
        lineNodes_line hline line, ?_⟩
      cases src <;> rfl
    | bitwise op src dst =>
      have hline := Says.bitwise op src dst
      refine .inr ⟨_, _, scanFrom_binary hline.isMnemonic src dst line,
        lineNodes_line hline line, ?_⟩
      cases src <;> rfl
    | print src =>
      have hline := Says.print src
      refine .inr ⟨_, _, scanFrom_unary hline.isMnemonic src line,
        lineNodes_line hline line, ?_⟩
      cases src <;> rfl
    | increment reg =>
      have hline := Says.increment reg
      exact .inr ⟨_, _, scanFrom_unary hline.isMnemonic (.register reg) line,
        lineNodes_line hline line, rfl⟩
    | decrement reg =>
      have hline := Says.decrement reg
      exact .inr ⟨_, _, scanFrom_unary hline.isMnemonic (.register reg) line,
        lineNodes_line hline line, rfl⟩
    | jump condition name =>
      have hn : Name name :=
        hspellable (.label name) (List.mem_cons_of_mem _ List.mem_cons_self)
      have hscan := scanFrom_jump (Says.jump condition name).isMnemonic hn line
      rw [Tree.reread]
      cases hl : labelName true name.toList with
      | error e =>
        rw [hl] at hscan
        exact .inl ⟨_, hscan, rfl⟩
      | ok other =>
        rw [hl] at hscan
        exact .inr ⟨_, _, hscan, lineNodes_line (.jump condition other) line, rfl⟩
    | halt =>
      refine .inr ⟨[⟨.mnemonic haltMnemonic, line⟩], _, ?_, rfl, rfl⟩
      show scanFrom line false [] (Tree.line [.mnemonic haltMnemonic]).text.toList = _
      rw [toList_text_one, ← List.append_nil haltMnemonic.toList,
        scanFrom_mnemonic (by decide) stops_nil, scanFrom_nil]
      rfl

/-! ## §5. The whole text. -/

/-- Characters that stay on one line. -/
def OneLine (cs : List Char) : Prop := ∀ c ∈ cs, (c == '\n') = false

instance {cs : List Char} : Decidable (OneLine cs) := inferInstanceAs (Decidable (∀ _ ∈ _, _))

@[simp] theorem oneLine_nil : OneLine [] := List.forall_mem_nil _

@[simp] theorem oneLine_cons {c : Char} {cs : List Char} :
    OneLine (c :: cs) ↔ c ≠ '\n' ∧ OneLine cs := by
  simp [OneLine]

@[simp] theorem oneLine_append {cs ds : List Char} :
    OneLine (cs ++ ds) ↔ OneLine cs ∧ OneLine ds := List.forall_mem_append

/-- Digits stay on one line, whatever they count by. -/
@[simp] theorem oneLine_toDigits {base : Nat} (h : 1 < base) (n : Nat) :
    OneLine (base.toDigits n) := by
  have hdigit : ∀ d : Nat, OneLine [d.digitChar] := by
    intro d
    simp [Nat.digitChar_ne '\n' (by decide)]
  induction n using Nat.strongRecOn with
  | ind n ih =>
    rw [Nat.toDigits_eq_if h]
    split
    · exact hdigit n
    · exact oneLine_append.mpr ⟨ih (n / base) (Nat.div_lt_self (by omega) h), hdigit _⟩

@[simp] theorem oneLine_decimal (v : Int) : OneLine (Text.decimal v).toList := by
  unfold Text.decimal Text.Decimal.spell Text.Decimal.digits
  split <;> simp

@[simp] theorem oneLine_hex (width n : Nat) : OneLine (Text.hex width n).toList := by
  have hzeros : ∀ k, OneLine (List.replicate k '0') := fun k c hc => by
    rw [List.eq_of_mem_replicate hc]
    rfl
  simp [Text.hex, hzeros]

@[simp] theorem oneLine_hexPrefixed (width n : Nat) :
    OneLine (Text.hexPrefixed width n).toList := by
  simp [Text.hexPrefixed]

theorem oneLine_of_wordlike (h : Wordlike text) : OneLine text.toList := by
  intro c hc
  have hd := h.2 c hc
  simp only [isDelimiter, Bool.or_eq_false_iff] at hd
  exact hd.1.1.1.1.2

theorem oneLine_of_name {name : String} (h : Name name) : OneLine name.toList := by
  intro c hc
  have hd := (h.2 c hc).2.2
  simp only [isLineEnd, Bool.or_eq_false_iff] at hd
  exact hd.1

@[simp] theorem oneLine_register (reg : Register) : OneLine reg.name.toList :=
  oneLine_of_wordlike (wordlike_register reg)

theorem oneLine_operand (src : Operand) : OneLine src.node.text.toList := by
  cases src <;> simp [Operand.node, Tree.text]

@[simp] theorem oneLine_condition (condition : JumpCondition) :
    OneLine condition.mnemonic.toList := by
  cases condition <;> simp [JumpCondition.mnemonic]

/-- The text of an instruction is one line. -/
@[simp] theorem oneLine_instruction (i : Instruction) : OneLine i.text.toList := by
  have hsrc : ∀ src : Operand, OneLine src.text.toList := by
    intro src
    cases src <;> simp [Operand.text]
  cases i with
  | alu op src dst => cases op <;> simp [Instruction.text, AluOp.mnemonic, toString, hsrc]
  | bitwise op src dst => cases op <;> simp [Instruction.text, BitwiseOp.mnemonic, toString, hsrc]
  | halt => simp [Instruction.text, haltMnemonic]
  | _ => simp [Instruction.text, UnaryOp.mnemonic, toString, hsrc]

theorem oneLine_two {node : Tree} (h : isMnemonic text = true) (hn : OneLine node.text.toList) :
    OneLine (Tree.line [.mnemonic text, node]).text.toList := by
  have hword := oneLine_of_wordlike (wordlike_of_isMnemonic h)
  rw [toList_text_two]
  simp [hword, hn]

theorem oneLine_three (h : isMnemonic text = true) (src : Operand) (dst : Register) :
    OneLine (Tree.line [.mnemonic text, src.node, .register dst]).text.toList := by
  have hword := oneLine_of_wordlike (wordlike_of_isMnemonic h)
  have hdst : OneLine (Tree.register dst).text.toList := oneLine_operand (.register dst)
  rw [toList_text_three]
  simp [hword, hdst, oneLine_operand src]

/-- The text of a child is one line. -/
theorem oneLine_lineText {node : Tree} (h : node.Written) : OneLine node.lineText := by
  cases h with
  | @label name hn =>
    show OneLine ('@' :: (name.toList ++ [':']))
    simp [oneLine_of_name hn]
  | @line nodes s hs hspellable =>
    obtain ⟨text, operandNodes, rfl⟩ := hs.head
    have hm := hs.isMnemonic
    cases hs with
    | alu op src dst => exact oneLine_three hm src dst
    | bitwise op src dst => exact oneLine_three hm src dst
    | print src => exact oneLine_two hm (oneLine_operand src)
    | increment reg => exact oneLine_two hm (oneLine_operand (.register reg))
    | decrement reg => exact oneLine_two hm (oneLine_operand (.register reg))
    | jump condition name =>
      have hn : Name name :=
        hspellable (.label name) (List.mem_cons_of_mem _ List.mem_cons_self)
      exact oneLine_two hm (by simp [Tree.text, oneLine_of_name hn])
    | halt =>
      show OneLine (Tree.line [.mnemonic haltMnemonic]).text.toList
      rw [toList_text_one]
      exact oneLine_of_wordlike (wordlike_of_isMnemonic hm)

/-- The lines of the text of a root are those of its children, and an empty one. -/
theorem sourceLines_text {nodes : List Tree} (h : ∀ node ∈ nodes, node.Written) :
    sourceLines (Tree.root nodes).text = nodes.map Tree.lineText ++ [[]] := by
  unfold sourceLines
  rw [toList_text_root]
  induction nodes with
  | nil => rfl
  | cons node nodes ih =>
    obtain ⟨hnode, hnodes⟩ := List.forall_mem_cons.mp h
    rw [List.flatMap_cons, List.append_assoc]
    show segments _ (node.lineText ++ '\n' :: _) = _
    rw [segments_append_cons (oneLine_lineText hnode) rfl]
    exact congrArg (node.lineText :: ·) (ih hnodes)

/-- The lines of children are scanned, and read, as what the children come back as. -/
theorem scanLines_lineText {nodes : List Tree} (h : ∀ node ∈ nodes, node.Written) :
    ∀ line : Nat, (do
        let lines ← scanLines line (nodes.map Tree.lineText ++ [[]])
        return (← lines.mapM lineNodes).flatten) = Tree.rereadAll line nodes := by
  induction nodes with
  | nil =>
    intro line
    show (do
      let lines ← scanLines line [[]]
      return (← lines.mapM lineNodes).flatten) = .ok []
    rw [scanLines, scanFrom_nil]
    rfl
  | cons node nodes ih =>
    intro line
    obtain ⟨hnode, hnodes⟩ := List.forall_mem_cons.mp h
    have ih := ih hnodes (line + 1)
    rw [List.map_cons, List.cons_append, scanLines, Tree.rereadAll, ← ih]
    rcases scan_lineText hnode line with ⟨e, hs, hr⟩ | ⟨tokens, other, hs, hl, hr⟩
    · rw [hs, hr]
      rfl
    · -- only the scan can fail, and it does so in the order of the lines
      rw [hs, hr]
      cases scanLines (line + 1) (nodes.map Tree.lineText ++ [[]]) with
      | error e => rfl
      | ok lines =>
        show ((tokens :: lines).mapM lineNodes >>= fun lists => Except.ok lists.flatten)
          = (lines.mapM lineNodes >>= fun lists => Except.ok lists.flatten) >>= fun others =>
              Except.ok (other :: others)
        rw [List.mapM_cons, hl]
        cases lines.mapM lineNodes <;> rfl

/-- **Children that are written are read back one by one.** -/
theorem ofSource_text_root {nodes : List Tree} (h : ∀ node ∈ nodes, node.Written) :
    Tree.ofSource (Tree.root nodes).text = (Tree.rereadAll 1 nodes).map .root := by
  have hlines := scanLines_lineText h 1
  rw [ofSource_eq_lines, sourceLines_text h, ← hlines]
  cases scanLines 1 (nodes.map Tree.lineText ++ [[]]) with
  | error e => rfl
  | ok lines =>
    show (lines.mapM lineNodes >>= fun lists => Except.ok (Tree.root lists.flatten))
      = (lines.mapM lineNodes >>= fun lists => Except.ok lists.flatten).map Tree.root
    cases lines.mapM lineNodes <;> rfl

/-- The text of a tree read from source is read back child by child. -/
theorem ofSource_text {source : String} {tree : Tree} (h : Tree.ofSource source = .ok tree) :
    Tree.ofSource tree.text = (Tree.rereadAll 1 tree.children).map .root := by
  obtain ⟨hroot, hwritten⟩ := written_of_ofSource h
  rw [hroot]
  exact ofSource_text_root hwritten

/-! ## §6. Trees that come back. -/

/-- The child is a jump whose label ends in a colon. -/
def Tree.jumpsToColon : Tree → Prop
  | .line [.mnemonic _, .label name] => name.toList.getLast? = some ':'
  | _ => False

/-- A child comes back as it is unless it is a jump whose label ends in a colon. -/
theorem reread_iff {node : Tree} (h : node.Written) (line : Nat) :
    node.reread line = .ok node ↔ ¬ node.jumpsToColon := by
  cases h with
  | label hn => exact ⟨fun _ hc => hc, fun _ => rfl⟩
  | @line nodes s hs hspellable =>
    cases hs with
    | jump condition name =>
      have hn : Name name :=
        hspellable (.label name) (List.mem_cons_of_mem _ List.mem_cons_self)
      show _ ↔ name.toList.getLast? ≠ some ':'
      rw [← labelName_operand_iff hn, Tree.reread]
      constructor
      · intro h
        cases hl : labelName true name.toList with
        | error e => rw [hl] at h; cases h
        | ok other => rw [hl] at h; cases h; rfl
      · intro h
        rw [h]
        rfl
    | alu op src => cases src <;> exact ⟨fun _ hc => hc, fun _ => rfl⟩
    | bitwise op src => cases src <;> exact ⟨fun _ hc => hc, fun _ => rfl⟩
    | print src => cases src <;> exact ⟨fun _ hc => hc, fun _ => rfl⟩
    | _ => exact ⟨fun _ hc => hc, fun _ => rfl⟩

theorem rereadAll_iff {nodes : List Tree} (h : ∀ node ∈ nodes, node.Written) :
    ∀ line : Nat, Tree.rereadAll line nodes = .ok nodes ↔ ∀ node ∈ nodes, ¬ node.jumpsToColon := by
  induction nodes with
  | nil =>
    intro line
    exact ⟨fun _ => by simp, fun _ => rfl⟩
  | cons node nodes ih =>
    intro line
    obtain ⟨hnode, hnodes⟩ := List.forall_mem_cons.mp h
    rw [List.forall_mem_cons, ← reread_iff hnode line, ← ih hnodes (line + 1), Tree.rereadAll]
    constructor
    · intro hall
      obtain ⟨other, ho, hall⟩ := ok_of_bind hall
      obtain ⟨others, hs, hall⟩ := ok_of_bind hall
      cases hall
      exact ⟨ho, hs⟩
    · rintro ⟨ho, hs⟩
      rw [ho, hs]
      rfl

/-- **A tree read from source comes back from its text exactly if no jump names a label that ends in
a colon.**  Whatever a label is called, its definition comes back. -/
theorem rendering_reads_back_iff {source : String} {tree : Tree}
    (h : Tree.ofSource source = .ok tree) :
    Tree.ofSource tree.text = .ok tree ↔
      ∀ text name, .line [.mnemonic text, .label name] ∈ tree.children →
        name.toList.getLast? ≠ some ':' := by
  obtain ⟨hroot, hwritten⟩ := written_of_ofSource h
  have hall : Tree.ofSource tree.text = .ok tree ↔ Tree.rereadAll 1 tree.children
      = .ok tree.children := by
    rw [ofSource_text h]
    constructor
    · intro he
      obtain ⟨nodes, hn, he⟩ := ok_of_map he
      rw [hn, ← he]
      rfl
    · intro he
      rw [he]
      exact congrArg Except.ok hroot.symm
  rw [hall, rereadAll_iff hwritten 1]
  constructor
  · intro hnone text name hm
    exact hnone _ hm
  · intro hnone node hm hcolon
    unfold Tree.jumpsToColon at hcolon
    split at hcolon
    · exact hnone _ _ hm hcolon
    · exact hcolon

/-- A label that ends in a colon comes back where it is defined, and one that ends as a comment
begins also where it is jumped to. -/
theorem rendering_reads_back_definition :
    let tree : Tree := .root [.label "a:", .line [.mnemonic "jmp", .label "b;"]]
    Tree.ofSource "@a::\njmp @b;\n" = .ok tree ∧ Tree.ofSource tree.text = .ok tree := by
  intro tree
  have h : Tree.ofSource "@a::\njmp @b;\n" = .ok tree := by cbv
  refine ⟨h, (rendering_reads_back_iff h).mpr ?_⟩
  intro text name hm
  have hline : Tree.line [.mnemonic text, .label name] = .line [.mnemonic "jmp", .label "b;"] := by
    simpa [tree, Tree.children] using hm
  cases hline
  decide

/-- A jump to a label that ends in a colon does not come back. -/
theorem not_all_renderings_read_back :
    ¬ ∀ source tree, Tree.ofSource source = .ok tree → Tree.ofSource tree.text = .ok tree := by
  intro hall
  have h : Tree.ofSource "jmp @a::" = .ok (.root [.line [.mnemonic "jmp", .label "a:"]]) := by cbv
  have hback := hall _ _ h
  rw [ofSource_text h] at hback
  obtain ⟨nodes, hn, he⟩ := ok_of_map hback
  cases he
  have hnone := (rereadAll_iff (written_of_ofSource h).2 1).mp hn
  exact hnone _ List.mem_cons_self (show "a:".toList.getLast? = some ':' by decide)

end ByteMachine.Assembly
