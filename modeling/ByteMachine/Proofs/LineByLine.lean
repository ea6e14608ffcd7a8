/-
  ByteMachine.Proofs.LineByLine — a source against its lines, each read on its own.

  A line read on its own stands on line 1, so the tokens and the faults of a line inside a source
  are its own ones, moved down by the number of lines before it (`Token.down`,
  `AssemblyError.down`).  With that, everything about a source is decided line by line:

    • `scan_append_newline` — what stands behind a line end is scanned as if it stood alone,
    • `scanLines_error` — the first line that cannot be scanned gives the fault,
    • `nodesOfLines_error`, `nodesOfLines_ok` — if all can, the first line that cannot be parsed
      gives it, and if all can, the nodes are those of the lines in order,
    • `source_is_read_by_lines` — the three cases in full.
-/
import Mathlib
import ByteMachine.Assembly.Draft
import ByteMachine.Proofs.Parsing

namespace ByteMachine.Assembly

/-! ## §1. Further down in a source. -/

/-- The token, `n` lines further down. -/
def Token.down (n : Nat) (t : Token) : Token := { t with line := t.line + n }

/-- The fault, `n` lines further down; a fault that belongs to no line stays. -/
def AssemblyError.down (n : Nat) : AssemblyError → AssemblyError
  | .source line cause => .source (line + n) cause
  | e => e

/-- What a scan gives, `n` lines further down. -/
def tokensDown (n : Nat) (result : Except AssemblyError (List Token)) :
    Except AssemblyError (List Token) :=
  (result.map (List.map (Token.down n))).mapError (AssemblyError.down n)

/-- The wording of a fault of the source names its line, and is the same on every line but for
that. -/
theorem message_source (cause : SourceError) :
    ∃ opening ending, ∀ line,
      (AssemblyError.source line cause).message = opening ++ toString line ++ ending := by
  cases cause with
  | label cause =>
    refine ⟨"lex error on line ", ": " ++ cause.message, fun line => ?_⟩
    rw [← String.append_assoc]
    rfl
  | grammar cause =>
    refine ⟨"syntax error on line ", ": " ++ cause.message, fun line => ?_⟩
    rw [← String.append_assoc]
    rfl

/-- **A scan does not depend on the line it starts on.** -/
theorem scanFrom_down (n : Nat) (text : List Char) : ∀ (line : Nat) (operand : Bool),
    scanFrom (line + n) operand [] text = tokensDown n (scanFrom line operand [] text) := by
  induction text using scan_induction with
  | nil =>
    intro line operand
    rw [scanFrom_nil, scanFrom_nil]
    rfl
  | lexeme c rest ih =>
    intro line operand
    rcases h : lexeme operand c rest with e | ⟨_ | kind, left⟩
    · rw [scanFrom_error h, scanFrom_error h]
      rfl
    · rw [scanFrom_skip h, scanFrom_skip h]
      exact ih h line operand
    · have hline : (if kind = .newline then line + n + 1 else line + n)
          = (if kind = .newline then line + 1 else line) + n := by
        split <;> omega
      rw [scanFrom_token h, scanFrom_token h, scanFrom_done, scanFrom_done _ _ _ [_], hline,
        ih h]
      cases scanFrom (if kind = .newline then line + 1 else line) kind.isMnemonic [] left <;> rfl

/-- What a scan gives stands on one line: all tokens do, or the fault does. -/
def StaysOn (line : Nat) : Except AssemblyError (List Token) → Prop
  | .ok tokens => ∀ token ∈ tokens, token.line = line
  | .error e => ∃ cause, e = .source line cause

/-- A text without line ends stays on the line it starts on. -/
theorem staysOn_scanFrom (text : List Char) : ∀ (line : Nat) (operand : Bool),
    (∀ c ∈ text, (c == '\n') = false) → StaysOn line (scanFrom line operand [] text) := by
  induction text using scan_induction with
  | nil =>
    intro line operand _
    rw [scanFrom_nil]
    intro token ht
    cases ht
  | lexeme c rest ih =>
    intro line operand hfree
    rcases h : lexeme operand c rest with cause | ⟨kind, left⟩
    · rw [scanFrom_error h]
      exact ⟨cause, rfl⟩
    obtain ⟨hleft, hkind⟩ := free_of_lexeme h hfree
    cases kind with
    | none =>
      rw [scanFrom_skip h]
      exact ih h line operand hleft
    | some kind =>
      rw [scanFrom_token h, if_neg (by simpa using hkind), scanFrom_done]
      have hrest := ih h line kind.isMnemonic hleft
      cases ho : scanFrom line kind.isMnemonic [] left with
      | error e =>
        rw [ho] at hrest
        exact hrest
      | ok others =>
        rw [ho] at hrest
        intro token ht
        rcases List.mem_append.mp ht with ht | ht
        · rw [List.mem_singleton.mp ht]
        · exact hrest token ht

/-! ## §2. Behind a line end. -/

/-- The tokens of a line, its end, and the tokens of the rest. -/
theorem scanFrom_first {source : List Char} (hfree : ∀ c ∈ source, (c == '\n') = false)
    (rest : List Char) (line : Nat) :
    scanFrom line false [] (source ++ '\n' :: rest) = do
      let tokens ← scanFrom line false [] source
      let others ← scanFrom (line + 1) false [] rest
      return tokens ++ ⟨.newline, line⟩ :: others := by
  rw [scanFrom_line source rest hfree]
  cases scanFrom line false [] source with
  | error e => rfl
  | ok tokens =>
    show scanFrom (line + 1) false (⟨.newline, line⟩ :: tokens.reverse) rest = _
    rw [scanFrom_done]
    cases scanFrom (line + 1) false [] rest with
    | error e => rfl
    | ok others =>
      refine congrArg Except.ok ?_
      show (_ :: tokens.reverse).reverse ++ others = tokens ++ _ :: others
      rw [List.reverse_cons, List.reverse_reverse, List.append_assoc]
      rfl

theorem count_of_free {source : List Char} (hfree : ∀ c ∈ source, (c == '\n') = false) :
    source.countP (· == '\n') = 0 :=
  List.countP_eq_zero.mpr fun c hc => by simpa using hfree c hc

/-- What stands behind any line end, and not only the first, is scanned on its own. -/
theorem scanFrom_newline (after before : List Char) : ∀ line : Nat,
    scanFrom line false [] (before ++ '\n' :: after) = do
      let tokens ← scanFrom line false [] before
      let others ← scanFrom (line + before.countP (· == '\n') + 1) false [] after
      return tokens ++ ⟨.newline, line + before.countP (· == '\n')⟩ :: others := by
  induction before using line_induction with
  | last source hfree =>
    intro line
    rw [scanFrom_first hfree, count_of_free hfree]
    rfl
  | more source rest hfree ih =>
    intro line
    have hcount : line + (source ++ '\n' :: rest).countP (· == '\n')
        = line + 1 + rest.countP (· == '\n') := by
      rw [List.countP_append, count_of_free hfree, List.countP_cons_of_pos rfl]
      omega
    rw [List.append_assoc, List.cons_append, scanFrom_first hfree, scanFrom_first hfree, hcount,
      ih (line + 1)]
    cases scanFrom line false [] source with
    | error e => rfl
    | ok tokens =>
      cases scanFrom (line + 1) false [] rest with
      | error e => rfl
      | ok more =>
        cases hothers : scanFrom (line + 1 + rest.countP (· == '\n') + 1) false [] after with
        | error e => simp only [bind, Except.bind, pure, Except.pure]
        | ok others =>
          simp only [bind, Except.bind, pure, Except.pure, List.append_assoc, List.cons_append]

/-! ## §3. Lines as texts. -/

/-- The lines of a source text, as texts. -/
def textLines (source : String) : List String := (sourceLines source).map String.ofList

theorem length_textLines (source : String) :
    (textLines source).length = source.toList.countP (· == '\n') + 1 := by
  unfold textLines sourceLines
  rw [List.length_map, length_segments]

theorem map_toList_textLines (source : String) :
    (textLines source).map String.toList = sourceLines source := by
  unfold textLines
  rw [List.map_map]
  conv => rhs; rw [← List.map_id (sourceLines source)]
  exact List.map_congr_left fun text _ => String.toList_ofList

/-- What the lines of a source are: there is one at least, none has a line end in it, and joined by
line ends they are the source. -/
theorem textLines_spec (source : String) :
    textLines source ≠ [] ∧ (∀ line ∈ textLines source, '\n' ∉ line.toList) ∧
      "\n".intercalate (textLines source) = source := by
  refine ⟨?_, ?_, ?_⟩
  · unfold textLines
    intro h
    exact segments_ne_nil _ _ (List.map_eq_nil_iff.mp h)
  · intro line hl hmem
    obtain ⟨text, ht, rfl⟩ := List.mem_map.mp hl
    rw [String.toList_ofList] at hmem
    exact absurd (free_of_mem_segments _ text ht _ hmem) (by decide)
  · apply String.toList_inj.mp
    rw [String.toList_intercalate, map_toList_textLines]
    have hjoin : ['\n'].intercalate ((sourceLines source).map (List.map id))
        = source.toList.map id :=
      intercalate_segments (fun c hc => eq_of_beq hc) source.toList
    rwa [List.map_id_fun, List.map_id] at hjoin

/-- **What stands behind a line end is scanned as if it stood alone**, further down by the lines in
front of it. -/
theorem scan_append_newline (before after : String) :
    scan (before ++ "\n" ++ after) = do
      let tokens ← scan before
      let others ← tokensDown (textLines before).length (scan after)
      return tokens ++ ⟨.newline, (textLines before).length⟩ :: others := by
  have htext : (before ++ "\n" ++ after).toList = before.toList ++ '\n' :: after.toList := by
    rw [String.toList_append, String.toList_append, List.append_assoc]
    rfl
  have hline : 1 + before.toList.countP (· == '\n') = (textLines before).length := by
    rw [length_textLines, Nat.add_comm]
  unfold scan
  rw [htext, scanFrom_newline, hline, Nat.add_comm _ 1, scanFrom_down]

/-! ## §4. The nodes of lines. -/

/-- The nodes of a line on its own. -/
def nodesOfLine (line : String) : Except AssemblyError (List Tree) := do
  lineNodes (← scan line)

/-- The nodes of lines with `n` lines in front of them: all are scanned before the first is given
its nodes. -/
def nodesOfLines (n : Nat) (lines : List String) : Except AssemblyError (List (List Tree)) := do
  let tokens ← scanLines (n + 1) (lines.map String.toList)
  tokens.mapM lineNodes

theorem ofSource_eq_nodesOfLines (source : String) :
    Tree.ofSource source
      = (nodesOfLines 0 (textLines source)).map fun nodes => .root nodes.flatten := by
  rw [ofSource_eq_lines]
  unfold nodesOfLines
  rw [map_toList_textLines]
  cases scanLines 1 (sourceLines source) with
  | error e => rfl
  | ok lines =>
    show (lines.mapM lineNodes).bind _ = (lines.mapM lineNodes).map _
    cases lines.mapM lineNodes <;> rfl

theorem beq_newline_of_not_mem {line : String} (h : '\n' ∉ line.toList) :
    ∀ c ∈ line.toList, (c == '\n') = false := by
  intro c hc
  refine beq_eq_false_iff_ne.mpr ?_
  rintro rfl
  exact h hc

/-- A source of one line has the nodes of that line. -/
theorem ofSource_line {line : String} (h : '\n' ∉ line.toList) :
    Tree.ofSource line = (nodesOfLine line).map .root := by
  have hone : sourceLines line = [line.toList] := segments_of_free (beq_newline_of_not_mem h)
  rw [ofSource_eq_lines, hone]
  unfold nodesOfLine scan
  rw [scanLines, scanLines]
  cases scanFrom 1 false [] line.toList with
  | error e => rfl
  | ok tokens =>
    show (List.mapM lineNodes [tokens]).bind _ = (lineNodes tokens).map _
    rw [List.mapM_cons]
    cases lineNodes tokens with
    | error e => rfl
    | ok nodes =>
      show Except.ok (Tree.root [nodes].flatten) = .ok (.root nodes)
      rw [List.flatten_singleton]

/-- The tree of a line has the nodes of that line. -/
theorem nodesOfLine_of_ok {line : String} {tree : Tree} (hfree : '\n' ∉ line.toList)
    (h : Tree.ofSource line = .ok tree) :
    ∃ nodes, nodesOfLine line = .ok nodes ∧ tree = .root nodes := by
  rw [ofSource_line hfree] at h
  obtain ⟨nodes, hn, ht⟩ := ok_of_map h
  exact ⟨nodes, hn, ht.symm⟩

/-- A line on its own is at fault if its nodes are. -/
theorem nodesOfLine_of_error {line : String} {e : AssemblyError} (hfree : '\n' ∉ line.toList)
    (h : Tree.ofSource line = .error e) : nodesOfLine line = .error e := by
  rw [ofSource_line hfree] at h
  cases hn : nodesOfLine line with
  | ok nodes => rw [hn] at h; cases h
  | error cause => rw [hn] at h; cases h; rfl

/-- The tokens of a line have the same nodes further down, or the same fault further down. -/
theorem lineNodes_down (n : Nat) (tokens : List Token) :
    lineNodes (tokens.map (Token.down n))
      = (lineNodes tokens).mapError (AssemblyError.down n) := by
  induction tokens with
  | nil => rfl
  | cons token rest ih =>
    obtain ⟨kind, line⟩ := token
    cases kind with
    | label name =>
      show (lineNodes (rest.map (Token.down n))).bind _
        = ((lineNodes rest).bind fun nodes => .ok (.label name :: nodes)).mapError _
      rw [ih]
      cases lineNodes rest <;> rfl
    | mnemonic text =>
      have hkinds : (rest.map (Token.down n)).map (·.kind) = rest.map (·.kind) := by
        rw [List.map_map]
        rfl
      simp only [List.map_cons, Token.down, lineNodes]
      rw [hkinds]
      cases operands text (rest.map (·.kind)) <;> rfl
    | _ => rfl

/-- Tokens of one line are at fault on that line, in their grammar. -/
theorem grammar_of_lineNodes_error {line : Nat} {e : AssemblyError} {tokens : List Token}
    (hline : ∀ token ∈ tokens, token.line = line) (h : lineNodes tokens = .error e) :
    ∃ cause, e = .source line (.grammar cause) := by
  obtain ⟨labels, token, rest, cause, rfl, -, -, rfl, -⟩ := fault_of_lineNodes h
  exact ⟨cause, by rw [hline token (List.mem_append_right _ List.mem_cons_self)]⟩

/-! ## §5. Many lines. -/

variable {lines before after : List String} {text : String} {e : AssemblyError}

/-- The first of some lines is scanned as if it stood alone. -/
theorem scanLines_cons (n : Nat) (text : String) (lines : List String) :
    scanLines (n + 1) ((text :: lines).map String.toList) = do
      let tokens ← tokensDown n (scan text)
      return tokens :: (← scanLines (n + 1 + 1) (lines.map String.toList)) := by
  show scanFrom (n + 1) false [] text.toList >>= _ = tokensDown n (scanFrom 1 false [] _) >>= _
  rw [Nat.add_comm n 1, scanFrom_down]

/-- **The first line that cannot be scanned gives the fault**, where it stands. -/
theorem scanLines_error (hbefore : ∀ other ∈ before, ∃ tokens, scan other = .ok tokens)
    (h : scan text = .error e) : ∀ n,
    scanLines (n + 1) ((before ++ text :: after).map String.toList)
      = .error (e.down (n + before.length)) := by
  induction before with
  | nil =>
    intro n
    rw [List.nil_append, scanLines_cons, h]
    rfl
  | cons first before ih =>
    intro n
    obtain ⟨tokens, ht⟩ := hbefore first List.mem_cons_self
    have hrest := ih (fun other ho => hbefore other (List.mem_cons_of_mem _ ho)) (n + 1)
    rw [List.cons_append, scanLines_cons, ht, hrest, List.length_cons,
      show n + 1 + before.length = n + (before.length + 1) from by omega]
    rfl

/-- Lines that can each be scanned can all be. -/
theorem scanLines_ok (h : ∀ line ∈ lines, ∃ tokens, scan line = .ok tokens) : ∀ n,
    ∃ tokens, scanLines (n + 1) (lines.map String.toList) = .ok tokens := by
  induction lines with
  | nil => intro n; exact ⟨[], rfl⟩
  | cons first lines ih =>
    intro n
    obtain ⟨tokens, ht⟩ := h first List.mem_cons_self
    obtain ⟨others, ho⟩ := ih (fun line hl => h line (List.mem_cons_of_mem _ hl)) (n + 1)
    refine ⟨tokens.map (Token.down n) :: others, ?_⟩
    rw [scanLines_cons, ht, ho]
    rfl

/-- Where all lines can be scanned, the nodes of the first are read before those of the others. -/
theorem nodesOfLines_cons (h : ∀ line ∈ text :: lines, ∃ tokens, scan line = .ok tokens)
    (n : Nat) :
    nodesOfLines n (text :: lines) = do
      let nodes ← (nodesOfLine text).mapError (AssemblyError.down n)
      let more ← nodesOfLines (n + 1) lines
      return nodes :: more := by
  obtain ⟨tokens, ht⟩ := h text List.mem_cons_self
  obtain ⟨others, ho⟩ := scanLines_ok (fun line hl => h line (List.mem_cons_of_mem _ hl)) (n + 1)
  unfold nodesOfLines nodesOfLine
  rw [scanLines_cons, ho, ht]
  show (tokens.map (Token.down n) :: others).mapM lineNodes = _
  rw [List.mapM_cons, lineNodes_down]
  rfl

/-- **Where all lines can be scanned, the first that cannot be parsed gives the fault.** -/
theorem nodesOfLines_error
    (hscan : ∀ line ∈ before ++ text :: after, ∃ tokens, scan line = .ok tokens)
    (hbefore : ∀ other ∈ before, ∃ nodes, nodesOfLine other = .ok nodes)
    (h : nodesOfLine text = .error e) : ∀ n,
    nodesOfLines n (before ++ text :: after) = .error (e.down (n + before.length)) := by
  induction before with
  | nil =>
    intro n
    rw [List.nil_append, nodesOfLines_cons hscan, h]
    rfl
  | cons first before ih =>
    intro n
    obtain ⟨nodes, hn⟩ := hbefore first List.mem_cons_self
    rw [List.cons_append] at hscan ⊢
    have hrest := ih (fun line hl => hscan line (List.mem_cons_of_mem _ hl))
      (fun other ho => hbefore other (List.mem_cons_of_mem _ ho)) (n + 1)
    rw [nodesOfLines_cons hscan, hn, hrest, List.length_cons,
      show n + 1 + before.length = n + (before.length + 1) from by omega]
    rfl

/-- What can be parsed can be scanned. -/
theorem scan_of_ofSource {tree : Tree} (h : Tree.ofSource text = .ok tree) :
    ∃ tokens, scan text = .ok tokens := by
  obtain ⟨tokens, ht, -⟩ := ok_of_bind h
  exact ⟨tokens, ht⟩

/-- **Where all lines can be parsed, the nodes of all are theirs, in order.** -/
theorem nodesOfLines_ok (hfree : ∀ line ∈ lines, '\n' ∉ line.toList)
    (h : ∀ line ∈ lines, ∃ tree, Tree.ofSource line = .ok tree) : ∀ n,
    ∃ trees, lines.mapM Tree.ofSource = .ok trees
      ∧ nodesOfLines n lines = .ok (trees.map Tree.children) := by
  induction lines with
  | nil => intro n; exact ⟨[], rfl, rfl⟩
  | cons first lines ih =>
    intro n
    have hscan : ∀ line ∈ first :: lines, ∃ tokens, scan line = .ok tokens := by
      intro line hl
      obtain ⟨tree, ht⟩ := h line hl
      exact scan_of_ofSource ht
    obtain ⟨tree, ht⟩ := h first List.mem_cons_self
    obtain ⟨nodes, hn, rfl⟩ := nodesOfLine_of_ok (hfree first List.mem_cons_self) ht
    obtain ⟨trees, hall, hmore⟩ := ih (fun line hl => hfree line (List.mem_cons_of_mem _ hl))
      (fun line hl => h line (List.mem_cons_of_mem _ hl)) (n + 1)
    refine ⟨.root nodes :: trees, ?_, ?_⟩
    · rw [List.mapM_cons, ht, hall]
      rfl
    · rw [nodesOfLines_cons hscan, hn, hmore]
      rfl

/-! ## §6. A source and its lines. -/

/-- A fault of the lines is one of the source, and of assembling it. -/
theorem error_of_nodesOfLines {source : String}
    (h : nodesOfLines 0 (textLines source) = .error e) :
    Tree.ofSource source = .error e ∧ assemble source = .error e := by
  have hsource : Tree.ofSource source = .error e := by
    rw [ofSource_eq_nodesOfLines, h]
    rfl
  refine ⟨hsource, ?_⟩
  unfold assemble
  rw [hsource]
  rfl

/-- The first line that cannot be scanned decides, and what is said of it is what is said of it on
its own. -/
theorem error_of_scan {source : String} (hlines : textLines source = before ++ text :: after)
    (hbefore : ∀ other ∈ before, ∃ tokens, scan other = .ok tokens) (h : scan text = .error e) :
    ∃ cause, e = .source 1 cause ∧
      Tree.ofSource source = .error (.source (before.length + 1) cause) ∧
      assemble source = .error (.source (before.length + 1) cause) := by
  have hfree := (textLines_spec source).2.1 text (by rw [hlines]; simp)
  have hstays := staysOn_scanFrom text.toList 1 false (beq_newline_of_not_mem hfree)
  have hscan : scanFrom 1 false [] text.toList = .error e := h
  rw [hscan] at hstays
  obtain ⟨cause, rfl⟩ := hstays
  refine ⟨cause, rfl, ?_⟩
  rw [Nat.add_comm]
  apply error_of_nodesOfLines
  unfold nodesOfLines
  rw [hlines, scanLines_error hbefore h 0, Nat.zero_add]
  rfl

/-- Where all lines can be scanned, so does the first that cannot be parsed. -/
theorem error_of_ofSource {source : String} (hlines : textLines source = before ++ text :: after)
    (hscan : ∀ line ∈ textLines source, ∃ tokens, scan line = .ok tokens)
    (hbefore : ∀ other ∈ before, ∃ tree, Tree.ofSource other = .ok tree)
    (h : Tree.ofSource text = .error e) :
    ∃ cause, e = .source 1 (.grammar cause) ∧
      Tree.ofSource source = .error (.source (before.length + 1) (.grammar cause)) ∧
      assemble source = .error (.source (before.length + 1) (.grammar cause)) := by
  have hfree := (textLines_spec source).2.1
  rw [hlines] at hfree hscan
  have htext : text ∈ before ++ text :: after := by simp
  have hnodes : nodesOfLine text = .error e := nodesOfLine_of_error (hfree text htext) h
  -- the line can be scanned, so it is its nodes that are at fault, and all its tokens are on line 1
  obtain ⟨tokens, ht⟩ := hscan text htext
  have hstays := staysOn_scanFrom text.toList 1 false (beq_newline_of_not_mem (hfree text htext))
  have htokens : scanFrom 1 false [] text.toList = .ok tokens := ht
  rw [htokens] at hstays
  have hline : lineNodes tokens = .error e := by
    unfold nodesOfLine at hnodes
    rw [ht] at hnodes
    exact hnodes
  obtain ⟨cause, rfl⟩ := grammar_of_lineNodes_error hstays hline
  refine ⟨cause, rfl, ?_⟩
  have hothers : ∀ other ∈ before, ∃ nodes, nodesOfLine other = .ok nodes := by
    intro other ho
    obtain ⟨tree, hother⟩ := hbefore other ho
    obtain ⟨nodes, hn, -⟩ := nodesOfLine_of_ok (hfree other (List.mem_append_left _ ho)) hother
    exact ⟨nodes, hn⟩
  rw [Nat.add_comm]
  apply error_of_nodesOfLines
  rw [hlines, nodesOfLines_error hscan hothers hnodes 0, Nat.zero_add]
  rfl

/-- **A source is read line by line.**  Its lines are what stands between its line ends.  The first
line that cannot be scanned on its own gives the fault of the whole source, with the place of the
line for its number and otherwise the same in kind and wording, whatever the grammar of the lines;
where all can be scanned, the first that cannot be parsed on its own does, with a fault of grammar;
where all can be parsed, the tree has the children of theirs, in order.  Whatever stands in front of
a line end, the rest is scanned as if it stood alone. -/
theorem source_is_read_by_lines (source : String) :
    (textLines source ≠ [] ∧ (∀ line ∈ textLines source, '\n' ∉ line.toList) ∧
      "\n".intercalate (textLines source) = source) ∧
    (∀ before line after e, textLines source = before ++ line :: after →
      (∀ other ∈ before, ∃ tokens, scan other = .ok tokens) → scan line = .error e →
      ∃ cause, e = .source 1 cause ∧
        Tree.ofSource source = .error (.source (before.length + 1) cause) ∧
        assemble source = .error (.source (before.length + 1) cause) ∧
        ∃ opening ending, ∀ number,
          (AssemblyError.source number cause).message = opening ++ toString number ++ ending) ∧
    ((∀ line ∈ textLines source, ∃ tokens, scan line = .ok tokens) →
      ∀ before line after e, textLines source = before ++ line :: after →
      (∀ other ∈ before, ∃ tree, Tree.ofSource other = .ok tree) →
      Tree.ofSource line = .error e →
      ∃ cause, e = .source 1 (.grammar cause) ∧
        Tree.ofSource source = .error (.source (before.length + 1) (.grammar cause)) ∧
        assemble source = .error (.source (before.length + 1) (.grammar cause))) ∧
    ((∀ line ∈ textLines source, ∃ tree, Tree.ofSource line = .ok tree) →
      ∃ trees, (textLines source).mapM Tree.ofSource = .ok trees ∧
        Tree.ofSource source = .ok (.root (trees.flatMap Tree.children))) ∧
    ∀ before after, source = before ++ "\n" ++ after →
      scan source = do
        let tokens ← scan before
        let others ← tokensDown (textLines before).length (scan after)
        return tokens ++ ⟨.newline, (textLines before).length⟩ :: others := by
  refine ⟨textLines_spec source, ?_, ?_, ?_, ?_⟩
  · intro before line after e hlines hbefore h
    obtain ⟨cause, he, htree, himage⟩ := error_of_scan hlines hbefore h
    exact ⟨cause, he, htree, himage, message_source cause⟩
  · intro hscan before line after e hlines hbefore h
    exact error_of_ofSource hlines hscan hbefore h
  · intro h
    obtain ⟨trees, hall, hnodes⟩ := nodesOfLines_ok (textLines_spec source).2.1 h 0
    refine ⟨trees, hall, ?_⟩
    rw [ofSource_eq_nodesOfLines, hnodes, List.flatMap_def]
    rfl
  · rintro before after rfl
    exact scan_append_newline before after

/-- A label with a blank behind a line of bad grammar: the label is the fault, on line 2.  Without
it, the first of two lines of bad grammar is.  And a label behind a line that ends in a mnemonic is
no operand of it. -/
theorem source_is_read_by_lines_faults :
    let badLabel := "movb r0, #1\n@bad label:\nhalt"
    let badLines := "halt\nprib\nmovb r0, #1"
    let labelled := "halt\n@a:"
    textLines badLabel = ["movb r0, #1"] ++ "@bad label:" :: ["halt"] ∧
      assemble badLabel = .error (.source 2 (.label .whitespace)) ∧
      textLines badLines = ["halt"] ++ "prib" :: ["movb r0, #1"] ∧
      assemble badLines = .error (.source 2 (.grammar .unknownInstruction)) ∧
      textLines labelled = ["halt", "@a:"] ∧
      Tree.ofSource labelled = .ok (.root [.line [.mnemonic "halt"], .label "a"]) := by
  intro badLabel badLines labelled
  have hlabel : textLines badLabel = ["movb r0, #1"] ++ "@bad label:" :: ["halt"] := by cbv
  have hlines : textLines badLines = ["halt"] ++ "prib" :: ["movb r0, #1"] := by cbv
  have hlabelled : textLines labelled = ["halt", "@a:"] := by cbv
  have hmove : scan "movb r0, #1"
      = .ok [⟨.mnemonic "movb", 1⟩, ⟨.register .r0, 1⟩, ⟨.comma, 1⟩, ⟨.number 1, 1⟩] := by cbv
  have hprint : scan "prib" = .ok [⟨.mnemonic "prib", 1⟩] := by cbv
  have hhalt : scan "halt" = .ok [⟨.mnemonic "halt", 1⟩] := by cbv
  have hname : scan "@a:" = .ok [⟨.label "a", 1⟩] := by cbv
  have hblank : scan "@bad label:" = .error (.source 1 (.label .whitespace)) := by cbv
  -- the trees come of the tokens, so the characters are gone through once
  have htree : Tree.ofSource "halt" = .ok (.root [.line [.mnemonic "halt"]]) := by
    rw [Tree.ofSource, hhalt]
    rfl
  have hlast : Tree.ofSource "@a:" = .ok (.root [.label "a"]) := by
    rw [Tree.ofSource, hname]
    rfl
  have halone : Tree.ofSource "prib" = .error (.source 1 (.grammar .unknownInstruction)) := by
    rw [Tree.ofSource, hprint]
    rfl
  refine ⟨hlabel, ?_, hlines, ?_, hlabelled, ?_⟩
  · obtain ⟨cause, he, -, himage, -⟩ := (source_is_read_by_lines badLabel).2.1 _ _ _ _ hlabel
      (fun other ho => ⟨_, List.mem_singleton.mp ho ▸ hmove⟩) hblank
    cases he
    exact himage
  · have hscan : ∀ line ∈ textLines badLines, ∃ tokens, scan line = .ok tokens := by
      rw [hlines]
      intro line hl
      simp only [List.cons_append, List.nil_append, List.mem_cons, List.not_mem_nil, or_false] at hl
      rcases hl with rfl | rfl | rfl
      · exact ⟨_, hhalt⟩
      · exact ⟨_, hprint⟩
      · exact ⟨_, hmove⟩
    obtain ⟨cause, he, -, himage⟩ := (source_is_read_by_lines badLines).2.2.1 hscan _ _ _ _ hlines
      (fun other ho => ⟨_, List.mem_singleton.mp ho ▸ htree⟩) halone
    cases he
    exact himage
  · obtain ⟨trees, hall, hwhole⟩ := (source_is_read_by_lines labelled).2.2.2.1 (by
      rw [hlabelled]
      intro line hl
      simp only [List.mem_cons, List.not_mem_nil, or_false] at hl
      rcases hl with rfl | rfl
      · exact ⟨_, htree⟩
      · exact ⟨_, hlast⟩)
    rw [hlabelled, List.mapM_cons, List.mapM_cons, htree, hlast] at hall
    cases hall
    exact hwhole

end ByteMachine.Assembly
