/-
  ByteMachine.Proofs.Respelling — the token lists that some source has, and a source for each.

  A token list is the scan of some source exactly if its words are mnemonics, its labels have names
  and its lines are counted by its line ends (`Lexical`).  For each such list a source is written
  down: a label closes with a colon and is cut off by a carriage return, since nothing else but the
  end of the line would stop it; words, registers and numbers are kept apart by blanks.

    • `Scanned.numbered` — a scan counts lines by line ends,
    • `scanFrom_spelling` — a token is read from its spelling, whatever stood before it,
    • `scanFrom_spells` — so all tokens are,
    • `scanned_tokens_respell` — both directions, and what follows for the tokens of a source.
-/
import ByteMachine.Proofs.LineByLine
import ByteMachine.Proofs.Spelling

namespace ByteMachine.Assembly

/-! ## §1. The tokens of sources. -/

/-- Each token stands on the line that the line ends before it lead to. -/
def Numbered (line : Nat) (tokens : List Token) : Prop :=
  ∀ before token after, tokens = before ++ token :: after →
    token.line = line + before.countP (·.kind == .newline)

/-- What the tokens of a source are like. -/
structure Lexical (tokens : List Token) : Prop where
  /-- Words are mnemonics, and labels have a name without blanks and line ends. -/
  spellable : ∀ token ∈ tokens, token.kind.Spellable
  /-- Lines are counted from one. -/
  numbered : Numbered 1 tokens

variable {tokens rest : List Token} {token : Token} {line : Nat}

/-- The line behind a token. -/
def Token.lineBehind (token : Token) : Nat :=
  if token.kind = .newline then token.line + 1 else token.line

/-- Tokens are numbered exactly if the first is, and the others are from the line behind it. -/
theorem numbered_cons :
    Numbered line (token :: rest) ↔ token.line = line ∧ Numbered token.lineBehind rest := by
  have hcount : ∀ before : List Token, token.line = line →
      line + (token :: before).countP (·.kind == .newline)
        = token.lineBehind + before.countP (·.kind == .newline) := by
    intro before hline
    rw [List.countP_cons, Token.lineBehind, hline]
    by_cases hk : token.kind = .newline
    · simp [hk]
      omega
    · simp [hk]
  constructor
  · intro h
    have hline : token.line = line := h [] token rest rfl
    refine ⟨hline, fun before other after hs => ?_⟩
    rw [h (token :: before) other after (by rw [hs]; rfl), hcount before hline]
  · rintro ⟨hline, hrest⟩ before other after hs
    cases before with
    | nil =>
      cases hs
      exact hline
    | cons first before =>
      obtain ⟨rfl, hsplit⟩ := List.cons.inj hs
      rw [hcount before hline]
      exact hrest before other after hsplit

/-- **A scan counts lines by line ends.** -/
theorem Scanned.numbered {operand : Bool} {source : List Char}
    (h : Scanned line operand source tokens) : Numbered line tokens := by
  induction h with
  | done =>
    intro before token after hs
    cases before <;> cases hs
  | skip _ _ ih => exact ih
  | token _ _ ih => exact numbered_cons.mpr ⟨rfl, ih⟩

/-- **The tokens of a source are lexical.** -/
theorem lexical_of_scan {source : String} (h : scan source = .ok tokens) : Lexical tokens where
  spellable := spellable_of_mem h
  numbered := (scanned_of_scanFrom _ h).numbered

/-- A line has as many line ends as its tokens: none. -/
theorem countP_newline_of_free {source : List Char} (hfree : ∀ c ∈ source, (c == '\n') = false)
    (h : scanFrom line false [] source = .ok tokens) :
    tokens.countP (·.kind == .newline) = 0 ∧ source.count '\n' = 0 := by
  refine ⟨List.countP_eq_zero.mpr fun token ht => ?_, count_of_free hfree⟩
  rw [kind_ne_newline_of_mem hfree h token ht]
  exact Bool.false_ne_true

/-- A source has as many line ends as its tokens. -/
theorem countP_newline_of_scanFrom (source : List Char) : ∀ {line : Nat} {tokens : List Token},
    scanFrom line false [] source = .ok tokens →
      tokens.countP (·.kind == .newline) = source.count '\n' := by
  induction source using line_induction with
  | last source hfree =>
    intro line tokens h
    obtain ⟨hnone, hsource⟩ := countP_newline_of_free hfree h
    rw [hnone, hsource]
  | more source rest hfree ih =>
    intro line tokens h
    rw [scanFrom_first hfree] at h
    obtain ⟨first, hf, h⟩ := ok_of_bind h
    obtain ⟨others, ho, h⟩ := ok_of_bind h
    cases h
    obtain ⟨hnone, hsource⟩ := countP_newline_of_free hfree hf
    rw [List.countP_append, hnone, List.countP_cons_of_pos rfl, ih ho, List.count_append, hsource,
      List.count_cons_self]

/-! ## §2. Spellings. -/

/-- The characters of a token: words and registers by name, a number behind its mark, and a label
with its mark and a colon, also where it could do without one. -/
def TokenKind.spelling : TokenKind → List Char
  | .mnemonic text => text.toList
  | .register reg => reg.name.toList
  | .number v => '#' :: Text.Decimal.spell v.toInt
  | .label name => '@' :: (name.toList ++ [':'])
  | .comma => [',']
  | .newline => ['\n']

/-- The blanks that end a token: a carriage return and any others behind a label, at least one
behind a word, a register and a number, and any or none behind the rest. -/
def TokenKind.EndedBy : TokenKind → List Char → Prop
  | .label _, gap => gap.head? = some '\r'
  | .comma, _ => True
  | .newline, _ => True
  | _, gap => gap ≠ []

/-- The text spells the tokens, with blanks of any choice between them. -/
inductive Spells : List Token → List Char → Prop where
  | nil : Spells [] []
  | cons {token : Token} {rest : List Token} {gap text : List Char}
      (blank : ∀ c ∈ gap, isBlank c = true) (ended : token.kind.EndedBy gap)
      (behind : Spells rest text) :
      Spells (token :: rest) (token.kind.spelling ++ (gap ++ text))

/-- The fewest blanks that end a token. -/
def TokenKind.gap : TokenKind → List Char
  | .label _ => ['\r']
  | .comma => []
  | .newline => []
  | _ => [' ']

/-- The tokens with the fewest blanks between them. -/
def respelling (tokens : List Token) : List Char :=
  tokens.flatMap fun token => token.kind.spelling ++ token.kind.gap

/-- Tokens have a spelling. -/
theorem spells_respelling (tokens : List Token) : Spells tokens (respelling tokens) := by
  induction tokens with
  | nil => exact .nil
  | cons token tokens ih =>
    have hblank : ∀ c ∈ token.kind.gap, isBlank c = true := by
      cases token.kind <;> simp [TokenKind.gap, isBlank]
    have hended : token.kind.EndedBy token.kind.gap := by
      cases token.kind <;> simp [TokenKind.EndedBy, TokenKind.gap]
    have hs := Spells.cons hblank hended ih
    rwa [← List.append_assoc] at hs

/-! ## §3. Reading a spelling. -/

variable {done : List Token} {operand : Bool}

/-- A delimiter follows where a blank does. -/
theorem stops_of_blank {gap : List Char} (h : ∀ c ∈ gap, isBlank c = true) (hne : gap ≠ [])
    (text : List Char) : Stops (gap ++ text) := by
  obtain ⟨c, more, rfl⟩ := List.exists_cons_of_ne_nil hne
  have hc : isDelimiter c = true := by
    simp [isDelimiter, h c List.mem_cons_self]
  exact stops_cons hc _

/-- A label with its colon is read up to the carriage return behind it, also as an operand. -/
theorem scanFrom_label {name : String} (h : Name name) {gap : List Char}
    (hgap : gap.head? = some '\r') (text : List Char) :
    scanFrom line operand done ('@' :: (name.toList ++ [':']) ++ (gap ++ text))
      = scanFrom line false (⟨.label name, line⟩ :: done) (gap ++ text) := by
  have hrun : ∀ c ∈ name.toList ++ [':'], (!isLineEnd c) = true := by
    refine List.forall_mem_append.mpr ⟨fun c hc => ?_, List.forall_mem_singleton.mpr rfl⟩
    rw [(h.2 c hc).2.2]
    rfl
  have hstop : ∀ c ∈ (gap ++ text).head?, (!isLineEnd c) = false := by
    rw [List.head?_append, hgap]
    intro c hc
    cases hc
    rfl
  have htake := takeWhile_run hrun hstop
  have hdrop := dropWhile_run hrun hstop
  have hlexed : Lexed operand '@' (name.toList ++ [':'] ++ (gap ++ text)) (some (.label name))
      ((name.toList ++ [':'] ++ (gap ++ text)).dropWhile (!isLineEnd ·)) :=
    .label (by rw [htake]; exact labelName_closed h operand)
  rw [hdrop] at hlexed
  rw [List.cons_append, scanFrom_token (lexeme_iff.mpr hlexed), if_neg (by simp)]
  rfl

/-- **A token is read from its spelling**, whatever was read before it. -/
theorem scanFrom_spelling {kind : TokenKind} (h : kind.Spellable) {gap : List Char}
    (hblank : ∀ c ∈ gap, isBlank c = true) (hended : kind.EndedBy gap) (text : List Char) :
    scanFrom line operand done (kind.spelling ++ (gap ++ text))
      = scanFrom (Token.lineBehind ⟨kind, line⟩) kind.isMnemonic (⟨kind, line⟩ :: done)
          (gap ++ text) := by
  cases kind with
  | mnemonic word =>
    exact scanFrom_word (wordlike_of_isMnemonic h) (word_of_isMnemonic h)
      (stops_of_blank hblank hended text) line operand done
  | register reg =>
    exact scanFrom_word (wordlike_register reg) (word_register reg)
      (stops_of_blank hblank hended text) line operand done
  | number v => exact scanFrom_number v (stops_of_blank hblank hended text) line operand done
  | label name => exact scanFrom_label h hended text
  | comma => exact scanFrom_comma line operand done _
  | newline => exact scanFrom_token (lexeme_iff.mpr .newline)

/-- **Tokens are read from their spelling.** -/
theorem scanFrom_spells {text : List Char} (h : Spells tokens text) :
    ∀ {line : Nat} {operand : Bool}, (∀ token ∈ tokens, token.kind.Spellable) →
      Numbered line tokens → scanFrom line operand [] text = .ok tokens := by
  induction h with
  | nil =>
    intro line operand _ _
    exact scanFrom_nil
  | @cons token rest gap text blank ended behind ih =>
    intro line operand hspellable hnumbered
    obtain ⟨htoken, hrest⟩ := List.forall_mem_cons.mp hspellable
    obtain ⟨rfl, hbehind⟩ := numbered_cons.mp hnumbered
    rw [scanFrom_spelling htoken blank ended, scanFrom_blanks blank, scanFrom_done,
      ih hrest hbehind]
    rfl

/-- A lexical list is read from every spelling of it. -/
theorem Lexical.scan_spells (h : Lexical tokens) {text : List Char} (hs : Spells tokens text) :
    scan (String.ofList text) = .ok tokens := by
  unfold scan
  rw [String.toList_ofList]
  exact scanFrom_spells hs h.spellable h.numbered

/-- **Which tokens a source can have, and how they are spelled.**  Some source has the tokens
exactly if all words are mnemonics, all names are names, and each token stands on the line that is
one more than the line ends before it.  Such tokens are read from every spelling, and there is one;
so the tokens of a source can be spelled again without loss.  And a source has as many line ends as
its tokens. -/
theorem scanned_tokens_respell (tokens : List Token) :
    ((∃ source, scan source = .ok tokens) ↔ Lexical tokens) ∧
    (Lexical tokens → Spells tokens (respelling tokens) ∧
      ∀ text, Spells tokens text → scan (String.ofList text) = .ok tokens) ∧
    ∀ source, scan source = .ok tokens →
      (∀ text, Spells tokens text → scan (String.ofList text) = .ok tokens) ∧
      tokens.countP (·.kind == .newline) = source.toList.count '\n' := by
  refine ⟨⟨?_, fun h => ?_⟩, fun h => ?_, fun source hs => ?_⟩
  · rintro ⟨source, hs⟩
    exact lexical_of_scan hs
  · exact ⟨String.ofList (respelling tokens), h.scan_spells (spells_respelling tokens)⟩
  · exact ⟨spells_respelling tokens, fun text => h.scan_spells⟩
  · exact ⟨fun text => (lexical_of_scan hs).scan_spells, countP_newline_of_scanFrom _ hs⟩

/-- Names that end in a colon and look like a comment, the smallest number directly behind another
one, and a comment: the tokens and a spelling of them. -/
theorem scanned_tokens_respell_colon :
    let source := "@a::\n;b\njmp@a;:\r#-9223372036854775808#007"
    let tokens : List Token := [⟨.label "a:", 1⟩, ⟨.newline, 1⟩, ⟨.newline, 2⟩,
      ⟨.mnemonic "jmp", 3⟩, ⟨.label "a;", 3⟩, ⟨.number (-9223372036854775808), 3⟩, ⟨.number 7, 3⟩]
    scan source = .ok tokens ∧ Lexical tokens ∧
      String.ofList (respelling tokens) = "@a::\r\n\njmp @a;:\r#-9223372036854775808 #7 " ∧
      scan (String.ofList (respelling tokens)) = .ok tokens ∧
      source.toList.count '\n' = 2 := by
  intro source tokens
  have hscan : scan source = .ok tokens := by cbv
  obtain ⟨hiff, hspell, hsource⟩ := scanned_tokens_respell tokens
  have hlexical := hiff.mp ⟨source, hscan⟩
  obtain ⟨hs, hback⟩ := hspell hlexical
  exact ⟨hscan, hlexical, by cbv, hback _ hs, (hsource source hscan).2.symm⟩

end ByteMachine.Assembly
