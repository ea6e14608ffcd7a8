/-
  ByteMachine.Proofs.Spelling — how a token is spelled, and that its spelling is read as it.

  Words, registers and numbers are read up to the next delimiter; a label runs to the end of its
  line and is treated apart.  What a scan can find at all is `TokenKind.Spellable`.

    • `scanNumber_literal` — a number ends with its digits, whatever follows,
    • `scanNumber_spell` — every 64-bit number is read back from its decimal spelling,
    • `labelName_closed`, `labelName_operand_iff` — a name is read back with its colon, and without
      one unless it ends in a colon itself,
    • `scanFrom_word`, `scanFrom_number` — the spelling of a token in front of a delimiter,
    • `spellable_of_mem` — the tokens of a source are spellable.
-/
import ByteMachine.Proofs.Lines

namespace ByteMachine.Assembly

/-! ## §1. Between tokens. -/

/-- A blank between tokens is skipped. -/
theorem scanFrom_blank {c : Char} (h : isBlank c = true) (line : Nat) (operand : Bool)
    (done : List Token) (rest : List Char) :
    scanFrom line operand done (c :: rest) = scanFrom line operand done rest :=
  scanFrom_skip (lexeme_iff.mpr (.blank h))

/-- Blanks are skipped. -/
theorem scanFrom_blanks {gap : List Char} (h : ∀ c ∈ gap, isBlank c = true) (line : Nat)
    (operand : Bool) (done : List Token) (rest : List Char) :
    scanFrom line operand done (gap ++ rest) = scanFrom line operand done rest := by
  induction gap with
  | nil => rfl
  | cons c gap ih =>
    obtain ⟨hc, hgap⟩ := List.forall_mem_cons.mp h
    rw [List.cons_append, scanFrom_blank hc, ih hgap]

theorem scanFrom_comma (line : Nat) (operand : Bool) (done : List Token) (rest : List Char) :
    scanFrom line operand done (',' :: rest) = scanFrom line false (⟨.comma, line⟩ :: done) rest :=
  scanFrom_token (lexeme_iff.mpr .comma)

/-! ## §2. Words. -/

/-- The characters of a word that a token can be. -/
def Wordlike (text : String) : Prop :=
  text.toList ≠ [] ∧ ∀ c ∈ text.toList, isDelimiter c = false

theorem wordlike_iff {text : String} : Wordlike text ↔
    (!text.toList.isEmpty && text.toList.all fun c => !isDelimiter c) = true := by
  simp [Wordlike]

instance (text : String) : Decidable (Wordlike text) := decidable_of_iff _ wordlike_iff.symm

/-- **A word is read up to the next delimiter.** -/
theorem scanFrom_word {text : String} {kind : TokenKind} (hw : Wordlike text)
    (hk : word text = .ok kind) {rest : List Char} (hr : Stops rest) (line : Nat) (operand : Bool)
    (done : List Token) :
    scanFrom line operand done (text.toList ++ rest)
      = scanFrom line kind.isMnemonic (⟨kind, line⟩ :: done) rest := by
  obtain ⟨hne, hchars⟩ := hw
  -- the first character decides that a word begins, the others are taken one by one
  obtain ⟨c, more, hcs⟩ := List.exists_cons_of_ne_nil hne
  rw [hcs] at hchars ⊢
  have hmore : ∀ d ∈ more, (!isDelimiter d) = true := fun d hd => by
    rw [hchars d (List.mem_cons_of_mem _ hd)]
    rfl
  have hstop := hr.word
  have hrun : (more ++ rest).takeWhile (!isDelimiter ·) = more := takeWhile_run hmore hstop
  have hleft : (more ++ rest).dropWhile (!isDelimiter ·) = rest := dropWhile_run hmore hstop
  have hlexed : Lexed operand c (more ++ rest) (some kind) rest := by
    have hform : Lexed operand c (more ++ rest) (some kind) _ :=
      .word (hchars c List.mem_cons_self) (by rw [hrun, ← hcs, String.ofList_toList]; exact hk)
    rwa [hleft] at hform
  have hnewline : kind ≠ .newline := by
    rintro rfl
    exact word_ne_newline _ hk
  rw [List.cons_append, scanFrom_token (lexeme_iff.mpr hlexed), if_neg hnewline]

theorem wordlike_of_isMnemonic {text : String} (h : isMnemonic text = true) : Wordlike text := by
  have hall : ∀ text ∈ mnemonics, Wordlike text := by decide
  exact hall text (List.contains_iff_mem.mp h)

theorem word_of_isMnemonic {text : String} (h : isMnemonic text = true) :
    word text = .ok (.mnemonic text) :=
  if_pos h

theorem wordlike_register (reg : Register) : Wordlike reg.name := by
  cases reg <;> decide

theorem word_register (reg : Register) : word reg.name = .ok (.register reg) := by
  cases reg <;> rfl

/-! ## §3. Numbers. -/

theorem isDigit_of_mem_digits {n : Nat} {c : Char} (h : c ∈ Text.Decimal.digits n) :
    c.isDigit = true :=
  Nat.isDigit_of_mem_toDigits (by decide) (by decide) h

theorem number_digits {v : Int64} {negative : Bool}
    (h : v.toInt = if negative then -(v.toInt.natAbs : Int) else v.toInt.natAbs) :
    number negative (Text.Decimal.digits v.toInt.natAbs) = .ok v := by
  have hne : (Text.Decimal.digits v.toInt.natAbs).isEmpty = false :=
    List.isEmpty_eq_false_iff.mpr Nat.toDigits_ne_nil
  unfold number
  rw [hne, if_neg Bool.false_ne_true]
  show (if Int64.minValue.toInt ≤ (if negative then
        -(Text.Decimal.ofDigits (Text.Decimal.digits v.toInt.natAbs) : Int)
      else Text.Decimal.ofDigits (Text.Decimal.digits v.toInt.natAbs)) ∧ _ then _ else _) = _
  rw [Text.Decimal.ofDigits_digits, ← h, if_pos ⟨v.minValue_le_toInt, v.toInt_le⟩, Int64.ofInt_toInt]

/-- A minus sign, if there is one, and digits. -/
def literal (negative : Bool) (digits : List Char) : List Char :=
  if negative then '-' :: digits else digits

/-- A literal ends with its digits.  Only a literal without any could take the minus sign that
follows it for its own. -/
theorem scanNumber_literal {negative : Bool} {digits rest : List Char}
    (hdigits : ∀ c ∈ digits, c.isDigit = true) (hstop : ∀ c ∈ rest.head?, c.isDigit = false)
    (hsign : negative = false → digits = [] → rest.head? ≠ some '-') :
    scanNumber (literal negative digits ++ rest)
      = (number negative digits).map fun value => (value, rest) := by
  cases negative with
  | true =>
    show scanNumber ('-' :: (digits ++ rest)) = _
    rw [scanNumber_minus, takeWhile_run hdigits hstop, dropWhile_run hdigits hstop]
  | false =>
    show scanNumber (digits ++ rest) = _
    have hminus : ∀ more, digits ++ rest ≠ '-' :: more := by
      intro more he
      cases digits with
      | nil =>
        rw [List.nil_append] at he
        exact hsign rfl rfl (by rw [he]; rfl)
      | cons d ds =>
        have hd := hdigits d List.mem_cons_self
        rw [(List.cons.inj he).1] at hd
        exact absurd hd (by decide)
    rw [scanNumber_digits hminus, takeWhile_run hdigits hstop, dropWhile_run hdigits hstop]

/-- **Every 64-bit number is read back from its decimal spelling.** -/
theorem scanNumber_spell (v : Int64) {rest : List Char} (hr : Stops rest) :
    scanNumber (Text.Decimal.spell v.toInt ++ rest) = .ok (v, rest) := by
  have hdigits : ∀ c ∈ Text.Decimal.digits v.toInt.natAbs, c.isDigit = true :=
    fun c hc => isDigit_of_mem_digits hc
  have hread : ∀ {negative}, (v.toInt = if negative then -(v.toInt.natAbs : Int)
      else v.toInt.natAbs) → scanNumber (literal negative
        (Text.Decimal.digits v.toInt.natAbs) ++ rest) = .ok (v, rest) := by
    intro negative h
    rw [scanNumber_literal hdigits hr.digits fun _ hnil => absurd hnil Nat.toDigits_ne_nil,
      number_digits h]
    rfl
  unfold Text.Decimal.spell
  split
  · exact hread (show v.toInt = if true then _ else _ by rw [if_pos rfl]; omega)
  · exact hread (show v.toInt = if false then _ else _ by rw [if_neg Bool.false_ne_true]; omega)

theorem scanFrom_number (v : Int64) {rest : List Char} (hr : Stops rest) (line : Nat)
    (operand : Bool) (done : List Token) :
    scanFrom line operand done ('#' :: (Text.Decimal.spell v.toInt ++ rest))
      = scanFrom line false (⟨.number v, line⟩ :: done) rest :=
  scanFrom_token (lexeme_iff.mpr (.number (scanNumber_spell v hr)))

/-! ## §4. Labels. -/

/-- A name that a label can have: any characters but blanks and line ends, and at least one. -/
def Name (name : String) : Prop :=
  name ≠ "" ∧ ∀ c ∈ name.toList, c ≠ ' ' ∧ c ≠ '\t' ∧ isLineEnd c = false

theorem any_blank_of_name {name : String} (h : Name name) :
    (name.toList.any fun c => c == ' ' || c == '\t') = false := by
  rw [List.any_eq_false]
  intro c hc
  obtain ⟨hspace, htab, -⟩ := h.2 c hc
  simp [hspace, htab]

theorem isEmpty_of_name {name : String} (h : Name name) : name.isEmpty = false := by
  cases he : name.isEmpty with
  | false => rfl
  | true => exact absurd (String.isEmpty_iff.mp he) h.1

/-- The characters of a label give a name exactly if they are a name and a colon, or, as an operand,
a name that does not end in one. -/
theorem labelName_iff {operand : Bool} {run : List Char} {name : String}
    (hrun : ∀ c ∈ run, isLineEnd c = false) :
    labelName operand run = .ok name ↔ Name name ∧ (run = name.toList ++ [':']
      ∨ operand = true ∧ run = name.toList ∧ run.getLast? ≠ some ':') := by
  unfold labelName
  constructor
  · intro h
    by_cases hblank : (run.any fun c => c == ' ' || c == '\t') = true
    · rw [if_pos hblank] at h
      cases h
    rw [if_neg hblank] at h
    have hchars : ∀ c ∈ run, c ≠ ' ' ∧ c ≠ '\t' ∧ isLineEnd c = false := by
      intro c hc
      have hnot := List.any_eq_false.mp (Bool.not_eq_true _ ▸ hblank) c hc
      simp only [Bool.or_eq_true, beq_iff_eq, not_or] at hnot
      exact ⟨hnot.1, hnot.2, hrun c hc⟩
    -- what is left of the check depends on the last character alone
    by_cases hclosed : run.getLast? = some ':'
    · obtain ⟨body, rfl⟩ := List.getLast?_eq_some_iff.mp hclosed
      rw [show ((body ++ [':']).getLast? == some ':') = true from beq_iff_eq.mpr hclosed] at h
      dsimp only at h
      rw [if_neg (by simp), if_pos rfl, List.dropLast_concat] at h
      split at h
      · cases h
      · rename_i hempty
        obtain rfl := Except.ok.inj h
        refine ⟨⟨fun he => hempty (String.isEmpty_iff.mpr he), ?_⟩, .inl ?_⟩
        · rw [String.toList_ofList]
          exact fun c hc => hchars c (List.mem_append_left _ hc)
        · rw [String.toList_ofList]
    · rw [show (run.getLast? == some ':') = false from beq_eq_false_iff_ne.mpr hclosed] at h
      dsimp only at h
      rw [if_neg Bool.false_ne_true] at h
      cases operand with
      | false => cases h
      | true =>
        rw [if_neg (by simp)] at h
        split at h
        · cases h
        · rename_i hempty
          obtain rfl := Except.ok.inj h
          rw [Name, String.toList_ofList]
          exact ⟨⟨fun he => hempty (String.isEmpty_iff.mpr he), hchars⟩, .inr ⟨rfl, rfl, hclosed⟩⟩
  · rintro ⟨hname, rfl | ⟨rfl, rfl, hopen⟩⟩
    · rw [List.any_append, any_blank_of_name hname]
      simp [String.ofList_toList, isEmpty_of_name hname]
    · rw [any_blank_of_name hname]
      simp [hopen, String.ofList_toList, isEmpty_of_name hname]

/-- A name is read back with a colon behind it, whatever it ends in itself. -/
theorem labelName_closed {name : String} (h : Name name) (operand : Bool) :
    labelName operand (name.toList ++ [':']) = .ok name := by
  refine (labelName_iff ?_).mpr ⟨h, .inl rfl⟩
  intro c hc
  rcases List.mem_append.mp hc with hc | hc
  · exact (h.2 c hc).2.2
  · rw [List.mem_singleton.mp hc]
    rfl

/-- As an operand without a colon, a name is read back exactly if it does not end in one. -/
theorem labelName_operand_iff {name : String} (h : Name name) :
    labelName true name.toList = .ok name ↔ name.toList.getLast? ≠ some ':' := by
  rw [labelName_iff fun c hc => (h.2 c hc).2.2]
  constructor
  · rintro ⟨-, hcolon | ⟨-, -, hopen⟩⟩
    · have hlength := congrArg List.length hcolon
      rw [List.length_append, List.length_singleton] at hlength
      omega
    · exact hopen
  · exact fun hopen => ⟨h, .inr ⟨rfl, rfl, hopen⟩⟩

/-! ## §5. What a scan can find. -/

/-- What stands in a token that some source has. -/
def TokenKind.Spellable : TokenKind → Prop
  | .mnemonic text => ByteMachine.isMnemonic text = true
  | .label name => Name name
  | _ => True

theorem spellable_of_lexed {operand : Bool} {c : Char} {rest left : List Char} {kind : TokenKind}
    (h : Lexed operand c rest (some kind) left) : kind.Spellable := by
  cases h with
  | label h =>
    refine ((labelName_iff ?_).mp h).1
    intro c hc
    have hnot := List.all_eq_true.mp (List.all_takeWhile (p := (!isLineEnd ·))) c hc
    simpa using hnot
  | word hc h =>
    unfold word at h
    split at h
    · cases h
      assumption
    · split at h
      · cases h
        trivial
      · cases h
  | _ => trivial

/-- **The tokens of a source are spellable.** -/
theorem spellable_of_mem {source : List Char} {line : Nat} {operand : Bool} {tokens : List Token}
    (h : scanFrom line operand [] source = .ok tokens) : ∀ token ∈ tokens, token.kind.Spellable := by
  intro token ht
  obtain ⟨op, c, rest, left, -, hl⟩ :=
    (scanned_of_scanFrom source h).lexed_of_mem token ht
  exact spellable_of_lexed hl

end ByteMachine.Assembly
