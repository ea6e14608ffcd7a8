/-
  ByteMachine.Proofs.Lines — a source is read line by line.

  The scan runs through the whole source and knows lines only by counting line ends; the tokens
  are cut into lines afterwards.  Cutting the source first comes to the same (`ofSource_eq_lines`),
  because no lexeme reaches over a line end:

    • `lexeme_append` — a lexeme of a line is the same with more lines behind it,
    • `scanFrom_line` — so a line is scanned on its own, and the rest as if nothing stood before it,
    • `Scanned` — a scan that succeeds, lexeme by lexeme, to reason about its tokens,
    • `tokenLines_scanFrom` — the lines of the tokens are the tokens of the lines.
-/
import ByteMachine.Assembly.Tree.OfTokens
import ByteMachine.Proofs.Outcome

namespace ByteMachine

/-! ## §1. Runs of items, and segments. -/

section Runs

variable {α : Type} {p : α → Bool}

/-- A run ends in front of what does not belong to it. -/
theorem takeWhile_append_stop {rest : List α} (h : ∀ a ∈ rest.head?, p a = false) (items : List α) :
    (items ++ rest).takeWhile p = items.takeWhile p := by
  induction items with
  | nil =>
    cases rest with
    | nil => rfl
    | cons a rest => exact List.takeWhile_cons_of_neg (by simp [h a rfl])
  | cons item items ih =>
    rw [List.cons_append, List.takeWhile_cons, List.takeWhile_cons, ih]

/-- What is left behind a run starts no later than what does not belong to it. -/
theorem dropWhile_append_stop {rest : List α} (h : ∀ a ∈ rest.head?, p a = false) (items : List α) :
    (items ++ rest).dropWhile p = items.dropWhile p ++ rest := by
  induction items with
  | nil =>
    cases rest with
    | nil => rfl
    | cons a rest => exact List.dropWhile_cons_of_neg (by simp [h a rfl])
  | cons item items ih =>
    rw [List.cons_append, List.dropWhile_cons, List.dropWhile_cons, ih]
    split <;> rfl

/-- A run of items that belong to it is all of them, in front of what does not. -/
theorem takeWhile_run {items rest : List α} (hall : ∀ a ∈ items, p a = true)
    (h : ∀ a ∈ rest.head?, p a = false) : (items ++ rest).takeWhile p = items := by
  rw [List.takeWhile_append_of_pos hall, ← List.nil_append rest, takeWhile_append_stop h]
  exact List.append_nil items

theorem dropWhile_run {items rest : List α} (hall : ∀ a ∈ items, p a = true)
    (h : ∀ a ∈ rest.head?, p a = false) : (items ++ rest).dropWhile p = rest := by
  rw [List.dropWhile_append_of_pos hall, ← List.nil_append rest, dropWhile_append_stop h]
  rfl

/-- A run at the front of the items is the same with the tail behind them, and the tail joins what
is left of the items. -/
def EndsBefore (p : α → Bool) (items tail : List α) : Prop :=
  (items ++ tail).takeWhile p = items.takeWhile p ∧
    (items ++ tail).dropWhile p = items.dropWhile p ++ tail

theorem endsBefore_of_stop {tail : List α} (h : ∀ a ∈ tail.head?, p a = false) (items : List α) :
    EndsBefore p items tail :=
  ⟨takeWhile_append_stop h items, dropWhile_append_stop h items⟩

/-- A run behind which something is left ends among the items, whatever the tail is. -/
theorem endsBefore_of_left {items : List α} (h : items.dropWhile p ≠ []) (tail : List α) :
    EndsBefore p items tail := by
  induction items with
  | nil => exact absurd rfl h
  | cons item items ih =>
    rw [List.dropWhile_cons] at h
    rw [EndsBefore, List.cons_append, List.takeWhile_cons, List.takeWhile_cons,
      List.dropWhile_cons, List.dropWhile_cons]
    cases hp : p item with
    | false => exact ⟨rfl, rfl⟩
    | true =>
      rw [hp] at h
      obtain ⟨htake, hdrop⟩ := ih h
      exact ⟨congrArg _ htake, hdrop⟩

/-- Items without a separator are a segment. -/
theorem segments_of_free {items : List α} (h : ∀ a ∈ items, p a = false) :
    segments p items = [items] := by
  induction items with
  | nil => rfl
  | cons item items ih =>
    have hitem := h item List.mem_cons_self
    have hitems := ih fun a ha => h a (List.mem_cons_of_mem _ ha)
    show pushSegment p item (segments p items) = _
    rw [hitems, pushSegment, if_neg (by simp [hitem])]

/-- A separator ends the segment before it. -/
theorem segments_append_cons {items : List α} (h : ∀ a ∈ items, p a = false) {separator : α}
    (hs : p separator = true) (rest : List α) :
    segments p (items ++ separator :: rest) = items :: segments p rest := by
  induction items with
  | nil =>
    show pushSegment p separator (segments p rest) = _
    obtain ⟨segment, more, hm⟩ := List.exists_cons_of_ne_nil (segments_ne_nil p rest)
    rw [hm, pushSegment, if_pos hs]
  | cons item items ih =>
    have hitem := h item List.mem_cons_self
    have hitems := ih fun a ha => h a (List.mem_cons_of_mem _ ha)
    show pushSegment p item (segments p (items ++ separator :: rest)) = _
    rw [hitems, pushSegment, if_neg (by simp [hitem])]

/-- Items have no separator, or they begin with a segment and the separator that ends it. -/
theorem free_or_split (p : α → Bool) (items : List α) :
    (∀ a ∈ items, p a = false)
      ∨ ∃ first separator rest, items = first ++ separator :: rest
        ∧ (∀ a ∈ first, p a = false) ∧ p separator = true := by
  induction items with
  | nil => exact .inl (by simp)
  | cons item items ih =>
    cases hi : p item with
    | true => exact .inr ⟨[], item, items, rfl, by simp, hi⟩
    | false =>
      rcases ih with hfree | ⟨first, separator, rest, rfl, hfree, hs⟩
      · exact .inl (List.forall_mem_cons.mpr ⟨hi, hfree⟩)
      · exact .inr ⟨item :: first, separator, rest, rfl, List.forall_mem_cons.mpr ⟨hi, hfree⟩, hs⟩

/-- No segment has a separator in it. -/
theorem free_of_mem_segments (items : List α) :
    ∀ segment ∈ segments p items, ∀ a ∈ segment, p a = false := by
  induction items with
  | nil =>
    intro segment hs a ha
    rw [List.mem_singleton.mp hs] at ha
    cases ha
  | cons item items ih =>
    obtain ⟨first, more, hm⟩ := List.exists_cons_of_ne_nil (segments_ne_nil p items)
    rw [hm] at ih
    show ∀ segment ∈ pushSegment p item (segments p items), _
    rw [hm, pushSegment]
    cases hp : p item with
    | true => exact List.forall_mem_cons.mpr ⟨by simp, ih⟩
    | false =>
      obtain ⟨hfirst, hmore⟩ := List.forall_mem_cons.mp ih
      exact List.forall_mem_cons.mpr ⟨List.forall_mem_cons.mpr ⟨hp, hfirst⟩, hmore⟩

/-- Segments joined by what separators look like are the items again. -/
theorem intercalate_segments {β : Type} {look : α → β} {separator : β}
    (hlook : ∀ a, p a = true → look a = separator) (items : List α) :
    [separator].intercalate ((segments p items).map (List.map look)) = items.map look := by
  induction items with
  | nil => rfl
  | cons item items ih =>
    obtain ⟨first, more, hm⟩ := List.exists_cons_of_ne_nil (segments_ne_nil p items)
    rw [hm] at ih
    show [separator].intercalate ((pushSegment p item (segments p items)).map _) = _
    rw [hm, pushSegment]
    cases hp : p item with
    | true =>
      -- an empty segment stands in front of the separator
      rw [List.map_cons, ← ih, hlook item hp]
      rfl
    | false =>
      show _ = look item :: items.map look
      rw [← ih]
      cases more <;> rfl

/-- Segments without a separator are got back from the items they are joined to. -/
theorem segments_intercalate {separator : α} (hs : p separator = true)
    {lists : List (List α)} (hne : lists ≠ []) (hfree : ∀ l ∈ lists, ∀ a ∈ l, p a = false) :
    segments p ([separator].intercalate lists) = lists := by
  induction lists with
  | nil => exact absurd rfl hne
  | cons first more ih =>
    obtain ⟨hfirst, hmore⟩ := List.forall_mem_cons.mp hfree
    cases more with
    | nil =>
      have hone : [separator].intercalate [first] = first := by simp [List.intercalate]
      rw [hone]
      exact segments_of_free hfirst
    | cons second rest =>
      have hcons : [separator].intercalate (first :: second :: rest)
          = first ++ separator :: [separator].intercalate (second :: rest) := by
        simp [List.intercalate]
      rw [hcons, segments_append_cons hfirst hs, ih (List.cons_ne_nil _ _) hmore]

end Runs

namespace Assembly

/-! ## §2. One lexeme. -/

/-- A delimiter follows, or nothing. -/
def Stops (rest : List Char) : Prop := ∀ c ∈ rest.head?, isDelimiter c = true

theorem stops_nil : Stops [] := by
  simp [Stops]

theorem stops_cons {c : Char} (h : isDelimiter c = true) (rest : List Char) :
    Stops (c :: rest) := by
  intro d hd
  cases hd
  exact h

/-- No digit is a delimiter. -/
theorem isDelimiter_of_isDigit {c : Char} (h : c.isDigit = true) : isDelimiter c = false := by
  cases hd : isDelimiter c with
  | false => rfl
  | true =>
    simp only [isDelimiter, isBlank, Bool.or_eq_true, beq_iff_eq] at hd
    rcases hd with ((((((rfl | rfl) | rfl) | rfl) | rfl) | rfl) | rfl) | rfl <;> cases h

/-- Digits do not go on where a delimiter follows. -/
theorem Stops.digits {rest : List Char} (h : Stops rest) :
    ∀ c ∈ rest.head?, c.isDigit = false := by
  intro c hc
  cases hd : c.isDigit with
  | false => rfl
  | true => exact absurd (h c hc) (by rw [isDelimiter_of_isDigit hd]; exact Bool.false_ne_true)

/-- A word does not go on where a delimiter follows. -/
theorem Stops.word {rest : List Char} (h : Stops rest) :
    ∀ c ∈ rest.head?, (!isDelimiter c) = false := by
  intro c hc
  rw [h c hc]
  rfl

/-- Behind a minus sign, the digits of a negative number. -/
theorem scanNumber_minus (source : List Char) :
    scanNumber ('-' :: source) = (number true (source.takeWhile Char.isDigit)).map
      fun value => (value, source.dropWhile Char.isDigit) := by
  show (number true _).bind _ = _
  cases number true (source.takeWhile Char.isDigit) <;> rfl

/-- Without a minus sign, the digits of a number. -/
theorem scanNumber_digits {source : List Char} (h : ∀ rest, source ≠ '-' :: rest) :
    scanNumber source = (number false (source.takeWhile Char.isDigit)).map
      fun value => (value, source.dropWhile Char.isDigit) := by
  unfold scanNumber
  split
  · exact absurd rfl (h _)
  · show (number false _).bind _ = _
    cases number false (source.takeWhile Char.isDigit) <;> rfl

/-- A number is the same with a delimiter behind it. -/
theorem scanNumber_append (line : List Char) {tail : List Char} (h : Stops tail) :
    scanNumber (line ++ tail)
      = (scanNumber line).map fun read => (read.1, read.2 ++ tail) := by
  have hstop := h.digits
  -- a delimiter is no minus sign, so it is the line alone that decides whether there is one
  by_cases hm : ∃ digits, line = '-' :: digits
  · obtain ⟨digits, rfl⟩ := hm
    rw [List.cons_append, scanNumber_minus, scanNumber_minus, takeWhile_append_stop hstop,
      dropWhile_append_stop hstop]
    cases number true (digits.takeWhile Char.isDigit) <;> rfl
  · have hline : ∀ more, line ≠ '-' :: more := fun more h => hm ⟨more, h⟩
    have hall : ∀ more, line ++ tail ≠ '-' :: more := by
      intro more he
      cases line with
      | nil =>
        rw [List.nil_append] at he
        exact absurd (h '-' (by rw [he]; rfl)) (by decide)
      | cons c line => exact hm ⟨line, by rw [(List.cons.inj he).1]⟩
    rw [scanNumber_digits hall, scanNumber_digits hline, takeWhile_append_stop hstop,
      dropWhile_append_stop hstop]
    cases number false (line.takeWhile Char.isDigit) <;> rfl

/-- **A lexeme is the same with a tail behind it** that a delimiter opens, if it is no comment and
no label that would go on into the tail. -/
theorem lexeme_append_of_stops (operand : Bool) (c : Char) (line : List Char) {tail : List Char}
    (h : Stops tail) (hcomment : c = ';' → EndsBefore (· != '\n') line tail)
    (hlabel : c = '@' → EndsBefore (!isLineEnd ·) line tail) :
    lexeme operand c (line ++ tail)
      = (lexeme operand c line).map fun read => (read.1, read.2 ++ tail) := by
  unfold lexeme
  rw [scanNumber_append line h, takeWhile_append_stop h.word, dropWhile_append_stop h.word]
  split
  · rfl
  split
  · rfl
  split
  · rename_i hc
    rw [(hcomment (eq_of_beq hc)).2]
    rfl
  split
  · rfl
  split
  · cases scanNumber line <;> rfl
  split
  · rename_i hc
    rw [(hlabel (eq_of_beq hc)).1, (hlabel (eq_of_beq hc)).2]
    cases labelName operand (line.takeWhile (!isLineEnd ·)) <;> rfl
  · cases word (String.ofList (c :: line.takeWhile (!isDelimiter ·))) <;> rfl

/-- **A lexeme of a line is the same with more lines behind it.** -/
theorem lexeme_append (operand : Bool) (c : Char) (line rest : List Char) :
    lexeme operand c (line ++ '\n' :: rest)
      = (lexeme operand c line).map fun read => (read.1, read.2 ++ '\n' :: rest) := by
  have hstop : ∀ {p : Char → Bool}, p '\n' = false → EndsBefore p line ('\n' :: rest) :=
    fun h => endsBefore_of_stop (by rintro c ⟨⟩; exact h) line
  exact lexeme_append_of_stops operand c line (stops_cons rfl rest) (fun _ => hstop rfl)
    fun _ => hstop rfl

/-- What a lexeme can be: what it starts with, what it is, and what it leaves. -/
inductive Lexed (operand : Bool) : Char → List Char → Option TokenKind → List Char → Prop where
  | blank {c : Char} {rest : List Char} (h : isBlank c = true) : Lexed operand c rest none rest
  | newline {rest : List Char} : Lexed operand '\n' rest (some .newline) rest
  | comment {rest : List Char} : Lexed operand ';' rest none (rest.dropWhile (· != '\n'))
  | comma {rest : List Char} : Lexed operand ',' rest (some .comma) rest
  | number {rest left : List Char} {value : Int64} (h : scanNumber rest = .ok (value, left)) :
      Lexed operand '#' rest (some (.number value)) left
  | label {rest : List Char} {name : String}
      (h : labelName operand (rest.takeWhile (!isLineEnd ·)) = .ok name) :
      Lexed operand '@' rest (some (.label name)) (rest.dropWhile (!isLineEnd ·))
  | word {c : Char} {rest : List Char} {kind : TokenKind} (hc : isDelimiter c = false)
      (h : word (String.ofList (c :: rest.takeWhile (!isDelimiter ·))) = .ok kind) :
      Lexed operand c rest (some kind) (rest.dropWhile (!isDelimiter ·))

variable {operand : Bool} {c : Char} {rest left : List Char}

theorem lexed_of_lexeme {kind : Option TokenKind}
    (h : lexeme operand c rest = .ok (kind, left)) : Lexed operand c rest kind left := by
  unfold lexeme at h
  -- the checks are made in turn, and each leaves what it did not apply to
  by_cases hblank : isBlank c = true
  · rw [if_pos hblank] at h
    cases h
    exact .blank hblank
  rw [if_neg hblank] at h
  by_cases hnewline : (c == '\n') = true
  · rw [if_pos hnewline] at h
    cases h
    exact eq_of_beq hnewline ▸ .newline
  rw [if_neg hnewline] at h
  by_cases hcomment : (c == ';') = true
  · rw [if_pos hcomment] at h
    cases h
    exact eq_of_beq hcomment ▸ .comment
  rw [if_neg hcomment] at h
  by_cases hcomma : (c == ',') = true
  · rw [if_pos hcomma] at h
    cases h
    exact eq_of_beq hcomma ▸ .comma
  rw [if_neg hcomma] at h
  by_cases hnumber : (c == '#') = true
  · rw [if_pos hnumber] at h
    split at h
    · cases h
      exact eq_of_beq hnumber ▸ .number ‹_›
    · cases h
  rw [if_neg hnumber] at h
  by_cases hlabel : (c == '@') = true
  · rw [if_pos hlabel] at h
    split at h
    · cases h
      exact eq_of_beq hlabel ▸ .label ‹_›
    · cases h
  rw [if_neg hlabel] at h
  split at h
  · cases h
    refine .word ?_ ‹_›
    simp [isDelimiter, hblank, hnewline, hcomment, hcomma, hnumber, hlabel]
  · cases h

/-- **A lexeme is of one of the forms.** -/
theorem lexeme_iff {kind : Option TokenKind} :
    lexeme operand c rest = .ok (kind, left) ↔ Lexed operand c rest kind left := by
  refine ⟨lexed_of_lexeme, fun h => ?_⟩
  cases h with
  | blank h => exact if_pos h
  | newline => rfl
  | comment => rfl
  | comma => rfl
  | number h => simp [lexeme, isBlank, h]
  | label h => simp [lexeme, isBlank, h]
  | word hc h =>
    -- a word begins with no delimiter, so none of the checks before it applies
    have hd := hc
    simp only [isDelimiter, Bool.or_eq_false_iff] at hd
    obtain ⟨⟨⟨⟨⟨hblank, hnewline⟩, hcomma⟩, hcomment⟩, hnumber⟩, hlabel⟩ := hd
    unfold lexeme
    rw [hblank, hnewline, hcomma, hcomment, hnumber, hlabel, h]
    rfl

/-- A lexeme leaves an end of what it was given. -/
theorem suffix_of_lexed {kind : Option TokenKind} (h : Lexed operand c rest kind left) :
    left <:+ rest := by
  cases h with
  | blank => exact List.suffix_rfl
  | newline => exact List.suffix_rfl
  | comment => exact List.dropWhile_suffix _
  | comma => exact List.suffix_rfl
  | number h =>
    by_cases hm : ∃ digits, rest = '-' :: digits
    · obtain ⟨digits, rfl⟩ := hm
      rw [scanNumber_minus] at h
      obtain ⟨v, -, hv⟩ := ok_of_map h
      cases hv
      exact (List.dropWhile_suffix _).trans (List.suffix_cons _ _)
    · rw [scanNumber_digits fun more he => hm ⟨more, he⟩] at h
      obtain ⟨v, -, hv⟩ := ok_of_map h
      cases hv
      exact List.dropWhile_suffix _
  | label => exact List.dropWhile_suffix _
  | word => exact List.dropWhile_suffix _

theorem word_ne_newline (text : String) : word text ≠ .ok .newline := by
  unfold word
  split
  · simp
  · split <;> simp

/-- Only a line end is read as one. -/
theorem eq_newline_of_lexed (h : Lexed operand c rest (some .newline) left) : c = '\n' := by
  cases h with
  | newline => rfl
  | word hc h => exact absurd h (word_ne_newline _)

/-- A lexeme of a text without line ends is none, and leaves none. -/
theorem free_of_lexeme {kind : Option TokenKind} (h : lexeme operand c rest = .ok (kind, left))
    (hfree : ∀ d ∈ c :: rest, (d == '\n') = false) :
    (∀ d ∈ left, (d == '\n') = false) ∧ kind ≠ some .newline := by
  have hlexed := lexeme_iff.mp h
  constructor
  · intro d hd
    exact hfree d (List.mem_cons_of_mem _ ((suffix_of_lexed hlexed).subset hd))
  · rintro rfl
    have hc := hfree c List.mem_cons_self
    rw [eq_newline_of_lexed hlexed] at hc
    exact absurd hc (by decide)

/-! ## §3. One line. -/

variable {line : Nat} {done : List Token} {source : List Char}

theorem scanFrom_nil : scanFrom line operand done [] = .ok done.reverse := by
  rw [scanFrom]

theorem scanFrom_skip (h : lexeme operand c rest = .ok (none, left)) :
    scanFrom line operand done (c :: rest) = scanFrom line operand done left := by
  rw [scanFrom]
  split <;> simp_all

theorem scanFrom_token {kind : TokenKind} (h : lexeme operand c rest = .ok (some kind, left)) :
    scanFrom line operand done (c :: rest)
      = scanFrom (if kind = .newline then line + 1 else line) kind.isMnemonic (⟨kind, line⟩ :: done)
          left := by
  rw [scanFrom]
  split <;> simp_all

theorem scanFrom_error {e : SourceError} (h : lexeme operand c rest = .error e) :
    scanFrom line operand done (c :: rest) = .error (.source line e) := by
  rw [scanFrom]
  split <;> simp_all

/-- What holds of a source if it holds of all that its first lexeme can leave, holds of every
source. -/
@[elab_as_elim]
theorem scan_induction {P : List Char → Prop} (source : List Char) (nil : P [])
    (lexeme : ∀ c rest, (∀ {operand kind left}, lexeme operand c rest = .ok (kind, left) → P left) →
      P (c :: rest)) : P source :=
  match source with
  | [] => nil
  | c :: rest => lexeme c rest fun {_ _ left} h =>
    have := length_of_lexeme h
    scan_induction left nil lexeme
termination_by source.length
decreasing_by
  rw [List.length_cons]
  omega

/-- The tokens of the rest of a source do not depend on those already read. -/
theorem scanFrom_done (source : List Char) : ∀ (line : Nat) (operand : Bool) (done : List Token),
    scanFrom line operand done source
      = (scanFrom line operand [] source).map (done.reverse ++ ·) := by
  induction source using scan_induction with
  | nil =>
    intro line operand done
    rw [scanFrom_nil, scanFrom_nil]
    exact congrArg _ (List.append_nil _).symm
  | lexeme c rest ih =>
    intro line operand done
    rcases h : lexeme operand c rest with e | ⟨_ | kind, left⟩
    · rw [scanFrom_error h, scanFrom_error h]
      rfl
    · rw [scanFrom_skip h, scanFrom_skip h]
      exact ih h line operand done
    · rw [scanFrom_token h, scanFrom_token h, ih h _ _ (_ :: done), ih h _ _ [_]]
      cases scanFrom _ _ [] left with
      | error e => rfl
      | ok tokens =>
        refine congrArg Except.ok ?_
        show (_ :: done).reverse ++ tokens = done.reverse ++ ([_].reverse ++ tokens)
        rw [List.reverse_cons, List.append_assoc]
        rfl

/-- **A line is scanned on its own**, and the rest as if nothing stood before it. -/
theorem scanFrom_line (source : List Char) (rest : List Char) :
    (∀ c ∈ source, (c == '\n') = false) → ∀ (line : Nat) (operand : Bool) (done : List Token),
    scanFrom line operand done (source ++ '\n' :: rest)
      = scanFrom line operand done source >>= fun tokens =>
          scanFrom (line + 1) false (⟨.newline, line⟩ :: tokens.reverse) rest := by
  induction source using scan_induction with
  | nil =>
    intro _ line operand done
    have h : lexeme operand '\n' rest = .ok (some .newline, rest) := rfl
    rw [List.nil_append, scanFrom_token h, scanFrom_nil]
    show _ = scanFrom (line + 1) false (_ :: done.reverse.reverse) rest
    rw [List.reverse_reverse]
    rfl
  | lexeme c more ih =>
    intro hfree line operand done
    have happend := lexeme_append operand c more rest
    rw [List.cons_append]
    rcases h : lexeme operand c more with e | ⟨kind, left⟩
    · rw [h] at happend
      rw [scanFrom_error h, scanFrom_error happend]
      rfl
    rw [h] at happend
    obtain ⟨hleft, hkind⟩ := free_of_lexeme h hfree
    cases kind with
    | none =>
      rw [scanFrom_skip h, scanFrom_skip happend]
      exact ih h hleft line operand done
    | some kind =>
      -- no line end is among the characters of the line, so its number stays
      rw [scanFrom_token h, scanFrom_token happend, if_neg (by simpa using hkind)]
      exact ih h hleft line _ _

/-- A scan that succeeds, lexeme by lexeme: blanks and comments are passed over, and a token stands
on the line that was reached. -/
inductive Scanned : (line : Nat) → (operand : Bool) → List Char → List Token → Prop where
  | done {line : Nat} {operand : Bool} : Scanned line operand [] []
  | skip {line : Nat} {operand : Bool} {c : Char} {rest left : List Char} {tokens : List Token}
      (lexed : Lexed operand c rest none left) (behind : Scanned line operand left tokens) :
      Scanned line operand (c :: rest) tokens
  | token {line : Nat} {operand : Bool} {c : Char} {rest left : List Char} {kind : TokenKind}
      {tokens : List Token} (lexed : Lexed operand c rest (some kind) left)
      (behind : Scanned (if kind = .newline then line + 1 else line) kind.isMnemonic left tokens) :
      Scanned line operand (c :: rest) (⟨kind, line⟩ :: tokens)

theorem scanned_of_scanFrom (source : List Char) : ∀ {line : Nat} {operand : Bool}
    {tokens : List Token}, scanFrom line operand [] source = .ok tokens →
      Scanned line operand source tokens := by
  induction source using scan_induction with
  | nil =>
    intro line operand tokens h
    rw [scanFrom_nil] at h
    cases h
    exact .done
  | lexeme c rest ih =>
    intro line operand tokens h
    rcases hl : lexeme operand c rest with e | ⟨_ | kind, left⟩
    · rw [scanFrom_error hl] at h
      cases h
    · rw [scanFrom_skip hl] at h
      exact .skip (lexeme_iff.mp hl) (ih hl h)
    · rw [scanFrom_token hl, scanFrom_done] at h
      obtain ⟨others, ho, rfl⟩ := ok_of_map h
      exact .token (lexeme_iff.mp hl) (ih hl ho)

/-- A token of a source is a lexeme that starts with one of its characters. -/
theorem Scanned.lexed_of_mem {tokens : List Token} (h : Scanned line operand source tokens) :
    ∀ token ∈ tokens, ∃ operand c rest left,
      c ∈ source ∧ Lexed operand c rest (some token.kind) left := by
  induction h with
  | done => exact fun _ ht => absurd ht List.not_mem_nil
  | skip lexed _ ih =>
    intro token ht
    obtain ⟨op, d, after, more, hd, hl⟩ := ih token ht
    exact ⟨op, d, after, more, List.mem_cons_of_mem _ ((suffix_of_lexed lexed).subset hd), hl⟩
  | token lexed _ ih =>
    refine List.forall_mem_cons.mpr ⟨⟨_, _, _, _, List.mem_cons_self, lexed⟩, fun token ht => ?_⟩
    obtain ⟨op, d, after, more, hd, hl⟩ := ih token ht
    exact ⟨op, d, after, more, List.mem_cons_of_mem _ ((suffix_of_lexed lexed).subset hd), hl⟩

/-- No token of a line is a line end. -/
theorem kind_ne_newline_of_mem {operand : Bool} {tokens : List Token}
    (hfree : ∀ c ∈ source, (c == '\n') = false)
    (h : scanFrom line operand [] source = .ok tokens) :
    ∀ token ∈ tokens, (token.kind == .newline) = false := by
  intro token ht
  obtain ⟨op, c, rest, left, hc, hl⟩ :=
    (scanned_of_scanFrom source h).lexed_of_mem token ht
  refine beq_eq_false_iff_ne.mpr fun hk => ?_
  rw [hk] at hl
  have hc := hfree c hc
  rw [eq_newline_of_lexed hl] at hc
  exact absurd hc (by decide)

/-! ## §4. All lines. -/

/-- The tokens of lines, where the first has the number `line`. -/
def scanLines (line : Nat) : List (List Char) → Except AssemblyError (List (List Token))
  | [] => .ok []
  | source :: rest => do
    let tokens ← scanFrom line false [] source
    return tokens :: (← scanLines (line + 1) rest)

/-- The lines of a source text. -/
def sourceLines (source : String) : List (List Char) := segments (· == '\n') source.toList

/-- What holds of a line, and of a line with more lines behind it if it holds of these, holds of
every source. -/
@[elab_as_elim]
theorem line_induction {P : List Char → Prop} (source : List Char)
    (last : ∀ line, (∀ c ∈ line, (c == '\n') = false) → P line)
    (more : ∀ line rest, (∀ c ∈ line, (c == '\n') = false) → P rest → P (line ++ '\n' :: rest)) :
    P source := by
  rcases free_or_split (· == '\n') source with hfree | ⟨line, sep, rest, hs, hfree, hsep⟩
  · exact last source hfree
  · have hshort : rest.length < source.length := by
      rw [hs, List.length_append, List.length_cons]
      omega
    rw [hs, show sep = '\n' from eq_of_beq hsep]
    exact more line rest hfree (line_induction rest last more)
termination_by source.length

/-- **The lines of the tokens are the tokens of the lines.** -/
theorem tokenLines_scanFrom (source : List Char) : ∀ line : Nat,
    (scanFrom line false [] source).map tokenLines
      = scanLines line (segments (· == '\n') source) := by
  induction source using line_induction with
  | last source hfree =>
    intro line
    rw [segments_of_free hfree, scanLines, scanLines]
    cases hs : scanFrom line false [] source with
    | error e => rfl
    | ok tokens => exact congrArg Except.ok (segments_of_free (kind_ne_newline_of_mem hfree hs))
  | more source rest hfree ih =>
    intro line
    rw [segments_append_cons hfree rfl, scanFrom_line source rest hfree, scanLines]
    cases hs : scanFrom line false [] source with
    | error e => rfl
    | ok tokens =>
      show (scanFrom (line + 1) false (⟨.newline, line⟩ :: tokens.reverse) rest).map tokenLines
        = (scanLines (line + 1) (segments (· == '\n') rest)).bind fun more => .ok (tokens :: more)
      rw [scanFrom_done, ← ih (line + 1)]
      cases scanFrom (line + 1) false [] rest with
      | error e => rfl
      | ok others =>
        refine congrArg Except.ok ?_
        show tokenLines ((⟨.newline, line⟩ :: tokens.reverse).reverse ++ others) = _
        rw [List.reverse_cons, List.reverse_reverse, List.append_assoc]
        exact segments_append_cons (kind_ne_newline_of_mem hfree hs) rfl others

/-- **A source is read line by line**: all lines are scanned, and then each is given its nodes. -/
theorem ofSource_eq_lines (source : String) :
    Tree.ofSource source = do
      let lines ← scanLines 1 (sourceLines source)
      return .root (← lines.mapM lineNodes).flatten := by
  unfold sourceLines
  rw [← tokenLines_scanFrom]
  show (scan source).bind Tree.ofTokens = _
  unfold scan
  cases scanFrom 1 false [] source.toList <;> rfl

end Assembly

end ByteMachine
