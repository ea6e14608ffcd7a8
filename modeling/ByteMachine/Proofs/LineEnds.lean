/-
  ByteMachine.Proofs.LineEnds — what may be added at the end of a line.

  A carriage return in front of a line end changes nothing.  Blanks and comments at the end of a
  line change nothing either, unless a label is open there.

    • `scanFrom_withReturns` — carriage returns, in front of as many line ends as one likes,
    • `scan_append_iff` — blanks and comments behind a line by itself,
    • `scan_between` — one line of a source decides nothing but its own tokens,
    • `line_ends_are_neutral` — the whole.
-/
import ByteMachine.Proofs.OpenLabels

namespace ByteMachine.Assembly

variable {tokens : List Token}

/-! ## §1. Carriage returns. -/

/-- The second text is the first one with carriage returns in front of some of its line ends. -/
inductive WithReturns : List Char → List Char → Prop where
  | nil : WithReturns [] []
  | keep (c : Char) {source text : List Char} (behind : WithReturns source text) :
      WithReturns (c :: source) (c :: text)
  | insert {source text : List Char} (behind : WithReturns source text) :
      WithReturns ('\n' :: source) ('\r' :: '\n' :: text)

/-- **Carriage returns in front of line ends change nothing**, behind any start of a line. -/
theorem scanFrom_withReturns {source text : List Char} (h : WithReturns source text) :
    ∀ start : List Char, (∀ c ∈ start, (c == '\n') = false) →
      ∀ (line : Nat) (operand : Bool) (done : List Token),
        scanFrom line operand done (start ++ text)
          = scanFrom line operand done (start ++ source) := by
  induction h with
  | nil => intro start _ line operand done; rfl
  | @keep c source text _ ih =>
    intro start hstart line operand done
    by_cases hc : c = '\n'
    · subst hc
      rw [scanFrom_line start _ hstart, scanFrom_line start _ hstart]
      exact congrArg _ (funext fun tokens => ih [] (by simp) _ _ _)
    · rw [List.append_cons start c text, List.append_cons start c source]
      refine ih (start ++ [c]) (List.forall_mem_append.mpr ⟨hstart, ?_⟩) line operand done
      exact List.forall_mem_singleton.mpr (beq_eq_false_iff_ne.mpr hc)
  | @insert source text _ ih =>
    intro start hstart line operand done
    have hreturn : Silent ['\r'] := silent_blanks (List.forall_mem_singleton.mpr rfl)
    have hstart' : ∀ c ∈ start ++ ['\r'], (c == '\n') = false :=
      List.forall_mem_append.mpr ⟨hstart, hreturn.free⟩
    rw [List.append_cons start '\r', scanFrom_line _ _ hstart', scanFrom_line _ _ hstart,
      scanFrom_append_silent hreturn start hstart fun _ => by rintro c ⟨⟩; rfl]
    exact congrArg _ (funext fun tokens => ih [] (by simp) _ _ _)

/-! ## §2. One line of a source. -/

/-- Tokens that are the same further down are the same. -/
theorem map_down_inj {n : Nat} {tokens others : List Token} :
    tokens.map (Token.down n) = others.map (Token.down n) ↔ tokens = others := by
  refine List.map_inj_right fun a b h => ?_
  obtain ⟨kind, line⟩ := a
  obtain ⟨kind', line'⟩ := b
  simp only [Token.down, Token.mk.injEq] at h
  rw [Token.mk.injEq]
  exact ⟨h.1, by omega⟩

theorem tokensDown_zero (result : Except AssemblyError (List Token)) :
    tokensDown 0 result = result := by
  cases result with
  | ok tokens => exact congrArg Except.ok (List.map_id tokens)
  | error e => cases e <;> rfl

theorem of_tokensDown {n : Nat} {result : Except AssemblyError (List Token)} {down : List Token}
    (h : tokensDown n result = .ok down) :
    ∃ own, result = .ok own ∧ own.map (Token.down n) = down := by
  cases result with
  | ok own => exact ⟨own, rfl, Except.ok.inj h⟩
  | error e => cases h

/-- One line further down, with the same tokens around them. -/
theorem tokensDown_around (n : Nat) (opening ending : List Token)
    (result : Except AssemblyError (List Token)) :
    tokensDown 1 ((tokensDown n result).map fun tokens => opening ++ (tokens ++ ending))
      = (tokensDown (n + 1) result).map fun tokens =>
          opening.map (Token.down 1) ++ (tokens ++ ending.map (Token.down 1)) := by
  cases result with
  | error e => cases e <;> rfl
  | ok tokens =>
    refine congrArg Except.ok ?_
    show (opening ++ (tokens.map (Token.down n) ++ ending)).map (Token.down 1) = _
    rw [List.map_append, List.map_append, List.map_map]
    rfl

theorem length_textLines_of_free {text : String} (h : '\n' ∉ text.toList) :
    (textLines text).length = 1 := by
  rw [length_textLines, count_of_free (beq_newline_of_not_mem h)]

/-- **One line of a source decides nothing but its own tokens**: in a source that can be scanned,
the tokens in front of a line and behind it stay when the line is replaced. -/
theorem scan_between {before after : List String} {text : String}
    (hfree : ∀ line ∈ before, '\n' ∉ line.toList) (htext : '\n' ∉ text.toList) :
    ∀ {tokens : List Token}, scan ("\n".intercalate (before ++ text :: after)) = .ok tokens →
      ∃ opening ending, ∀ other : String, '\n' ∉ other.toList →
        scan ("\n".intercalate (before ++ other :: after))
          = (tokensDown before.length (scan other)).map fun tokens =>
              opening ++ (tokens ++ ending) := by
  induction before with
  | nil =>
    intro tokens h
    cases after with
    | nil =>
      refine ⟨[], [], fun other _ => ?_⟩
      rw [List.nil_append, String.intercalate_singleton, List.length_nil, tokensDown_zero]
      cases scan other with
      | ok tokens => exact congrArg Except.ok (List.append_nil tokens).symm
      | error e => rfl
    | cons next after =>
      rw [List.nil_append, String.intercalate_cons_cons, scan_append_newline,
        length_textLines_of_free htext] at h
      obtain ⟨first, -, h⟩ := ok_of_bind h
      obtain ⟨others, hothers, -⟩ := ok_of_bind h
      refine ⟨[], ⟨.newline, 1⟩ :: others, fun other hother => ?_⟩
      rw [List.nil_append, String.intercalate_cons_cons, scan_append_newline,
        length_textLines_of_free hother, hothers, List.length_nil, tokensDown_zero]
      cases scan other <;> rfl
  | cons first before ih =>
    intro tokens h
    obtain ⟨hfirst, hbefore⟩ := List.forall_mem_cons.mp hfree
    have hcons : ∀ other : String, "\n".intercalate (first :: (before ++ other :: after))
        = first ++ "\n" ++ "\n".intercalate (before ++ other :: after) := by
      intro other
      cases before <;> exact String.intercalate_cons_cons
    rw [List.cons_append, hcons, scan_append_newline, length_textLines_of_free hfirst] at h
    obtain ⟨head, hhead, h⟩ := ok_of_bind h
    obtain ⟨others, hothers, -⟩ := ok_of_bind h
    cases hrest : scan ("\n".intercalate (before ++ text :: after)) with
    | error e =>
      rw [hrest] at hothers
      cases hothers
    | ok rest =>
      obtain ⟨opening, ending, hscan⟩ := ih hbefore hrest
      refine ⟨head ++ ⟨.newline, 1⟩ :: opening.map (Token.down 1), ending.map (Token.down 1),
        fun other hother => ?_⟩
      rw [List.cons_append, hcons, scan_append_newline, length_textLines_of_free hfirst, hhead,
        hscan other hother, tokensDown_around, List.length_cons]
      cases tokensDown (before.length + 1) (scan other) with
      | error e => rfl
      | ok tokens =>
        refine congrArg Except.ok ?_
        simp only [List.append_assoc, List.cons_append]

/-- A line among others has these tokens exactly if it has its own ones by itself. -/
theorem around_eq_iff {n : Nat} {opening ending own : List Token}
    {result : Except AssemblyError (List Token)} :
    (tokensDown n result).map (fun tokens => opening ++ (tokens ++ ending))
        = .ok (opening ++ (own.map (Token.down n) ++ ending)) ↔ result = .ok own := by
  cases result with
  | error e => exact ⟨fun h => (by cases h), fun h => (by cases h)⟩
  | ok tokens =>
    show Except.ok (opening ++ (tokens.map (Token.down n) ++ ending)) = _ ↔ _
    simp only [Except.ok.injEq, List.append_cancel_left_eq, List.append_cancel_right_eq,
      map_down_inj]

/-! ## §3. The end of a line. -/

/-- Blanks that may be added to a line: one at least, and no carriage return. -/
def Blanks (tail : String) : Prop := tail ≠ "" ∧ ∀ c ∈ tail.toList, c = ' ' ∨ c = '\t'

/-- A comment: a semicolon and any characters but line ends. -/
def Comment (tail : String) : Prop := ∃ text, tail = ";" ++ text ∧ '\n' ∉ text.toList

theorem Blanks.silent {tail : String} (h : Blanks tail) : Silent tail.toList :=
  silent_blanks fun c hc => by rcases h.2 c hc with rfl | rfl <;> rfl

theorem Comment.toList_eq {tail : String} (h : Comment tail) :
    ∃ text, tail.toList = ';' :: text ∧ ∀ c ∈ text, (c == '\n') = false := by
  obtain ⟨text, rfl, hfree⟩ := h
  exact ⟨text.toList, String.toList_append, beq_newline_of_not_mem hfree⟩

theorem Comment.silent {tail : String} (h : Comment tail) : Silent tail.toList := by
  obtain ⟨text, htail, hfree⟩ := h.toList_eq
  rw [htail]
  exact silent_comment hfree

variable {own suffix : String}

/-- Blanks behind a line that ends in an open label are blanks in the label. -/
theorem scan_append_blanks (hfree : '\n' ∉ own.toList) (hopen : LabelOpen own.toList)
    (hscan : scan own = .ok tokens) (h : Blanks suffix) :
    scan (own ++ suffix) = .error (.source 1 (.label .whitespace)) := by
  unfold scan
  rw [String.toList_append]
  refine scanFrom_open_blanks (beq_newline_of_not_mem hfree) (labelOpen_iff.mp hopen) hscan ?_ h.2
  intro hnil
  exact h.1 (String.toList_eq_nil_iff.mp hnil)

/-- A comment behind a line that ends in an open label makes another line of it. -/
theorem scan_append_comment (hfree : '\n' ∉ own.toList) (hopen : LabelOpen own.toList)
    (hscan : scan own = .ok tokens) (h : Comment suffix) : scan (own ++ suffix) ≠ .ok tokens := by
  obtain ⟨text, htail, -⟩ := h.toList_eq
  unfold scan
  rw [String.toList_append, htail]
  exact scanFrom_open_comment (beq_newline_of_not_mem hfree) (labelOpen_iff.mp hopen) hscan text

/-- **Blanks and comments at the end of a line are not noticed** exactly if no label is open. -/
theorem scan_append_iff (hfree : '\n' ∉ own.toList) (hscan : scan own = .ok tokens)
    (h : Blanks suffix ∨ Comment suffix) :
    scan (own ++ suffix) = .ok tokens ↔ ¬ LabelOpen own.toList := by
  constructor
  · intro happend hopen
    rcases h with h | h
    · rw [scan_append_blanks hfree hopen hscan h] at happend
      cases happend
    · exact scan_append_comment hfree hopen hscan h happend
  · intro hclosed
    have hsilent : Silent suffix.toList := h.elim Blanks.silent Comment.silent
    rw [← hscan]
    unfold scan
    rw [String.toList_append]
    exact scanFrom_append_silent hsilent _ (beq_newline_of_not_mem hfree) fun hopen =>
      absurd (labelOpen_iff.mpr hopen) hclosed

/-- **What may be added at the end of a line.**  Carriage returns in front of any line ends of a
source leave everything as it is, tokens, lines and faults.  In a source that can be scanned, blanks
or a comment at the end of a line leave the tokens exactly if no label is open there.  If one is,
blanks are a fault of this label on this line, and with a comment the tokens are not the same. -/
theorem line_ends_are_neutral (source : String) :
    (∀ text : String, WithReturns source.toList text.toList → scan text = scan source) ∧
    ∀ tokens, scan source = .ok tokens →
      ∀ before line after, textLines source = before ++ line :: after →
        (∀ tail, Blanks tail ∨ Comment tail →
          (scan ("\n".intercalate (before ++ (line ++ tail) :: after)) = .ok tokens ↔
            ¬ LabelOpen line.toList)) ∧
        (LabelOpen line.toList →
          (∀ tail, Blanks tail →
            scan ("\n".intercalate (before ++ (line ++ tail) :: after))
              = .error (.source (before.length + 1) (.label .whitespace))) ∧
          ∀ tail, Comment tail →
            scan ("\n".intercalate (before ++ (line ++ tail) :: after)) ≠ .ok tokens) := by
  refine ⟨fun text h => ?_, fun tokens hscan before line after hlines => ?_⟩
  · exact scanFrom_withReturns h [] (by simp) 1 false []
  obtain ⟨-, hfree, hjoin⟩ := textLines_spec source
  rw [hlines] at hfree hjoin
  rw [← hjoin] at hscan
  have hbefore : ∀ other ∈ before, '\n' ∉ other.toList := fun other ho =>
    hfree other (List.mem_append_left _ ho)
  have hline : '\n' ∉ line.toList := hfree line (by simp)
  obtain ⟨opening, ending, hbetween⟩ := scan_between hbefore hline hscan
  -- the tokens of the line by itself, which are those in the source
  rw [hbetween line hline] at hscan
  obtain ⟨down, hdown, rfl⟩ := ok_of_map hscan
  obtain ⟨own, hown, rfl⟩ := of_tokensDown hdown
  have happend : ∀ tail, Blanks tail ∨ Comment tail → '\n' ∉ (line ++ tail).toList := by
    intro tail h hmem
    have hsilent : Silent tail.toList := h.elim Blanks.silent Comment.silent
    rw [String.toList_append] at hmem
    rcases List.mem_append.mp hmem with hmem | hmem
    · exact hline hmem
    · exact absurd (hsilent.free _ hmem) (by decide)
  have hiff : ∀ tail, Blanks tail ∨ Comment tail →
      (scan ("\n".intercalate (before ++ (line ++ tail) :: after))
          = .ok (opening ++ (own.map (Token.down before.length) ++ ending)) ↔
        ¬ LabelOpen line.toList) := by
    intro tail h
    rw [hbetween _ (happend tail h), around_eq_iff]
    exact scan_append_iff hline hown h
  refine ⟨hiff, fun hopen => ⟨fun tail h => ?_, fun tail h heq => ?_⟩⟩
  · rw [hbetween _ (happend tail (.inl h)), scan_append_blanks hline hopen hown h,
      Nat.add_comm before.length 1]
    rfl
  · exact (hiff tail (.inr h)).mp heq hopen

/-- A label that a carriage return closes, and one that is open: behind the first a comment is not
noticed, behind the second blanks are a fault on its line and a comment makes another name. -/
theorem line_ends_are_neutral_label :
    let source := "@a:\r\njmp @a"
    let text := "@a:\r\r\njmp @a"
    let tokens : List Token :=
      [⟨.label "a", 1⟩, ⟨.newline, 1⟩, ⟨.mnemonic "jmp", 2⟩, ⟨.label "a", 2⟩]
    scan source = .ok tokens ∧ scan text = .ok tokens ∧
      textLines source = [] ++ "@a:\r" :: ["jmp @a"] ∧
      textLines source = ["@a:\r"] ++ "jmp @a" :: [] ∧
      scan "@a:\r; first @b\njmp @a" = .ok tokens ∧
      scan "@a:\r\njmp @a \t" = .error (.source 2 (.label .whitespace)) ∧
      scan "@a:\r\njmp @a; again" ≠ .ok tokens := by
  intro source text tokens
  have hscan : scan source = .ok tokens := by cbv
  have hfirst : textLines source = [] ++ "@a:\r" :: ["jmp @a"] := by cbv
  have hlast : textLines source = ["@a:\r"] ++ "jmp @a" :: [] := by cbv
  have hsource : source.toList = ['@', 'a', ':', '\r', '\n', 'j', 'm', 'p', ' ', '@', 'a'] := by cbv
  have htext : text.toList = ['@', 'a', ':', '\r', '\r', '\n', 'j', 'm', 'p', ' ', '@', 'a'] := by
    cbv
  have hreturns : WithReturns source.toList text.toList := by
    rw [hsource, htext]
    refine .keep _ <| .keep _ <| .keep _ <| .keep _ <| .insert ?_
    exact .keep _ <| .keep _ <| .keep _ <| .keep _ <| .keep _ <| .keep _ .nil
  have hblanks : Blanks " \t" := by
    have hchars : " \t".toList = [' ', '\t'] := by cbv
    refine ⟨by decide, ?_⟩
    rw [hchars]
    simp
  obtain ⟨hneutral, htail⟩ := line_ends_are_neutral source
  have hclosed : ¬ LabelOpen "@a:\r".toList := by
    rw [labelOpen_iff]
    decide
  have hopen : LabelOpen "jmp @a".toList := by
    rw [labelOpen_iff]
    decide
  refine ⟨hscan, (hneutral text hreturns).trans hscan, hfirst, hlast, ?_, ?_, ?_⟩
  · exact ((htail tokens hscan _ _ _ hfirst).1 "; first @b"
      (.inr ⟨" first @b", rfl, by decide⟩)).mpr hclosed
  · exact ((htail tokens hscan _ _ _ hlast).2 hopen).1 " \t" hblanks
  · exact ((htail tokens hscan _ _ _ hlast).2 hopen).2 "; again" ⟨" again", rfl, by decide⟩

end ByteMachine.Assembly
