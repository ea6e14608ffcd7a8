/-
  ByteMachine.Proofs.OpenLabels — what follows a line depends on whether a label is open there.

  A label takes in every character up to the end of its line, blanks and semicolons among them.
  Where a label is open is said by `region`, which goes through the characters of a text one by one
  and knows nothing of tokens.

    • `labelOpen_iff` — a label is open exactly if an `@` outside of comments has no line end
      behind it,
    • `region_of_lexed` — a lexeme does not change whether a label is open further on,
    • `scanFrom_append_silent` — where none is, a tail without tokens is not noticed,
    • `scanFrom_of_open` — where one is, the tail becomes part of it.
-/
import ByteMachine.Proofs.LineByLine
import ByteMachine.Proofs.Spelling

namespace ByteMachine.Assembly

/-! ## §1. Open labels. -/

/-- What a text is in the middle of. -/
inductive Region where
  | code | comment | label
  deriving DecidableEq, Repr

/-- The region behind one more character.  A label and a comment begin in code only; a line end
closes both of them, a carriage return closes a label. -/
def Region.next : Region → Char → Region
  | .code, c => if c == '@' then .label else if c == ';' then .comment else .code
  | .comment, c => if c == '\n' then .code else .comment
  | .label, c => if isLineEnd c then .code else .label

/-- The region at the end of a text. -/
def region (text : List Char) : Region := text.foldl Region.next .code

/-- A label is open at the end of a text: it begins at an `@` outside of comments, and neither a
carriage return nor a line end stands behind it. -/
def LabelOpen (text : List Char) : Prop :=
  ∃ before run, text = before ++ '@' :: run ∧ region before ≠ .comment ∧
    ∀ c ∈ run, isLineEnd c = false

/-- A region goes on over characters that leave it as it is. -/
theorem foldl_next_of_keep {r : Region} {run : List Char} (h : ∀ c ∈ run, r.next c = r) :
    run.foldl Region.next r = r := by
  induction run with
  | nil => rfl
  | cons c run ih =>
    obtain ⟨hc, hrun⟩ := List.forall_mem_cons.mp h
    rw [List.foldl_cons, hc, ih hrun]

theorem next_label_of_not_lineEnd {c : Char} (h : isLineEnd c = false) :
    Region.label.next c = .label := by
  simp [Region.next, h]

theorem next_label_of_lineEnd {c : Char} (h : isLineEnd c = true) :
    Region.label.next c = .code := by
  simp [Region.next, h]

/-- What neither a label nor a comment begins with goes by in code. -/
theorem next_code {c : Char} (hlabel : c ≠ '@') (hcomment : c ≠ ';') :
    Region.code.next c = .code := by
  simp [Region.next, hlabel, hcomment]

/-- **A label is open where the region says so.** -/
theorem labelOpen_iff {text : List Char} : LabelOpen text ↔ region text = .label := by
  constructor
  · rintro ⟨before, run, rfl, hbefore, hrun⟩
    have hstart : (region before).next '@' = .label := by
      cases hr : region before with
      | code => rfl
      | comment => exact absurd hr hbefore
      | label => rfl
    have hkeep : ∀ c ∈ run, Region.label.next c = .label := fun c hc =>
      next_label_of_not_lineEnd (hrun c hc)
    show (before ++ '@' :: run).foldl Region.next .code = .label
    rw [List.foldl_append, List.foldl_cons]
    show run.foldl Region.next ((region before).next '@') = .label
    rw [hstart, foldl_next_of_keep hkeep]
  · -- the last character either opens the label or goes on with one that was open before it
    induction text using List.reverseRecOn with
    | nil =>
      intro h
      cases h
    | append_singleton text c ih =>
      intro h
      have hlast : (region text).next c = .label := by
        rw [← h]
        show _ = (text ++ [c]).foldl Region.next .code
        rw [List.foldl_append]
        rfl
      cases hr : region text with
      | code =>
        rw [hr] at hlast
        by_cases hc : c = '@'
        · exact ⟨text, [], by rw [hc], by rw [hr]; simp, by simp⟩
        · simp only [Region.next, beq_iff_eq, if_neg hc] at hlast
          split at hlast <;> cases hlast
      | comment =>
        rw [hr] at hlast
        simp only [Region.next] at hlast
        split at hlast <;> cases hlast
      | label =>
        have hc : isLineEnd c = false := by
          rw [hr] at hlast
          cases hc : isLineEnd c with
          | false => rfl
          | true =>
            rw [next_label_of_lineEnd hc] at hlast
            cases hlast
        obtain ⟨before, run, rfl, hbefore, hrun⟩ := ih hr
        refine ⟨before, run ++ [c], by simp, hbefore, ?_⟩
        exact List.forall_mem_append.mpr ⟨hrun, List.forall_mem_singleton.mpr hc⟩

/-! ## §2. Open labels and lexemes. -/

variable {line : Nat} {operand : Bool} {done tokens : List Token} {text tail : List Char}

/-- Characters that end no word begin neither a label nor a comment. -/
theorem next_code_of_not_delimiter {c : Char} (h : isDelimiter c = false) :
    Region.code.next c = .code := by
  refine next_code ?_ ?_
  · rintro rfl
    cases h
  · rintro rfl
    cases h

/-- A number has neither a label nor a comment in it. -/
theorem run_of_scanNumber {source left : List Char} {value : Int64}
    (h : scanNumber source = .ok (value, left)) :
    ∃ run, source = run ++ left ∧ ∀ c ∈ run, Region.code.next c = .code := by
  have hdigits : ∀ digits : List Char, ∀ c ∈ digits.takeWhile Char.isDigit,
      Region.code.next c = .code := fun digits c hc =>
    next_code_of_not_delimiter (isDelimiter_of_isDigit (List.mem_takeWhile_imp hc))
  by_cases hm : ∃ digits, source = '-' :: digits
  · obtain ⟨digits, rfl⟩ := hm
    rw [scanNumber_minus] at h
    obtain ⟨v, -, hv⟩ := ok_of_map h
    cases hv
    refine ⟨'-' :: digits.takeWhile Char.isDigit, ?_, ?_⟩
    · rw [List.cons_append, List.takeWhile_append_dropWhile]
    · exact List.forall_mem_cons.mpr ⟨rfl, hdigits digits⟩
  · rw [scanNumber_digits fun more he => hm ⟨more, he⟩] at h
    obtain ⟨v, -, hv⟩ := ok_of_map h
    cases hv
    exact ⟨source.takeWhile Char.isDigit, List.takeWhile_append_dropWhile.symm, hdigits source⟩

/-- Behind a comment a label is open exactly if one is behind what the comment leaves. -/
theorem region_comment (rest : List Char) :
    region (';' :: rest) = .label ↔ region (rest.dropWhile (· != '\n')) = .label := by
  have hrun : ∀ d ∈ rest.takeWhile (· != '\n'), Region.comment.next d = .comment := by
    intro d hd
    have hne : d ≠ '\n' := by simpa using List.mem_takeWhile_imp hd
    simp [Region.next, hne]
  have hregion : region (';' :: rest)
      = (rest.dropWhile (· != '\n')).foldl Region.next .comment := by
    show rest.foldl Region.next .comment = _
    conv => lhs; rw [← List.takeWhile_append_dropWhile (p := (· != '\n')) (l := rest)]
    rw [List.foldl_append, foldl_next_of_keep hrun]
  rw [hregion]
  -- a comment ends at a line end, or nothing is left
  rcases hl : rest.dropWhile (· != '\n') with _ | ⟨d, more⟩
  · simp [region]
  · have hnot := List.head?_dropWhile_not (· != '\n') rest
    rw [hl] at hnot
    obtain rfl : d = '\n' := by simpa using hnot
    rfl

/-- Behind a label a label is open exactly if one is behind what it leaves, or it leaves nothing. -/
theorem region_label (rest : List Char) :
    region ('@' :: rest) = .label ↔ region (rest.dropWhile (!isLineEnd ·)) = .label
      ∨ ∀ d ∈ rest, isLineEnd d = false := by
  rcases free_or_split isLineEnd rest with hfree | ⟨run, d, more, rfl, hrun, hd⟩
  · have hopen : region ('@' :: rest) = .label :=
      foldl_next_of_keep fun d hd => next_label_of_not_lineEnd (hfree d hd)
    exact ⟨fun _ => .inr hfree, fun _ => hopen⟩
  · have hleft : (run ++ d :: more).dropWhile (!isLineEnd ·) = d :: more :=
      dropWhile_run (fun e he => by rw [hrun e he]; rfl) (by rintro e ⟨⟩; rw [hd]; rfl)
    have hkeep : ∀ e ∈ run, Region.label.next e = .label := fun e he =>
      next_label_of_not_lineEnd (hrun e he)
    have hcode : Region.code.next d = .code := by
      refine next_code ?_ ?_
      all_goals
        rintro rfl
        cases hd
    -- the line end closes the label, and in code it goes by as well
    have hregion : region ('@' :: (run ++ d :: more)) = region (d :: more) := by
      show (run ++ d :: more).foldl Region.next .label = (d :: more).foldl Region.next .code
      rw [List.foldl_append, foldl_next_of_keep hkeep, List.foldl_cons, List.foldl_cons, hcode,
        next_label_of_lineEnd hd]
    rw [hleft, hregion]
    refine ⟨.inl, fun hor => hor.resolve_right fun hall => ?_⟩
    have hnot := hall d (List.mem_append_right _ List.mem_cons_self)
    rw [hd] at hnot
    cases hnot

/-- **A label is open behind a lexeme and what it leaves** exactly if it is open behind what is
left, or the lexeme is the label. -/
theorem region_of_lexed {c : Char} {rest left : List Char} {kind : Option TokenKind}
    (h : Lexed operand c rest kind left) :
    region (c :: rest) = .label ↔
      region left = .label ∨ c = '@' ∧ ∀ d ∈ rest, isLineEnd d = false := by
  -- any lexeme but a label or a comment goes by in code
  have hcode : ∀ run, c ≠ '@' → Region.code.next c = .code → rest = run ++ left →
      (∀ d ∈ run, Region.code.next d = .code) → (region (c :: rest) = .label ↔
        region left = .label ∨ c = '@' ∧ ∀ d ∈ rest, isLineEnd d = false) := by
    intro run hlabel hc hrest hrun
    have hregion : region (c :: rest) = region left := by
      show rest.foldl Region.next (Region.code.next c) = _
      rw [hc, hrest, List.foldl_append, foldl_next_of_keep hrun]
      rfl
    rw [hregion]
    exact ⟨.inl, fun hor => hor.resolve_right fun hand => hlabel hand.1⟩
  cases h with
  | blank h =>
    refine hcode [] ?_ (next_code ?_ ?_) rfl (by simp)
    all_goals
      rintro rfl
      cases h
  | newline => exact hcode [] (by decide) rfl rfl (by simp)
  | comma => exact hcode [] (by decide) rfl rfl (by simp)
  | number h =>
    obtain ⟨run, hrest, hrun⟩ := run_of_scanNumber h
    exact hcode run (by decide) rfl hrest hrun
  | word hc h =>
    refine hcode _ ?_ (next_code_of_not_delimiter hc) List.takeWhile_append_dropWhile.symm ?_
    · rintro rfl
      cases hc
    · intro d hd
      exact next_code_of_not_delimiter (by simpa using List.mem_takeWhile_imp hd)
  | comment => simp [region_comment rest]
  | label h => simp [region_label rest]

/-- What is read at a label sign is a label. -/
theorem label_of_lexed {rest left : List Char} {kind : Option TokenKind}
    (h : Lexed operand '@' rest kind left) :
    left = rest.dropWhile (!isLineEnd ·) ∧ ∃ name, kind = some (.label name) ∧
      labelName operand (rest.takeWhile (!isLineEnd ·)) = .ok name := by
  cases h with
  | blank hblank => cases hblank
  | word hc _ => cases hc
  | label hname => exact ⟨rfl, _, rfl, hname⟩

/-- What is read at a semicolon goes as far as the line does. -/
theorem comment_of_lexed {rest left : List Char} {kind : Option TokenKind}
    (h : Lexed operand ';' rest kind left) : left = rest.dropWhile (· != '\n') := by
  cases h with
  | blank hblank => cases hblank
  | word hc _ => cases hc
  | comment => rfl

/-- What a lexeme of a line leaves is scanned on the same line, whatever it is. -/
theorem scanFrom_behind {kind : Option TokenKind} (hkind : kind ≠ some .newline) (line : Nat)
    (operand : Bool) (done : List Token) :
    ∃ (operand' : Bool) (done' : List Token), ∀ {c : Char} {rest left : List Char},
      lexeme operand c rest = .ok (kind, left) →
        scanFrom line operand done (c :: rest) = scanFrom line operand' done' left := by
  cases kind with
  | none => exact ⟨operand, done, scanFrom_skip⟩
  | some kind =>
    refine ⟨kind.isMnemonic, ⟨kind, line⟩ :: done, fun h => ?_⟩
    rw [scanFrom_token h, if_neg (by simpa using hkind)]

/-! ## §3. Tails without tokens. -/

/-- A tail of a line that no word and no number takes in, and that has no tokens by itself. -/
structure Silent (tail : List Char) : Prop where
  stops : Stops tail
  free : ∀ c ∈ tail, (c == '\n') = false
  scan : ∀ line operand done, scanFrom line operand done tail = .ok done.reverse

/-- A comment is not read. -/
theorem scanFrom_comment (hfree : ∀ c ∈ text, (c == '\n') = false) :
    scanFrom line operand done (';' :: text) = .ok done.reverse := by
  have hleft : text.dropWhile (· != '\n') = [] := by
    rw [List.dropWhile_eq_nil_iff]
    intro c hc
    simpa using hfree c hc
  rw [scanFrom_skip (lexeme_iff.mpr .comment), hleft, scanFrom_nil]

theorem silent_comment (hfree : ∀ c ∈ text, (c == '\n') = false) : Silent (';' :: text) where
  stops := stops_cons rfl text
  free := List.forall_mem_cons.mpr ⟨rfl, hfree⟩
  scan _ _ _ := scanFrom_comment hfree

theorem silent_blanks (h : ∀ c ∈ tail, isBlank c = true) : Silent tail where
  stops c hc := by
    have hblank := h c (List.mem_of_mem_head? hc)
    simp [isDelimiter, hblank]
  free c hc := by
    refine beq_eq_false_iff_ne.mpr ?_
    rintro rfl
    exact absurd (h _ hc) (by decide)
  scan line operand done := by
    have hscan := scanFrom_blanks h line operand done []
    rwa [List.append_nil, scanFrom_nil] at hscan

/-- **A tail without tokens is not noticed** where no label is open, or where it closes the label
itself.  This holds whether the text in front of it can be scanned or not. -/
theorem scanFrom_append_silent (ht : Silent tail) (text : List Char) :
    ∀ {line : Nat} {operand : Bool} {done : List Token}, (∀ c ∈ text, (c == '\n') = false) →
      (region text = .label → ∀ c ∈ tail.head?, isLineEnd c = true) →
      scanFrom line operand done (text ++ tail) = scanFrom line operand done text := by
  induction text using scan_induction with
  | nil =>
    intro line operand done _ _
    rw [List.nil_append, ht.scan, scanFrom_nil]
  | lexeme c rest ih =>
    intro line operand done hfree hopen
    have hrest : ∀ d ∈ rest, (d == '\n') = false := fun d hd =>
      hfree d (List.mem_cons_of_mem _ hd)
    rw [List.cons_append]
    by_cases hc : c = ';'
    · -- the comment takes in the tail
      rw [hc, scanFrom_comment hrest,
        scanFrom_comment (List.forall_mem_append.mpr ⟨hrest, ht.free⟩)]
    have hlabel : c = '@' → EndsBefore (!isLineEnd ·) rest tail := by
      rintro rfl
      by_cases hleft : rest.dropWhile (!isLineEnd ·) = []
      · have hrun : ∀ d ∈ rest, isLineEnd d = false := by
          simpa [List.dropWhile_eq_nil_iff] using hleft
        refine endsBefore_of_stop (fun d hd => ?_) rest
        rw [hopen ((region_label rest).mpr (.inr hrun)) d hd]
        rfl
      · exact endsBefore_of_left hleft tail
    have happend := lexeme_append_of_stops operand c rest ht.stops (fun h => absurd h hc) hlabel
    rcases h : lexeme operand c rest with e | ⟨kind, left⟩
    · rw [h] at happend
      rw [scanFrom_error h, scanFrom_error happend]
    · rw [h] at happend
      obtain ⟨hleft, hkind⟩ := free_of_lexeme h hfree
      obtain ⟨operand', done', hbehind⟩ := scanFrom_behind hkind line operand done
      rw [hbehind h, hbehind happend]
      exact ih h hleft fun hl => hopen ((region_of_lexed (lexeme_iff.mp h)).mpr (.inl hl))

/-! ## §4. Tails of an open label. -/

/-- A lexeme that leaves something is the same with a tail behind it that a delimiter opens. -/
theorem lexeme_append_of_left {c : Char} {rest left : List Char} {kind : Option TokenKind}
    (h : lexeme operand c rest = .ok (kind, left)) (hleft : left ≠ []) (ht : Stops tail) :
    lexeme operand c (rest ++ tail) = .ok (kind, left ++ tail) := by
  have hlexed := lexeme_iff.mp h
  rw [lexeme_append_of_stops operand c rest ht, h]
  · rfl
  · rintro rfl
    obtain rfl := comment_of_lexed hlexed
    exact endsBefore_of_left hleft tail
  · rintro rfl
    obtain ⟨rfl, -⟩ := label_of_lexed hlexed
    exact endsBefore_of_left hleft tail

/-- **A tail of an open label becomes part of it.**  A line that can be scanned and ends in an open
label has this label for its last token, and whatever a delimiter opens behind the line is scanned
as if it stood behind the label's characters. -/
theorem scanFrom_of_open (text : List Char) :
    ∀ {line : Nat} {operand : Bool} {done tokens : List Token},
      (∀ c ∈ text, (c == '\n') = false) → region text = .label →
      scanFrom line operand done text = .ok tokens →
      ∃ (atOperand : Bool) (before : List Token) (run : List Char) (name : String),
        (∀ c ∈ run, isLineEnd c = false) ∧ labelName atOperand run = .ok name ∧
        tokens = (⟨.label name, line⟩ :: before).reverse ∧
        ∀ tail, Stops tail → scanFrom line operand done (text ++ tail)
          = scanFrom line atOperand before ('@' :: (run ++ tail)) := by
  induction text using scan_induction with
  | nil =>
    intro line operand done tokens _ hopen _
    cases hopen
  | lexeme c rest ih =>
    intro line operand done tokens hfree hopen hscan
    rcases h : lexeme operand c rest with e | ⟨kind, left⟩
    · rw [scanFrom_error h] at hscan
      cases hscan
    have hlexed := lexeme_iff.mp h
    rcases (region_of_lexed hlexed).mp hopen with hleft | ⟨rfl, hrun⟩
    · -- the label is further on, so this lexeme leaves something and ends before the tail
      have hne : left ≠ [] := by
        rintro rfl
        cases hleft
      obtain ⟨hfreeLeft, hkind⟩ := free_of_lexeme h hfree
      obtain ⟨operand', done', hbehind⟩ := scanFrom_behind hkind line operand done
      rw [hbehind h] at hscan
      obtain ⟨atOperand, before, run, name, hrun, hname, htokens, htail⟩ :=
        ih h hfreeLeft hleft hscan
      refine ⟨atOperand, before, run, name, hrun, hname, htokens, fun tail ht => ?_⟩
      rw [List.cons_append, hbehind (lexeme_append_of_left h hne ht)]
      exact htail tail ht
    · -- the label is this lexeme, and takes in all that is left
      have hall : ∀ d ∈ rest, (!isLineEnd d) = true := fun d hd => by rw [hrun d hd]; rfl
      obtain ⟨rfl, name, rfl, hname⟩ := label_of_lexed hlexed
      rw [List.takeWhile_eq_self_iff.mpr hall] at hname
      rw [scanFrom_token h, List.dropWhile_eq_nil_iff.mpr hall, scanFrom_nil] at hscan
      exact ⟨operand, done, rest, name, hrun, hname, (Except.ok.inj hscan).symm,
        fun tail _ => rfl⟩

/-- Blanks behind an open label are blanks in it. -/
theorem scanFrom_open_blanks (hfree : ∀ c ∈ text, (c == '\n') = false)
    (hopen : region text = .label) (h : scanFrom line operand done text = .ok tokens)
    (hne : tail ≠ []) (hblank : ∀ c ∈ tail, c = ' ' ∨ c = '\t') :
    scanFrom line operand done (text ++ tail) = .error (.source line (.label .whitespace)) := by
  obtain ⟨op, before, run, name, hrun, -, -, htail⟩ := scanFrom_of_open text hfree hopen h
  have hstops : Stops tail := by
    intro c hc
    rcases hblank c (List.mem_of_mem_head? hc) with rfl | rfl <;> rfl
  have hall : ∀ c ∈ run ++ tail, (!isLineEnd c) = true := by
    refine List.forall_mem_append.mpr ⟨fun c hc => by rw [hrun c hc]; rfl, fun c hc => ?_⟩
    rcases hblank c hc with rfl | rfl <;> rfl
  have hname : labelName op ((run ++ tail).takeWhile (!isLineEnd ·)) = .error .whitespace := by
    obtain ⟨c, more, rfl⟩ := List.exists_cons_of_ne_nil hne
    have hany : (run ++ c :: more).any (fun c => c == ' ' || c == '\t') = true := by
      rw [List.any_eq_true]
      refine ⟨c, List.mem_append_right _ List.mem_cons_self, ?_⟩
      rcases hblank c List.mem_cons_self with rfl | rfl <;> rfl
    rw [List.takeWhile_eq_self_iff.mpr hall, labelName, if_pos hany]
  rw [htail tail hstops]
  refine scanFrom_error ?_
  simp [lexeme, isBlank, hname]

/-- A semicolon behind the characters of a label makes another label of it, or none. -/
theorem labelName_ne_of_semicolon {operand : Bool} {run more : List Char} {name : String}
    (hrun : ∀ c ∈ run, isLineEnd c = false) (hmore : ∀ c ∈ more, isLineEnd c = false)
    (h : labelName operand run = .ok name) :
    labelName operand (run ++ ';' :: more) ≠ .ok name := by
  intro h'
  have hall : ∀ c ∈ run ++ ';' :: more, isLineEnd c = false :=
    List.forall_mem_append.mpr ⟨hrun, List.forall_mem_cons.mpr ⟨rfl, hmore⟩⟩
  -- a name is as long as its characters, or one shorter, when the last of them is a colon
  rcases ((labelName_iff hrun).mp h).2 with hclosed | ⟨-, hsame, -⟩ <;>
    rcases ((labelName_iff hall).mp h').2 with hclosed' | ⟨-, hsame', -⟩
  · rw [← hclosed] at hclosed'
    simp at hclosed'
  · have hlength := congrArg List.length hsame'
    rw [hclosed] at hlength
    simp at hlength
  · rw [hsame] at hclosed'
    cases List.append_cancel_left hclosed'
  · rw [hsame] at hsame'
    simp at hsame'

/-- A comment behind an open label does not leave the tokens as they were. -/
theorem scanFrom_open_comment (hfree : ∀ c ∈ text, (c == '\n') = false)
    (hopen : region text = .label) (h : scanFrom line operand done text = .ok tokens)
    (comment : List Char) :
    scanFrom line operand done (text ++ ';' :: comment) ≠ .ok tokens := by
  obtain ⟨op, before, run, name, hrun, hname, rfl, htail⟩ := scanFrom_of_open text hfree hopen h
  have hrunTake : (run ++ ';' :: comment).takeWhile (!isLineEnd ·)
      = run ++ ';' :: comment.takeWhile (!isLineEnd ·) := by
    rw [List.takeWhile_append_of_pos fun c hc => by rw [hrun c hc]; rfl]
    rfl
  rw [htail _ (stops_cons rfl comment)]
  intro hscan
  rcases hl : lexeme op '@' (run ++ ';' :: comment) with e | ⟨kind, left⟩
  · rw [scanFrom_error hl] at hscan
    cases hscan
  obtain ⟨-, other, rfl, hother⟩ := label_of_lexed (lexeme_iff.mp hl)
  -- the label that is read stands where the label stood
  rw [scanFrom_token hl, scanFrom_done] at hscan
  obtain ⟨others, -, heq⟩ := ok_of_map hscan
  rw [List.reverse_cons, List.reverse_cons, List.append_assoc] at heq
  cases List.append_cancel_left heq
  rw [hrunTake] at hother
  refine labelName_ne_of_semicolon hrun (fun c hc => ?_) hname hother
  simpa using List.mem_takeWhile_imp hc

end ByteMachine.Assembly
