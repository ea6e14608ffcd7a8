/-
  ByteMachine.Assembly.Token.Scan — from source text to tokens.

  One lexeme is read at a time: `lexeme` looks at one character and at the rest of the source, and
  says which token stands there, if any, and where reading goes on.  The scan itself only counts
  lines and remembers whether the last token was a mnemonic, because a label in operand position
  may leave out its colon.

  Main statement: `length_of_lexeme` — a lexeme never gives characters back, so the scan ends.
-/
import ByteMachine.Assembly.Error
import ByteMachine.Assembly.Token
import ByteMachine.Operation
import ByteMachine.Text.Decimal

namespace ByteMachine.Assembly

/-! ## §1. Characters. -/

/-- Characters between words that mean nothing. -/
def isBlank (c : Char) : Bool := c == ' ' || c == '\t' || c == '\r'

/-- Characters that end a word. -/
def isDelimiter (c : Char) : Bool :=
  isBlank c || c == '\n' || c == ',' || c == ';' || c == '#' || c == '@'

/-- Characters that end a label. -/
def isLineEnd (c : Char) : Bool := c == '\n' || c == '\r'

/-! ## §2. Numbers. -/

/-- The number spelled by a sign and a run of digits, or what is wrong with it. -/
def number (negative : Bool) (digits : List Char) : Except SyntaxError Int64 :=
  if digits.isEmpty then .error (if negative then .missingDigit else .missingNumber)
  else
    let magnitude := Text.Decimal.ofDigits digits
    let value : Int := if negative then -magnitude else magnitude
    if Int64.minValue.toInt ≤ value ∧ value ≤ Int64.maxValue.toInt then .ok (.ofInt value)
    else .error (.numberOutOfRange (String.ofList (if negative then '-' :: digits else digits)))

/-- The number after a `#`, and the rest of the source. -/
def scanNumber (source : List Char) : Except SyntaxError (Int64 × List Char) := do
  match source with
  | '-' :: rest =>
    return (← number true (rest.takeWhile Char.isDigit), rest.dropWhile Char.isDigit)
  | _ => return (← number false (source.takeWhile Char.isDigit), source.dropWhile Char.isDigit)

/-! ## §3. Labels and words. -/

/-- The name spelled by the characters of a label.  One colon at the end is dropped; it may be
missing only in operand position. -/
def labelName (operand : Bool) (run : List Char) : Except LabelError String :=
  if run.any fun c => c == ' ' || c == '\t' then .error .whitespace
  else
    let closed := run.getLast? == some ':'
    let name := String.ofList (if closed then run.dropLast else run)
    if !closed && !operand then .error (.missingColon name)
    else if name.isEmpty then .error .empty
    else .ok name

/-- The token that a word spells: a mnemonic or a register. -/
def word (text : String) : Except SyntaxError TokenKind :=
  if isMnemonic text then .ok (.mnemonic text)
  else
    match Register.ofName? text with
    | some reg => .ok (.register reg)
    | none => .error (.invalidLexeme text)

/-! ## §4. One lexeme. -/

/-- The token that starts with `c` and goes on in `rest`, none for blanks and comments, and what
is left of the source behind it.  A comment leaves its line end in place. -/
def lexeme (operand : Bool) (c : Char) (rest : List Char) :
    Except SourceError (Option TokenKind × List Char) :=
  if isBlank c then .ok (none, rest)
  else if c == '\n' then .ok (some .newline, rest)
  else if c == ';' then .ok (none, rest.dropWhile (· != '\n'))
  else if c == ',' then .ok (some .comma, rest)
  else if c == '#' then
    match scanNumber rest with
    | .ok (value, left) => .ok (some (.number value), left)
    | .error e => .error (.grammar e)
  else if c == '@' then
    match labelName operand (rest.takeWhile (!isLineEnd ·)) with
    | .ok name => .ok (some (.label name), rest.dropWhile (!isLineEnd ·))
    | .error e => .error (.label e)
  else
    match word (String.ofList (c :: rest.takeWhile (!isDelimiter ·))) with
    | .ok kind => .ok (some kind, rest.dropWhile (!isDelimiter ·))
    | .error e => .error (.grammar e)

theorem length_of_scanNumber {source left : List Char} {value : Int64}
    (h : scanNumber source = .ok (value, left)) : left.length ≤ source.length := by
  unfold scanNumber at h
  split at h
  · rename_i rest
    cases hn : number true (rest.takeWhile Char.isDigit) with
    | error e => rw [hn] at h; cases h
    | ok v =>
      rw [hn] at h
      cases h
      exact Nat.le_succ_of_le (List.dropWhile_sublist _).length_le
  · cases hn : number false (source.takeWhile Char.isDigit) with
    | error e => rw [hn] at h; cases h
    | ok v =>
      rw [hn] at h
      cases h
      exact (List.dropWhile_sublist _).length_le

/-- **A lexeme never gives characters back.** -/
theorem length_of_lexeme {operand : Bool} {c : Char} {rest left : List Char}
    {kind : Option TokenKind} (h : lexeme operand c rest = .ok (kind, left)) :
    left.length ≤ rest.length := by
  unfold lexeme at h
  split at h
  · cases h; exact Nat.le_refl _
  split at h
  · cases h; exact Nat.le_refl _
  split at h
  · cases h; exact (List.dropWhile_sublist _).length_le
  split at h
  · cases h; exact Nat.le_refl _
  split at h
  · split at h
    · cases h; exact length_of_scanNumber ‹_›
    · cases h
  split at h
  · split at h
    · cases h; exact (List.dropWhile_sublist _).length_le
    · cases h
  · split at h
    · cases h; exact (List.dropWhile_sublist _).length_le
    · cases h

/-! ## §5. The whole source. -/

/-- The tokens of the rest of a source, behind those already read (`done`, latest first), where
`line` is the current line and `operand` says whether the latest token is a mnemonic. -/
def scanFrom (line : Nat) (operand : Bool) (done : List Token) :
    List Char → Except AssemblyError (List Token)
  | [] => .ok done.reverse
  | c :: rest =>
    match _ : lexeme operand c rest with
    -- blanks and comments change neither the line nor what the latest token is
    | .ok (none, left) => scanFrom line operand done left
    | .ok (some kind, left) =>
      scanFrom (if kind = .newline then line + 1 else line) kind.isMnemonic (⟨kind, line⟩ :: done)
        left
    | .error e => .error (.source line e)
termination_by source => source.length
decreasing_by
  all_goals
    have := length_of_lexeme ‹_›
    simp only [List.length_cons]
    omega

/-- The tokens of a source text. -/
def scan (source : String) : Except AssemblyError (List Token) :=
  scanFrom 1 false [] source.toList

end ByteMachine.Assembly
