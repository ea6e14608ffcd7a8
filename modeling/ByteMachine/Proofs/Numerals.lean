/-
  ByteMachine.Proofs.Numerals — numbers of any length, and the 64 bits they have to fit into.

  `number` reads the digits as a number without bounds and then asks whether it fits.  A reader
  that has 64 bits only multiplies by ten and adds a digit, for each of the digits, and gives up at
  the first result that does not fit.  The two agree, for a number that has grown too large does
  not get smaller with more digits, and leading zeros leave it zero.  Where a literal ends and the
  next token starts is a matter of its digits alone:

    • `Decimal.ofDigits_eq_value` — what digits denote, each by the place it stands in,
    • `Checked.push_iff`, `Checked.parse_iff` — a digit more, and all the digits, in 64 bits,
    • `number_eq_parse` — so a literal is read as with 64 bits only,
    • `Arrives` — the places at which the scan of a source starts a token,
    • `numerals_are_read_exactly` — at any of them a literal is read as the number it denotes, or
      it is reported as it is spelled.
-/
import Mathlib
import ByteMachine.Proofs.Spelling

namespace ByteMachine

/-! ## §1. What digits denote. -/

namespace Text.Decimal

/-- The number below ten that a digit stands for. -/
def digit (c : Char) : Nat := c.toNat - '0'.toNat

/-- The number that digits denote: each counts as a power of ten, as many digits follow it. -/
def value : List Char → Nat
  | [] => 0
  | c :: rest => digit c * 10 ^ rest.length + value rest

/-- A digit is the last of those before it, or the first of those behind it. -/
theorem value_behind (before : Nat) (c : Char) (rest : List Char) :
    before * 10 ^ (c :: rest).length + value (c :: rest)
      = (before * 10 + digit c) * 10 ^ rest.length + value rest := by
  rw [value, List.length_cons, Nat.pow_succ, Nat.add_mul, Nat.add_assoc, Nat.mul_assoc before 10,
    Nat.mul_comm 10]

/-- Reading digits from the left gives each of them the value of its place. -/
theorem ofDigitChars_eq_value (ds : List Char) : ∀ before : Nat,
    Nat.ofDigitChars 10 ds before = before * 10 ^ ds.length + value ds := by
  induction ds with
  | nil =>
    intro before
    rw [Nat.ofDigitChars_nil]
    exact (Nat.mul_one before).symm
  | cons c rest ih =>
    intro before
    rw [Nat.ofDigitChars_cons, ih, value_behind, Nat.mul_comm 10]
    rfl

theorem ofDigits_eq_value (ds : List Char) : ofDigits ds = value ds := by
  rw [ofDigits, ofDigitChars_eq_value, Nat.zero_mul, Nat.zero_add]

/-- A number with a sign. -/
def signed (negative : Bool) (magnitude : Nat) : Int :=
  if negative then -(magnitude : Int) else magnitude

/-- The integer that a literal denotes. -/
def denoted (negative : Bool) (ds : List Char) : Int := signed negative (value ds)

end Text.Decimal

namespace Assembly

open Text.Decimal (digit value value_behind signed denoted)

/-- There is a 64-bit integer of this value. -/
def Fits (v : Int) : Prop := -2 ^ 63 ≤ v ∧ v ≤ 2 ^ 63 - 1

theorem fits_iff {v : Int} : Fits v ↔ ∃ n : Int64, n.toInt = v := by
  constructor
  · rintro ⟨hmin, hmax⟩
    exact ⟨.ofInt v, Int64.toInt_ofInt_of_le hmin (by omega)⟩
  · rintro ⟨n, rfl⟩
    exact ⟨n.minValue_le_toInt, n.toInt_le⟩

/-- A number between zero and one that fits, fits. -/
theorem Fits.smaller {negative : Bool} {a b : Nat} (h : Fits (signed negative b)) (hle : a ≤ b) :
    Fits (signed negative a) := by
  unfold Fits signed at *
  cases negative <;> simp only [Bool.false_eq_true, if_true, if_false] at * <;> omega

/-! ## §2. Reading in 64 bits. -/

namespace Checked

/-- The 64-bit integer of this value, if there is one. -/
def narrow (v : Int) : Option Int64 :=
  if Int64.minValue.toInt ≤ v ∧ v ≤ Int64.maxValue.toInt then some (.ofInt v) else none

/-- One digit behind those that make up `n`.  Both the multiplication and the addition, which is a
subtraction for a negative number, are checked. -/
def push (negative : Bool) (n : Int64) (c : Char) : Option Int64 :=
  (narrow (n.toInt * 10)).bind fun tens =>
    narrow (if negative then tens.toInt - digit c else tens.toInt + digit c)

/-- All the digits, one behind the other. -/
def parse (negative : Bool) (ds : List Char) : Option Int64 := ds.foldlM (push negative) 0

theorem narrow_iff {v : Int} {n : Int64} : narrow v = some n ↔ n.toInt = v := by
  unfold narrow
  split
  · rename_i h
    have hv : (Int64.ofInt v).toInt = v := Int64.toInt_ofInt_of_le h.1 (Int.lt_of_le_sub_one h.2)
    rw [Option.some.injEq, ← Int64.toInt_inj, hv, eq_comm]
  · rename_i h
    refine ⟨(nomatch ·), ?_⟩
    rintro rfl
    exact absurd ⟨n.minValue_le_toInt, n.toInt_le⟩ h

/-- **One digit more**: the result is the number with the digit behind it, if that fits. -/
theorem push_iff {negative : Bool} {n m : Int64} {a : Nat} {c : Char}
    (hn : n.toInt = signed negative a) :
    push negative n c = some m ↔ m.toInt = signed negative (a * 10 + digit c) := by
  have htens : n.toInt * 10 = signed negative (a * 10) := by
    rw [hn]
    cases negative
    · show (a : Int) * 10 = ((a * 10 : Nat) : Int)
      omega
    · show -(a : Int) * 10 = -((a * 10 : Nat) : Int)
      omega
  have hdigit : ∀ tens : Int64, tens.toInt = signed negative (a * 10) →
      (if negative then tens.toInt - digit c else tens.toInt + digit c)
        = signed negative (a * 10 + digit c) := by
    intro tens h
    rw [h]
    cases negative
    · show ((a * 10 : Nat) : Int) + digit c = ((a * 10 + digit c : Nat) : Int)
      omega
    · show -((a * 10 : Nat) : Int) - digit c = -((a * 10 + digit c : Nat) : Int)
      omega
  unfold push
  rw [htens, Option.bind_eq_some_iff]
  constructor
  · rintro ⟨tens, htens, hm⟩
    rw [hdigit tens (narrow_iff.mp htens)] at hm
    exact narrow_iff.mp hm
  · intro hm
    -- the number without the digit is nearer to zero, so the multiplication did not overflow
    obtain ⟨tens, htens⟩ := fits_iff.mp (Fits.smaller (fits_iff.mpr ⟨m, hm⟩) (Nat.le_add_right ..))
    exact ⟨tens, narrow_iff.mpr htens, by rw [hdigit tens htens]; exact narrow_iff.mpr hm⟩

/-- **Many digits more**: no result on the way fails to fit if the last one fits. -/
theorem foldlM_push_iff {negative : Bool} (ds : List Char) : ∀ {n m : Int64} {a : Nat},
    n.toInt = signed negative a → (ds.foldlM (push negative) n = some m
      ↔ m.toInt = signed negative (a * 10 ^ ds.length + value ds)) := by
  -- induction on the digits that are still to come, from any number that was read before them
  induction ds with
  | nil =>
    intro n m a hn
    show some n = some m ↔ m.toInt = signed negative (a * 1 + 0)
    rw [Option.some.injEq, Nat.mul_one, Nat.add_zero, ← hn, Int64.toInt_inj, eq_comm]
  | cons c rest ih =>
    intro n m a hn
    rw [List.foldlM_cons, value_behind]
    cases hpush : push negative n c with
    | some next => exact ih ((push_iff hn).mp hpush)
    | none =>
      refine ⟨(nomatch ·), fun hm => ?_⟩
      -- with fewer digits the number is nearer to zero
      have hle : a * 10 + digit c ≤ (a * 10 + digit c) * 10 ^ rest.length + value rest :=
        Nat.le_add_right_of_le (Nat.le_mul_of_pos_right _ (Nat.pow_pos (by decide)))
      obtain ⟨next, hnext⟩ := fits_iff.mp (Fits.smaller (fits_iff.mpr ⟨m, hm⟩) hle)
      rw [(push_iff hn).mpr hnext] at hpush
      cases hpush

/-- **A literal is read in 64 bits exactly if what it denotes fits into them.** -/
theorem parse_iff {negative : Bool} {ds : List Char} {m : Int64} :
    parse negative ds = some m ↔ m.toInt = denoted negative ds := by
  have hzero : (0 : Int64).toInt = signed negative 0 := by cases negative <;> rfl
  unfold parse
  rw [foldlM_push_iff ds hzero, Nat.zero_mul, Nat.zero_add, denoted]

end Checked

/-- **`number` is the reading of digits in 64 bits**, with what went wrong where it fails. -/
theorem number_eq_parse {negative : Bool} {ds : List Char} (h : ds ≠ []) :
    number negative ds = (Checked.parse negative ds).elim
      (.error (.numberOutOfRange (String.ofList (literal negative ds)))) .ok := by
  have hdenoted : (if negative then -(Text.Decimal.ofDigits ds : Int)
      else Text.Decimal.ofDigits ds) = denoted negative ds := by
    rw [Text.Decimal.ofDigits_eq_value, denoted, signed]
  unfold number
  rw [if_neg (by simpa using h)]
  simp only [hdenoted]
  split
  · rename_i hfits
    obtain ⟨m, hm⟩ := fits_iff.mp (show Fits (denoted negative ds) from hfits)
    rw [Checked.parse_iff.mpr hm, ← hm, Int64.ofInt_toInt]
    rfl
  · rename_i hover
    have hnone : Checked.parse negative ds = none := by
      refine Option.eq_none_iff_forall_ne_some.mpr fun m hm => hover ?_
      exact fits_iff.mpr ⟨m, Checked.parse_iff.mp hm⟩
    rw [hnone]
    rfl

/-! ## §3. Where a token starts. -/

/-- The scan of a source comes to a place: on this line, with these tokens behind it (the latest
first), before this rest of the source.  `operand` says whether the latest token is a mnemonic. -/
inductive Arrives (source : String) : (line : Nat) → (operand : Bool) → (done : List Token) →
    (rest : List Char) → Prop where
  | start : Arrives source 1 false [] source.toList
  | skip {line : Nat} {operand : Bool} {done : List Token} {c : Char} {rest left : List Char}
      (before : Arrives source line operand done (c :: rest))
      (h : lexeme operand c rest = .ok (none, left)) : Arrives source line operand done left
  | token {line : Nat} {operand : Bool} {done : List Token} {c : Char} {rest left : List Char}
      {kind : TokenKind} (before : Arrives source line operand done (c :: rest))
      (h : lexeme operand c rest = .ok (some kind, left)) :
      Arrives source (if kind = .newline then line + 1 else line) kind.isMnemonic
        (⟨kind, line⟩ :: done) left

variable {source : String} {line : Nat} {operand : Bool} {done : List Token} {c : Char}
  {rest : List Char}

/-- What a source is scanned to is decided by the rest of it. -/
theorem Arrives.scan_eq (h : Arrives source line operand done rest) :
    scan source = scanFrom line operand done rest := by
  induction h with
  | start => rfl
  | skip _ h ih => rw [ih, scanFrom_skip h]
  | token _ h ih => rw [ih, scanFrom_token h]

/-- A lexeme that is wrong is what is wrong with the source. -/
theorem Arrives.scan_error (h : Arrives source line operand done (c :: rest)) {e : SourceError}
    (he : lexeme operand c rest = .error e) : scan source = .error (.source line e) := by
  rw [h.scan_eq, scanFrom_error he]

/-! ## §4. Literals. -/

/-- What is read behind a number sign. -/
theorem lexeme_number (operand : Bool) (source : List Char) :
    lexeme operand '#' source = match scanNumber source with
      | .ok (value, left) => .ok (some (.number value), left)
      | .error e => .error (.grammar e) := rfl

/-- A literal that has a digit is read as its number, if that fits, and the next token starts
behind its digits. -/
theorem lexeme_literal {negative : Bool} {digits : List Char} (operand : Bool)
    (hdigits : ∀ c ∈ digits, c.isDigit = true) (hstop : ∀ c ∈ rest.head?, c.isDigit = false)
    (hne : digits ≠ []) :
    lexeme operand '#' (literal negative digits ++ rest) = (Checked.parse negative digits).elim
      (.error (.grammar (.numberOutOfRange (String.ofList (literal negative digits)))))
      fun value => .ok (some (.number value), rest) := by
  rw [lexeme_number, scanNumber_literal hdigits hstop fun _ hnil => absurd hnil hne,
    number_eq_parse hne]
  cases Checked.parse negative digits <;> rfl

/-- **Numeric literals are read exactly.**  Wherever the scan of a source comes to a `#`, with or
without a minus sign, with any number of digits and then something else or nothing behind it: a
literal with a digit is read exactly if the integer it denotes fits into 64 bits.  What is read is
one token with this integer, and the scan goes on at the first character that is no digit.  What is
not read is reported as a number out of range, spelled as in the source.  Without a digit, one is
missed behind the minus sign, or a number where there is no minus sign either. -/
theorem numerals_are_read_exactly (source : String) (line : Nat) (operand : Bool)
    (done : List Token) (negative : Bool) (digits rest : List Char)
    (hat : Arrives source line operand done ('#' :: (literal negative digits ++ rest)))
    (hdigits : ∀ c ∈ digits, c.isDigit = true) (hstop : ∀ c ∈ rest.head?, c.isDigit = false) :
    let v := denoted negative digits
    let read := lexeme operand '#' (literal negative digits ++ rest)
    (digits ≠ [] →
      ((∃ token, read = .ok token) ↔ -2 ^ 63 ≤ v ∧ v ≤ 2 ^ 63 - 1) ∧
      (∀ kind left, read = .ok (kind, left) → left = rest ∧
        ∃ value : Int64, kind = some (.number value) ∧ value.toInt = v ∧
          Arrives source line false (⟨.number value, line⟩ :: done) rest ∧
          scan source = scanFrom line false (⟨.number value, line⟩ :: done) rest) ∧
      ∀ e, read = .error e →
        e = .grammar (.numberOutOfRange (String.ofList (literal negative digits))) ∧
        scan source = .error (.source line e)) ∧
    (digits = [] → negative = true → scan source = .error (.source line (.grammar .missingDigit))) ∧
    (digits = [] → negative = false → rest.head? ≠ some '-' →
      scan source = .error (.source line (.grammar .missingNumber))) := by
  intro v read
  refine ⟨fun hne => ?_, ?_, ?_⟩
  · have hread : read = _ := lexeme_literal operand hdigits hstop hne
    cases hparse : Checked.parse negative digits with
    | some value =>
      have hvalue := Checked.parse_iff.mp hparse
      rw [hparse] at hread
      change read = .ok (some (.number value), rest) at hread
      refine ⟨iff_of_true ⟨_, hread⟩ (fits_iff.mpr ⟨value, hvalue⟩), ?_, ?_⟩
      · intro kind left h
        cases hread.symm.trans h
        have hnext : Arrives source line false (⟨.number value, line⟩ :: done) rest :=
          .token hat hread
        exact ⟨rfl, value, rfl, hvalue, hnext, hnext.scan_eq⟩
      · intro e h
        cases hread.symm.trans h
    | none =>
      have hover : ¬ Fits v := fun hfits => by
        obtain ⟨value, hvalue⟩ := fits_iff.mp hfits
        rw [Checked.parse_iff.mpr hvalue] at hparse
        cases hparse
      rw [hparse] at hread
      change read = .error _ at hread
      refine ⟨iff_of_false ?_ hover, ?_, ?_⟩
      · rintro ⟨token, h⟩
        cases hread.symm.trans h
      · intro kind left h
        cases hread.symm.trans h
      · intro e h
        cases hread.symm.trans h
        exact ⟨rfl, hat.scan_error hread⟩
  · rintro rfl rfl
    refine hat.scan_error ?_
    rw [lexeme_number, scanNumber_literal hdigits hstop fun h => by cases h]
    rfl
  · rintro rfl rfl hminus
    refine hat.scan_error ?_
    rw [lexeme_number, scanNumber_literal hdigits hstop fun _ _ => hminus]
    rfl

/-- A register may follow a number at once, and a minus sign behind a number opens a word.  Leading
zeros make no number too large, and they are reported with the other digits. -/
theorem numerals_are_read_exactly_side_by_side :
    scan "#5r0" = .ok [⟨.number 5, 1⟩, ⟨.register .r0, 1⟩] ∧
      scan "#5-3" = .error (.source 1 (.grammar (.invalidLexeme "-3"))) ∧
      scan "#-0009223372036854775808" = .ok [⟨.number Int64.minValue, 1⟩] ∧
      scan "#0009223372036854775808"
        = .error (.source 1 (.grammar (.numberOutOfRange "0009223372036854775808"))) := by
  have hread : ∀ (source : String) (negative : Bool) (digits rest : List Char),
      source.toList = '#' :: (literal negative digits ++ rest) ∧
        digits.all Char.isDigit = true ∧ rest.head?.all (!Char.isDigit ·) = true ∧ digits ≠ [] →
      let v := signed negative (Text.Decimal.ofDigits digits)
      (∀ value : Int64, value.toInt = v →
        scan source = scanFrom 1 false [⟨.number value, 1⟩] rest) ∧
      (¬ Fits v → scan source = .error (.source 1 (.grammar
        (.numberOutOfRange (String.ofList (literal negative digits)))))) := by
    rintro source negative digits rest ⟨hsource, hdigits, hstop, hne⟩
    obtain ⟨h, -, -⟩ := numerals_are_read_exactly source 1 false [] negative digits rest
      (hsource ▸ .start) (List.all_eq_true.mp hdigits) fun c hc => by
        rw [hc, Option.all_some, Bool.not_eq_true'] at hstop
        exact hstop
    obtain ⟨hfits, hok, herror⟩ := h hne
    rw [denoted, ← Text.Decimal.ofDigits_eq_value] at hfits hok
    refine ⟨fun value hvalue => ?_, fun hover => ?_⟩
    · obtain ⟨⟨kind, left⟩, hread⟩ := hfits.mpr (fits_iff.mpr ⟨value, hvalue⟩)
      obtain ⟨-, n, -, hn, -, hscan⟩ := hok kind left hread
      rwa [Int64.toInt_inj.mp (hn.trans hvalue.symm)] at hscan
    · cases hread : lexeme false '#' (literal negative digits ++ rest) with
      | ok token => exact absurd (hfits.mp ⟨token, hread⟩) hover
      | error e =>
        obtain ⟨rfl, hscan⟩ := herror e hread
        exact hscan
  refine ⟨?_, ?_, ?_, ?_⟩
  · rw [(hread "#5r0" false ['5'] ['r', '0'] (by decide +kernel)).1 5 (by decide +kernel)]
    cbv
  · rw [(hread "#5-3" false ['5'] ['-', '3'] (by decide +kernel)).1 5 (by decide +kernel)]
    cbv
  · rw [(hread "#-0009223372036854775808" true "0009223372036854775808".toList []
      (by decide +kernel)).1 Int64.minValue (by decide +kernel)]
    exact scanFrom_nil
  · -- the number is one too large
    have hvalue : signed false (Text.Decimal.ofDigits "0009223372036854775808".toList)
        = 9223372036854775808 := by decide +kernel
    refine (hread "#0009223372036854775808" false "0009223372036854775808".toList []
      (by decide +kernel)).2 fun hfits => ?_
    unfold Fits at hfits
    omega

end Assembly

end ByteMachine
