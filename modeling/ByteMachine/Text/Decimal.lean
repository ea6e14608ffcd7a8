/-
  ByteMachine.Text.Decimal — integers in decimal, and the reading of their digits.

  The written form has no leading zero and no plus sign; the reading accepts any run of ASCII
  digits.

  Main statements: `ofDigits_digits` — the digits of a number denote it — and `decimal_inj` —
  different numbers are written differently.
-/

namespace ByteMachine.Text.Decimal

/-- The decimal digits of a natural number, without leading zeros. -/
def digits (n : Nat) : List Char := Nat.toDigits 10 n

/-- The number denoted by a run of decimal digits, of any length. -/
def ofDigits (ds : List Char) : Nat := Nat.ofDigitChars 10 ds 0

@[simp] theorem ofDigits_digits (n : Nat) : ofDigits (digits n) = n :=
  Nat.ofDigitChars_toDigits (by decide) (by decide)

/-- The number spelled by an optional plus sign and at least one digit. -/
def natural? : List Char → Option Nat
  | '+' :: ds => unsigned? ds
  | ds => unsigned? ds
where
  /-- The number spelled by digits alone. -/
  unsigned? (ds : List Char) : Option Nat :=
    if !ds.isEmpty && ds.all Char.isDigit then some (ofDigits ds) else none

/-- An integer in decimal: a minus sign if it is negative, then the digits of its magnitude. -/
def spell (v : Int) : List Char :=
  if v < 0 then '-' :: digits v.natAbs else digits v.natAbs

/-- A number is spelled in one way, which is its own. -/
theorem spell_injective {a b : Int} (h : spell a = spell b) : a = b := by
  -- digits denote the magnitude, and a minus sign is no digit
  have hdigits : ∀ {m n : Nat}, digits m = digits n → m = n := fun {m n} h => by
    rw [← ofDigits_digits m, h, ofDigits_digits]
  have hminus : ∀ {m n : Nat}, '-' :: digits m ≠ digits n := fun {m n} h => by
    have hmem : '-' ∈ digits n := h ▸ List.mem_cons_self
    exact absurd (Nat.isDigit_of_mem_toDigits (by decide) (by decide) hmem) (by decide)
  unfold spell at h
  by_cases ha : a < 0
  · by_cases hb : b < 0
    · rw [if_pos ha, if_pos hb] at h
      have := hdigits (List.cons.inj h).2
      omega
    · rw [if_pos ha, if_neg hb] at h
      exact absurd h hminus
  · by_cases hb : b < 0
    · rw [if_neg ha, if_pos hb] at h
      exact absurd h.symm hminus
    · rw [if_neg ha, if_neg hb] at h
      have := hdigits h
      omega

end ByteMachine.Text.Decimal

namespace ByteMachine.Text

/-- An integer in decimal. -/
def decimal (v : Int) : String := String.ofList (Decimal.spell v)

/-- Different numbers are written differently. -/
theorem decimal_inj {a b : Int} : decimal a = decimal b ↔ a = b := by
  refine ⟨fun h => Decimal.spell_injective ?_, congrArg decimal⟩
  have hlist := congrArg String.toList h
  rwa [decimal, decimal, String.toList_ofList, String.toList_ofList] at hlist

end ByteMachine.Text
