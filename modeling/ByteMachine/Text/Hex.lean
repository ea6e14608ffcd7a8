/-
  ByteMachine.Text.Hex — hexadecimal numbers in the forms the machine's texts use.

  Digits are lower case, padded with zeros to a least width and never cut.
-/

namespace ByteMachine.Text

/-- `n` in lower-case hexadecimal, padded with zeros to at least `width` digits. -/
def hex (width n : Nat) : String :=
  let digits := Nat.toDigits 16 n
  String.ofList (List.replicate (width - digits.length) '0' ++ digits)

/-- `n` as `0x` followed by at least `width` hexadecimal digits. -/
def hexPrefixed (width n : Nat) : String := "0x" ++ hex width n

/-- A byte as two hexadecimal digits. -/
def hexByte (byte : UInt8) : String := hex 2 byte.toNat

end ByteMachine.Text
