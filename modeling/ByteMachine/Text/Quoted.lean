/-
  ByteMachine.Text.Quoted — text in double quotes.

  The quote and the backslash are written behind a backslash, four control characters by a letter
  of their own, and every other character without a glyph by its code point.
-/
import ByteMachine.Text.Glyph
import ByteMachine.Text.Hex

namespace ByteMachine.Text

/-- A character by its code point. -/
def codePoint (c : Char) : String := "\\u\x7b" ++ hex 1 c.toNat ++ "\x7d"

/-- A character as it stands between quotes. -/
def quotedChar (c : Char) : String :=
  match c with
  | '\x00' => "\\0"
  | '\t' => "\\t"
  | '\r' => "\\r"
  | '\n' => "\\n"
  | '\\' => "\\\\"
  | '"' => "\\\""
  | _ => if hasGlyph c then String.singleton c else codePoint c

/-- A text between quotes. -/
def quoted (text : String) : String := "\"" ++ String.join (text.toList.map quotedChar) ++ "\""

end ByteMachine.Text
