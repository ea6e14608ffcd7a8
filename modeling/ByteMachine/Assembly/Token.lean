/-
  ByteMachine.Assembly.Token — the words of assembler source.

  A token remembers the line on which it stands.  Registers, numbers and labels are already
  values; a mnemonic keeps its text, and a label's name has lost its `@` and its colon.
-/
import ByteMachine.Register

namespace ByteMachine.Assembly

/-- What a token says. -/
inductive TokenKind where
  | mnemonic (text : String)
  | register (reg : Register)
  | number (value : Int64)
  | label (name : String)
  | comma
  | newline
  deriving DecidableEq, Repr

/-- A token and its line, counted from one. -/
structure Token where
  kind : TokenKind
  line : Nat
  deriving DecidableEq, Repr

/-- Whether the token is a mnemonic. -/
def TokenKind.isMnemonic : TokenKind → Bool
  | .mnemonic _ => true
  | _ => false

end ByteMachine.Assembly
