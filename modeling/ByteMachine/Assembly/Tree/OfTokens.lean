/-
  ByteMachine.Assembly.Tree.OfTokens — from tokens to the tree of a source.

  Line ends cut the tokens into lines.  A line is a run of label definitions followed by nothing
  or by one instruction, which takes everything up to the end of the line.  The first line that is
  at fault decides the answer; its fault is reported on the line of the token that stands where
  the instruction should start.
-/
import ByteMachine.Assembly.Error
import ByteMachine.Assembly.Token
import ByteMachine.Assembly.Token.Scan
import ByteMachine.Operation
import ByteMachine.Segments

namespace ByteMachine.Assembly

/-! ## §1. Lines of tokens. -/

/-- The tokens between line ends, in order; there is one more line than line ends. -/
def tokenLines (tokens : List Token) : List (List Token) :=
  segments (·.kind == .newline) tokens

/-! ## §2. Operands. -/

/-- The operand of a mnemonic that takes one. -/
def unaryOperand (mnemonic : String) (operand : TokenKind) : Except SyntaxError Tree :=
  match UnaryOp.ofMnemonic? mnemonic, JumpCondition.ofMnemonic? mnemonic, operand with
  | some _, _, .register reg => .ok (.register reg)
  | some .print, _, .number value => .ok (.integer value)
  | some .print, _, _ => .error (.expectedRegisterOrNumber mnemonic)
  | some _, _, _ => .error (.expectedRegister mnemonic)
  | none, some _, .label name => .ok (.label name)
  | none, some _, _ => .error (.expectedLabel mnemonic)
  | none, none, _ => .error .unknownInstruction

/-- The two operands of a mnemonic that takes two, with what stands between them. -/
def binaryOperands (mnemonic : String) (src separator dst : TokenKind) :
    Except SyntaxError (List Tree) :=
  if (AluOp.ofMnemonic? mnemonic).isNone && (BitwiseOp.ofMnemonic? mnemonic).isNone then
    .error .unknownInstruction
  else if separator ≠ .comma then .error (.missingComma mnemonic)
  else
    match src, dst with
    | _, .number _ => .error (.numberDestination mnemonic)
    | .register s, .register d => .ok [.register s, .register d]
    | .number v, .register d => .ok [.integer v, .register d]
    | _, _ => .error (.invalidOperands mnemonic)

/-- The operand nodes of a mnemonic.  Which check applies is decided by the number of tokens that
follow it, any comma included. -/
def operands (mnemonic : String) : List TokenKind → Except SyntaxError (List Tree)
  | [] => if mnemonic = haltMnemonic then .ok [] else .error .unknownInstruction
  | [operand] => return [← unaryOperand mnemonic operand]
  | [src, separator, dst] => binaryOperands mnemonic src separator dst
  | _ => .error .unknownInstruction

/-! ## §3. Lines and trees. -/

/-- The nodes of a line: its label definitions, and its instruction if it has one. -/
def lineNodes : List Token → Except AssemblyError (List Tree)
  | [] => .ok []
  | token :: rest =>
    match token.kind with
    | .label name => return .label name :: (← lineNodes rest)
    | .mnemonic text =>
      match operands text (rest.map (·.kind)) with
      | .ok nodes => .ok [.line (.mnemonic text :: nodes)]
      | .error e => .error (.source token.line (.grammar e))
    | _ => .error (.source token.line (.grammar .missingMnemonic))

namespace Tree

/-- The tree of a list of tokens. -/
def ofTokens (tokens : List Token) : Except AssemblyError Tree :=
  return .root (← (tokenLines tokens).mapM lineNodes).flatten

/-- The tree of a source text. -/
def ofSource (source : String) : Except AssemblyError Tree := do
  ofTokens (← scan source)

end Tree

end ByteMachine.Assembly
