/-
  ByteMachine.Assembly.Error — everything that can be wrong with a source or a tree.

  Causes are data; their wording stands in one `message` function per type.  A fault of the source
  carries its line, counted from one.
-/
import ByteMachine.Assembly.Tree

namespace ByteMachine.Assembly

/-! ## §1. Faults of the source. -/

/-- A badly written label. -/
inductive LabelError where
  | whitespace
  | missingColon (name : String)
  | empty
  deriving DecidableEq, Repr

/-- A badly written number or word, or words that form no instruction. -/
inductive SyntaxError where
  | missingNumber
  | missingDigit
  | numberOutOfRange (literal : String)
  | invalidLexeme (lexeme : String)
  | missingMnemonic
  | unknownInstruction
  | missingComma (mnemonic : String)
  | expectedRegisterOrNumber (mnemonic : String)
  | expectedRegister (mnemonic : String)
  | expectedLabel (mnemonic : String)
  | numberDestination (mnemonic : String)
  | invalidOperands (mnemonic : String)
  deriving DecidableEq, Repr

/-- A fault that belongs to a line of the source. -/
inductive SourceError where
  | label (cause : LabelError)
  | grammar (cause : SyntaxError)
  deriving DecidableEq, Repr

/-! ## §2. Faults of a tree. -/

/-- A tree from which no image can be made; no tree read from source is at fault in this way. -/
inductive TreeError where
  | notRoot (kind : Tree.Kind)
  | unexpectedRootChild (kind : Tree.Kind)
  | missingMnemonic
  | expectedJumpLabel (mnemonic : String)
  | malformedInstruction (mnemonic : String)
  deriving DecidableEq, Repr

/-- Why assembling failed. -/
inductive AssemblyError where
  | source (line : Nat) (cause : SourceError)
  | tree (cause : TreeError)
  | undefinedLabel (name : String)
  deriving DecidableEq, Repr

/-! ## §3. Wording. -/

/-- The wording of a label fault. -/
def LabelError.message : LabelError → String
  | .whitespace => "Label name cannot contain whitespace characters."
  | .missingColon name => s!"Label name '{name}' must end with a colon."
  | .empty => "Label name cannot be empty."

/-- The wording of a syntax fault. -/
def SyntaxError.message : SyntaxError → String
  | .missingNumber => "'#' must be followed by a number (either positive or negative)."
  | .missingDigit => "'-' must be followed by a decimal digit."
  | .numberOutOfRange literal => s!"Numeric constant '{literal}' is out of range."
  | .invalidLexeme lexeme =>
    s!"Current lexeme '{lexeme}' is not a valid register or instruction."
  | .missingMnemonic => "Instruction line must be prefixed by valid mnemonic."
  | .unknownInstruction => "Unknown instruction."
  | .missingComma mnemonic => s!"'{mnemonic}' operands must be separated by a comma."
  | .expectedRegisterOrNumber mnemonic =>
    s!"'{mnemonic}' instruction must be followed by register name or number."
  | .expectedRegister mnemonic =>
    s!"'{mnemonic}' instruction must be followed by register name."
  | .expectedLabel mnemonic => s!"'{mnemonic}' instruction must be followed by label name."
  | .numberDestination mnemonic =>
    s!"Number cannot be placed in second operand when its mnemonic is '{mnemonic}'."
  | .invalidOperands mnemonic =>
    s!"First operand of '{mnemonic}' must be register or numeric constant, " ++
      "and second operand must be register."

/-- The wording of a tree fault. -/
def TreeError.message : TreeError → String
  | .notRoot kind => s!"expected a root node, found {kind.text}"
  | .unexpectedRootChild kind =>
    s!"root node may only contain labels and instruction lines, found {kind.text}"
  | .missingMnemonic => "instruction line must start with a mnemonic"
  | .expectedJumpLabel mnemonic =>
    s!"jump-related instruction '{mnemonic}' must be followed by label name"
  | .malformedInstruction mnemonic => s!"operands do not match instruction '{mnemonic}'"

/-- The wording of an assembly failure. -/
def AssemblyError.message : AssemblyError → String
  | .source line (.label cause) => s!"lex error on line {line}: {cause.message}"
  | .source line (.grammar cause) => s!"syntax error on line {line}: {cause.message}"
  | .tree cause => s!"malformed syntax tree: {cause.message}"
  | .undefinedLabel name => s!"Jump target '{name}' is not a defined label."

end ByteMachine.Assembly
