/-
  ByteMachine.Log — what the programs tell about their work.

  An entry has a level, the component that speaks, a message and named values.  A threshold shows
  the entries that are at least as grave as itself.  A message may hold text from outside, so the
  control characters that steer a terminal are spelled out in it; the values stand as they are.
-/
import ByteMachine.Text.Decimal
import ByteMachine.Text.Hex

namespace ByteMachine.Log

/-! ## §1. Levels. -/

/-- How grave an entry is. -/
inductive Level where
  | error | warn | info | debug | trace
  deriving DecidableEq, Repr

namespace Level

/-- Every level, the gravest first. -/
def all : List Level := [.error, .warn, .info, .debug, .trace]

/-- The level's name. -/
def name : Level → String
  | .error => "ERROR"
  | .warn => "WARN"
  | .info => "INFO"
  | .debug => "DEBUG"
  | .trace => "TRACE"

/-- The level's number: one for the gravest. -/
def rank : Level → Nat
  | .error => 1
  | .warn => 2
  | .info => 3
  | .debug => 4
  | .trace => 5

/-- The level meant by a text: its number, or its name in letters of either case. -/
def ofText? (text : String) : Option Level :=
  match Text.Decimal.natural? text.toList with
  | some n => all.find? (·.rank == n)
  | none => all.find? fun level => level.name == text.map Char.toUpper

/-- Whether a threshold shows entries of a level. -/
def shows (threshold level : Level) : Bool := level.rank ≤ threshold.rank

@[simp] theorem ofText?_name (level : Level) : ofText? level.name = some level := by
  cases level <;> decide +kernel

end Level

/-! ## §2. Entries. -/

/-- The part of the tool chain that speaks. -/
inductive Component where
  | assembler | scanner | grammar | labels | layout | emulator | machine
  deriving DecidableEq, Repr

/-- The name under which a component speaks. -/
def Component.target : Component → String
  | .assembler => "octet_as"
  | .scanner => "octet_as::lexer"
  | .grammar => "octet_as::parser"
  | .labels => "octet_as::label"
  | .layout => "octet_as::codegen"
  | .emulator => "octet_emu"
  | .machine => "octet_emu::vm"

/-- A remark with the values it is about. -/
structure Entry where
  level : Level
  component : Component
  message : String
  values : List (String × String) := []
  deriving DecidableEq, Repr

/-- A character of a message; those that steer a terminal are spelled out. -/
def spelledChar (c : Char) : String :=
  match c with
  | '\x1b' => "\\x1b"
  | '\x07' => "\\x07"
  | '\x08' => "\\x08"
  | '\x0c' => "\\x0c"
  | '\x7f' => "\\x7f"
  | _ =>
    if 0x80 ≤ c.toNat ∧ c.toNat ≤ 0x9f then "\\u\x7b" ++ Text.hex 1 c.toNat ++ "\x7d"
    else String.singleton c

/-- A message as it is shown. -/
def spelled (message : String) : String := String.join (message.toList.map spelledChar)

/-- The line that shows an entry. -/
def Entry.text (e : Entry) : String :=
  s!"{e.level.name} {e.component.target}: {spelled e.message}" ++
    String.join (e.values.map fun (name, value) => s!" {name}={value}")

end ByteMachine.Log
