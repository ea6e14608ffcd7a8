/-
  ByteMachine.CommandLine.Arguments — from the words of a command line to settings.

  Words are read from left to right and the first that asks to stop decides: a request for help or
  for the version as well as a word that cannot be read.  An option has a long name, perhaps a
  letter, and perhaps a value; letters may be run together, and a value may follow its option as
  a word of its own, behind an equals sign, or right behind the letter.  Each option and the
  operand may be given once.  Behind `--` every word is an operand.
-/

namespace ByteMachine.CommandLine

/-! ## §1. What can be wrong. -/

/-- Why a command line cannot be read. -/
inductive UsageError where
  | unknownArgument (argument : String)
  | missingValue (option : String)
  | unexpectedValue (option : String) (value : String)
  | invalidValue (option : String) (value : String)
  | repeated (option : String)
  | missingOperand (operand : String)
  deriving DecidableEq, Repr

/-- The wording of a usage error. -/
def UsageError.message : UsageError → String
  | .unknownArgument argument => s!"unexpected argument '{argument}' found"
  | .missingValue option => s!"a value is required for '{option}' but none was supplied"
  | .unexpectedValue option value =>
    s!"unexpected value '{value}' for '{option}' found; no more were expected"
  | .invalidValue option value => s!"invalid value '{value}' for '{option}'"
  | .repeated option => s!"the argument '{option}' cannot be used multiple times"
  | .missingOperand operand =>
    s!"the following required arguments were not provided:\n  <{operand}>"

/-- Why reading ended before the program's own work. -/
inductive Stop where
  | usage (cause : UsageError)
  | help
  | version
  deriving DecidableEq, Repr

/-! ## §2. What a program understands. -/

/-- What an option does to the settings. -/
inductive OptionAction (σ : Type) where
  | switch (apply : σ → Except UsageError σ)
  | valued (placeholder : String) (apply : String → σ → Except UsageError σ)
  | stop (reason : Stop)

/-- An option: its names, its line of help, and what it does. -/
structure OptionSpec (σ : Type) where
  letter : Option Char
  long : String
  help : String
  action : OptionAction σ

/-- The option's long name as it is written. -/
def OptionSpec.name {σ : Type} (spec : OptionSpec σ) : String := "--" ++ spec.long

/-- A program's command line: one operand and some options. -/
structure Grammar (σ : Type) where
  program : String
  operand : String
  setOperand : String → σ → Except UsageError σ
  options : List (OptionSpec σ)

/-- A setting that may be given once: refused if it is there already. -/
def once {α : Type} (option : String) (given : Option α) (value : α) :
    Except UsageError (Option α) :=
  match given with
  | none => .ok (some value)
  | some _ => .error (.repeated option)

/-- A path, which may not be empty. -/
def path (option value : String) : Except UsageError String :=
  if value.isEmpty then .error (.invalidValue option value) else .ok value

/-- A value read by `read?`. -/
def readValue {α : Type} (read? : String → Option α) (option value : String) :
    Except UsageError α :=
  match read? value with
  | some a => .ok a
  | none => .error (.invalidValue option value)

namespace Grammar

variable {σ : Type} (g : Grammar σ)

/-- The program's own options, and those that every program has. -/
def allOptions : List (OptionSpec σ) :=
  g.options ++
    [⟨some 'h', "help", "Print help", .stop .help⟩,
      ⟨some 'V', "version", "Print version", .stop .version⟩]

/-! ## §3. One word. -/

/-- Settings so far, and the option that still waits for its value, if one does. -/
abbrev Reading (σ : Type) := σ × Option (OptionSpec σ)

/-- An error of usage ends the reading. -/
def refuse {α : Type} : Except UsageError α → Except Stop α
  | .ok a => .ok a
  | .error e => .error (.usage e)

/-- Gives an option its value. -/
def giveValue (spec : OptionSpec σ) (value : String) (s : σ) : Except Stop σ :=
  match spec.action with
  | .switch _ => .error (.usage (.unexpectedValue spec.name value))
  | .valued _ apply => refuse (apply value s)
  | .stop _ => .error (.usage (.unexpectedValue spec.name value))

/-- Takes an option whose value, if it needs one, is still to come. -/
def take (spec : OptionSpec σ) (s : σ) : Except Stop (Reading σ) :=
  match spec.action with
  | .switch apply => (refuse (apply s)).map (·, none)
  | .valued _ _ => .ok (s, some spec)
  | .stop reason => .error reason

/-- Reads the word `--` followed by a name and perhaps by an equals sign and a value. -/
def readLong (s : σ) (body : List Char) : Except Stop (Reading σ) :=
  let name := String.ofList (body.takeWhile (· != '='))
  match g.allOptions.find? (·.long == name), body.dropWhile (· != '=') with
  | none, _ => .error (.usage (.unknownArgument ("--" ++ name)))
  | some spec, [] => take spec s
  | some spec, _ :: value => (giveValue spec (String.ofList value) s).map (·, none)

/-- Reads letters that are run together.  A letter whose option needs a value takes the rest of
the word, less an equals sign in front, unless nothing is left. -/
def readLetters (s : σ) : List Char → Except Stop (Reading σ)
  | [] => .ok (s, none)
  | c :: rest =>
    match g.allOptions.find? (·.letter == some c) with
    | none => .error (.usage (.unknownArgument ("-" ++ String.singleton c)))
    | some spec =>
      match take spec s, rest with
      | .error stop, _ => .error stop
      | .ok (s, none), _ => readLetters s rest
      -- nothing is left of this word, so the value is the next one
      | .ok (s, some spec), [] => .ok (s, some spec)
      | .ok (s, some spec), '=' :: value => (giveValue spec (String.ofList value) s).map (·, none)
      | .ok (s, some spec), value => (giveValue spec (String.ofList value) s).map (·, none)

/-- Reads one word other than `--`. -/
def readWord (s : σ) (word : String) : Except Stop (Reading σ) :=
  match word.toList with
  | '-' :: '-' :: body => g.readLong s body
  | '-' :: c :: rest => g.readLetters s (c :: rest)
  | _ => (refuse (g.setOperand word s)).map (·, none)

/-! ## §4. All words. -/

/-- Whether a word cannot be the value of the option before it, because it starts as an option
does.  A dash alone can. -/
def startsOption (word : String) : Bool :=
  match word.toList with
  | '-' :: _ :: _ => true
  | _ => false

/-- Reads words that are operands whatever they look like. -/
def readOperands (s : σ) : List String → Except Stop σ
  | [] => .ok s
  | word :: rest =>
    match refuse (g.setOperand word s) with
    | .ok s => readOperands s rest
    | .error stop => .error stop

/-- Reads the words of a command line. -/
def read (s : σ) : List String → Except Stop σ
  | [] => .ok s
  | word :: rest =>
    if word = "--" then g.readOperands s rest
    else
      match g.readWord s word, rest with
      | .error stop, _ => .error stop
      | .ok (s, none), rest => read s rest
      -- the option waits for a value: the next word, unless that starts an option itself
      | .ok (_, some spec), [] => .error (.usage (.missingValue spec.name))
      | .ok (s, some spec), value :: rest =>
        if startsOption value then .error (.usage (.missingValue spec.name))
        else
          match giveValue spec value s with
          | .ok s => read s rest
          | .error stop => .error stop

/-! ## §5. Help. -/

/-- How an option is written. -/
def synopsis (spec : OptionSpec σ) : String :=
  let letter := match spec.letter with
    | some c => s!"-{c}, "
    | none => "    "
  let value := match spec.action with
    | .valued placeholder _ => s!" <{placeholder}>"
    | _ => ""
  letter ++ spec.name ++ value

/-- A line of help, with what it says in a column behind the widest synopsis. -/
def helpLine (width : Nat) (spec : OptionSpec σ) : String :=
  let written := synopsis spec
  "  " ++ written ++ String.ofList (List.replicate (width - written.length) ' ') ++ "  " ++
    spec.help ++ "\n"

/-- The one line that says how the program is called. -/
def usage : String := s!"Usage: {g.program} [OPTIONS] <{g.operand}>\n"

/-- The program's help. -/
def help : String :=
  let width := (g.allOptions.map (synopsis · |>.length)).foldl max 0
  g.usage ++ s!"\nArguments:\n  <{g.operand}>  \n\nOptions:\n" ++
    String.join (g.allOptions.map (helpLine width))

/-- What a usage error shows. -/
def complaint (e : UsageError) : String :=
  s!"error: {e.message}\n\n{g.usage}\nFor more information, try '--help'.\n"

end Grammar

end ByteMachine.CommandLine
