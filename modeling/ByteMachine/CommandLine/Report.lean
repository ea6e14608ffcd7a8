/-
  ByteMachine.CommandLine.Report — what a program leaves behind when it ends.

  Programs give their exit status, their output, and the lines about their work.  A line is a log
  entry, which the chosen threshold may hide, or a plain text, which is always shown.
-/
import ByteMachine.CommandLine.Arguments
import ByteMachine.CommandLine.Directory
import ByteMachine.Log

namespace ByteMachine.CommandLine

open Log (Entry Level)

/-! ## §1. Lines. -/

/-- A line about a program's work. -/
inductive Line where
  | entry (entry : Entry)
  | plain (text : String)
  deriving DecidableEq, Repr

/-- Whether a threshold shows the line. -/
def Line.shown (threshold : Level) : Line → Bool
  | .entry e => threshold.shows e.level
  | .plain _ => true

/-- The line as text. -/
def Line.text : Line → String
  | .entry e => e.text
  | .plain text => text

/-- The text of the lines that a threshold shows, each with its line end. -/
def shownLines (threshold : Level) (lines : List Line) : String :=
  String.join ((lines.filter (·.shown threshold)).map (·.text ++ "\n"))

/-! ## §2. Reports. -/

/-- The exit status, the output, and the lines about the work. -/
structure Report where
  status : Nat := 0
  output : String := ""
  lines : List Line := []
  deriving DecidableEq, Repr

/-- The exit status of a program whose work failed. -/
def failed : Nat := 1

/-- The exit status of a program whose command line could not be read. -/
def misused : Nat := 2

/-- A report that something failed, behind the lines told before. -/
def Report.failure (output : String) (lines : List Line) (complaint : Entry) : Report :=
  ⟨failed, output, lines ++ [.entry complaint]⟩

/-! ## §3. Outcomes. -/

/-- All that can be seen of a program's run: its status, its output, its lines as text, and the
files as it leaves them. -/
structure Outcome where
  status : Nat
  output : String
  lines : String
  directory : Directory

/-- The outcome of a report under a threshold. -/
def Report.outcome (r : Report) (threshold : Level) (directory : Directory) : Outcome :=
  ⟨r.status, r.output, shownLines threshold r.lines, directory⟩

/-- The version of the programs. -/
def version : String := "0.1.0"

/-- The outcome of a command line that ends before the program's own work. -/
def Grammar.stopped {σ : Type} (g : Grammar σ) (stop : Stop) (directory : Directory) : Outcome :=
  match stop with
  | .usage e => ⟨misused, "", g.complaint e, directory⟩
  | .help => ⟨0, g.help, "", directory⟩
  | .version => ⟨0, s!"{g.program} {version}\n", "", directory⟩

/-! ## §4. The files around a program. -/

/-- What a program does with files: it looks at a path, and writes bytes to one. -/
structure Files (m : Type → Type) where
  look : String → m (Except FileError Place)
  write : String → Image → m (Except FileError Unit)

/-- The files of a directory, which a write may change. -/
def Files.inDirectory : Files (StateM Directory) where
  look path := fun d => (d.look path, d)
  write path bytes := fun d =>
    match d.write path bytes with
    | .ok after => (.ok (), after)
    | .error e => (.error e, d)

/-! ## §5. Settings that both programs have. -/

/-- The threshold unless another is chosen. -/
def defaultLevel : Level := .warn

/-- The option that chooses the threshold. -/
def levelOption {σ : Type} (get : σ → Option Level) (set : σ → Option Level → σ) :
    OptionSpec σ where
  letter := some 'l'
  long := "log-level"
  help := s!"[default: {defaultLevel.name}]"
  action := .valued "LOG_LEVEL" fun value s => do
    let level ← readValue Level.ofText? "--log-level" value
    return set s (← once "--log-level" (get s) level)

/-- An option without a value that may be given once. -/
def switchOption {σ : Type} (long help : String) (get : σ → Bool) (set : σ → σ) :
    OptionSpec σ where
  letter := none
  long := long
  help := help
  action := .switch fun s => if get s then .error (.repeated ("--" ++ long)) else .ok (set s)

/-- Takes the one operand, a path; a second one is refused. -/
def onlyPath (operand word : String) : Option String → Except UsageError String
  | none => path operand word
  | some _ => .error (.unknownArgument word)

end ByteMachine.CommandLine
