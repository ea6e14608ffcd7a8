/-
  ByteMachine.CommandLine.Assembler — the program that makes an image of a source file.

  The image is shown in rows of hexadecimal bytes, or stored in a file; on request the tree of
  the source is shown first.  A file is stored only when there is an image, so a source that
  cannot be assembled leaves every file as it was.
-/
import ByteMachine.Assembly.Trail
import ByteMachine.Assembly.Tree.Outline
import ByteMachine.CommandLine.Report

namespace ByteMachine.CommandLine.Assembler

open Log (Entry Level)
open Assembly

/-! ## §1. Options. -/

/-- What a command line has set so far. -/
structure Settings where
  source : Option String := none
  output : Option String := none
  dumpTree : Bool := false
  level : Option Level := none

/-- What a whole command line asks for. -/
structure Options where
  source : String
  output : Option String := none
  dumpTree : Bool := false
  level : Level := defaultLevel
  deriving DecidableEq, Repr

/-- The option that names the file for the image. -/
def outputOption : OptionSpec Settings where
  letter := some 'o'
  long := "output"
  help := "Write the raw bytecode here instead of printing it as hex"
  action := .valued "OUTPUT" fun value s => do
    return { s with output := ← once "--output" s.output (← path "--output" value) }

/-- The command line of the assembler. -/
def grammar : Grammar Settings where
  program := "octet-as"
  operand := "SOURCE"
  setOperand word s := return { s with source := some (← onlyPath "SOURCE" word s.source) }
  options :=
    [outputOption,
      switchOption "dump-ast" "Print the syntax tree before assembling" (·.dumpTree)
        ({ · with dumpTree := true }),
      levelOption (·.level) ({ · with level := · })]

/-- The options that a command line asks for. -/
def Options.ofArguments (arguments : List String) : Except Stop Options :=
  match grammar.read {} arguments with
  | .error stop => .error stop
  | .ok s =>
    match s.source with
    | none => .error (.usage (.missingOperand grammar.operand))
    | some source => .ok ⟨source, s.output, s.dumpTree, s.level.getD defaultLevel⟩

/-! ## §2. Showing an image. -/

/-- The number of bytes in a row. -/
def rowSize : Nat := 16

/-- The rows of bytes from an offset on. -/
def rows (offset : Nat) (bytes : List UInt8) : String :=
  match bytes with
  | [] => ""
  | byte :: rest =>
    let row := (byte :: rest).take rowSize
    s!"{Text.hex 8 offset}: " ++ " ".intercalate (row.map Text.hexByte) ++ "\n" ++
      rows (offset + rowSize) (rest.drop (rowSize - 1))
termination_by bytes.length
decreasing_by simp only [List.length_drop, List.length_cons]; omega

/-- An image in rows of hexadecimal bytes. -/
def hexDump (image : Image) : String := rows 0 image.toList

/-! ## §3. The work. -/

/-- A complaint of the assembler. -/
def complaint (message : String) : Entry := ⟨.error, .assembler, message, []⟩

/-- A path as a complaint mentions it. -/
def mentioned (path : String) : String := "\"" ++ path ++ "\""

/-- The complaint about a source that cannot be read. -/
def unreadable (o : Options) (e : FileError) : Entry :=
  complaint s!"Failed to read {mentioned o.source}: {e.message}"

/-- The complaint about a source that cannot be assembled. -/
def faulty (o : Options) (e : Assembly.AssemblyError) : Entry :=
  complaint s!"{o.source}: {e.message}"

/-- The complaint about an image that cannot be stored. -/
def unwritable (path : String) (e : FileError) : Entry :=
  complaint s!"Failed to write {mentioned path}: {e.message}"

/-- The report on assembling a source behind what was told and shown before, and the image. -/
def assembleBehind (o : Options) (source shown : String) (told : List Entry) :
    Report × Option Image :=
  let lines := (told ++ Trail.ofAssembling source).map Line.entry
  match Assembly.assemble source with
  | .ok image => ({ output := shown, lines }, some image)
  | .error e => (.failure shown lines (faulty o e), none)

/-- The report on a source, and its image if there is one. -/
def report (o : Options) (source : String) : Report × Option Image :=
  if o.dumpTree then
    match Tree.ofSource source with
    | .ok tree => assembleBehind o source (tree.outline.text ++ "\n") (Trail.ofReading source)
    | .error e => (.failure "" ((Trail.ofReading source).map .entry) (faulty o e), none)
  else assembleBehind o source "" []

variable {m : Type → Type} [Monad m] (files : Files m)

/-- Stores or shows the image of a report. -/
def deliver (o : Options) (image : Image) (r : Report) : m Report :=
  match o.output with
  | none => return { r with output := r.output ++ hexDump image }
  | some path => do
    match ← files.write path image with
    | .ok () => return r
    | .error e => return .failure r.output r.lines (unwritable path e)

/-- The work that the options ask for. -/
def work (o : Options) : m Report := do
  match (← files.look o.source) >>= Place.text with
  | .error e => return .failure "" [] (unreadable o e)
  | .ok source =>
    match report o source with
    | (r, some image) => deliver files o image r
    | (r, none) => return r

end Assembler

/-- **The assembler**, run in a directory. -/
def assembler (directory : Directory) (arguments : List String) : Outcome :=
  match Assembler.Options.ofArguments arguments with
  | .error stop => Assembler.grammar.stopped stop directory
  | .ok o =>
    let (report, after) := (Assembler.work .inDirectory o).run directory
    report.outcome o.level after

end ByteMachine.CommandLine
