/-
  ByteMachine.CommandLine.Emulator — the program that runs an image.

  The image is a file, or is assembled from a source file.  The machine starts anew and runs until
  it stops, faults, or has taken the number of steps allowed; a machine cut short is mentioned, and
  only a fault makes the program fail.
-/
import ByteMachine.Assembly.Trail
import ByteMachine.CommandLine.Report
import ByteMachine.Machine.Narration

namespace ByteMachine.CommandLine.Emulator

open Log (Entry Level)
open Machine (Event Fault Run Session)

/-! ## §1. Options. -/

/-- What a command line has set so far. -/
structure Settings where
  image : Option String := none
  assemble : Bool := false
  echo : Bool := false
  limit : Option Nat := none
  level : Option Level := none

/-- What a whole command line asks for. -/
structure Options where
  image : String
  assemble : Bool := false
  echo : Bool := false
  limit : Option Nat := none
  level : Level := defaultLevel
  deriving DecidableEq, Repr

/-- A number of steps, as large as a run without a limit can take. -/
def stepCount? (text : String) : Option Nat :=
  match Text.Decimal.natural? text.toList with
  | some n => if n ≤ Session.stepBound then some n else none
  | none => none

/-- The option that limits the number of steps. -/
def limitOption : OptionSpec Settings where
  letter := some 't'
  long := "tmax"
  help := "Stop after this many instructions"
  action := .valued "TMAX" fun value s => do
    return { s with limit := ← once "--tmax" s.limit (← readValue stepCount? "--tmax" value) }

/-- The command line of the emulator. -/
def grammar : Grammar Settings where
  program := "octet-emu"
  operand := "IMAGE"
  setOperand word s := return { s with image := some (← onlyPath "IMAGE" word s.image) }
  options :=
    [switchOption "assemble" "Treat the image as assembler source and assemble it first"
        (·.assemble) ({ · with assemble := true }),
      switchOption "print-instructions" "" (·.echo) ({ · with echo := true }),
      limitOption,
      levelOption (·.level) ({ · with level := · })]

/-- The options that a command line asks for. -/
def Options.ofArguments (arguments : List String) : Except Stop Options :=
  match grammar.read {} arguments with
  | .error stop => .error stop
  | .ok s =>
    match s.image with
    | none => .error (.usage (.missingOperand grammar.operand))
    | some image => .ok ⟨image, s.assemble, s.echo, s.limit, s.level.getD defaultLevel⟩

/-- The greatest number of steps that the options allow. -/
def Options.steps (o : Options) : Nat := o.limit.getD Session.stepBound

/-! ## §2. Loading. -/

/-- A complaint of the emulator. -/
def complaint (message : String) : Entry := ⟨.error, .emulator, message, []⟩

/-- The complaint that something could not be done with the file of the image. -/
def unusable (o : Options) (deed : String) (e : FileError) : Entry :=
  complaint ("Failed to " ++ deed ++ " \"" ++ o.image ++ "\": " ++ e.message)

/-- The complaint about a source that cannot be assembled. -/
def faulty (o : Options) (e : Assembly.AssemblyError) : Entry :=
  complaint s!"{o.image}: {e.message}"

/-- The image at a place, or the complaint that there is none.  A place that is read as an image
has to be a file; a place that is read as source has to hold text. -/
def load (o : Options) (place : Except FileError Place) : Except Entry Image :=
  if o.assemble then
    match place >>= Place.text with
    | .error e => .error (unusable o "read" e)
    | .ok source => (Assembly.assemble source).mapError (faulty o)
  else
    match place with
    | .error e => .error (unusable o "open" e)
    | .ok .directory => .error (unusable o "map" .noSuchDevice)
    | .ok (.file bytes) => .ok bytes

/-- What loading tells about itself. -/
def loadTrail (o : Options) (place : Except FileError Place) : List Entry :=
  if o.assemble then
    match place >>= Place.text with
    | .error _ => []
    | .ok source => Assembly.Trail.ofAssembling source
  else []

/-- The entry on an image that is loaded. -/
def loaded (image : Image) : Entry :=
  ⟨.debug, .emulator, "loaded image", [("bytes", Text.decimal image.size)]⟩

/-! ## §3. Running. -/

/-- The line on an event of a run; instructions are echoed on request. -/
def eventLine? (echo : Bool) : Event → Option Line
  | .read offset instruction => if echo then some (.plain (Event.echo offset instruction)) else none
  | .jump condition target => some (.entry (Event.taken condition target))

/-- The lines on the events of a run.  A run of which no event would be shown is not narrated. -/
def narration (o : Options) (image : Image) (limit : Nat) (s : Session) : List Line :=
  if o.echo || o.level.shows .trace then
    (s.narrate image limit).filterMap (eventLine? o.echo)
  else []

/-- The entry on the state in which a machine is left. -/
def finalState (m : Machine) : Entry :=
  ⟨.debug, .emulator, "final state",
    [("flags", m.flags.text), ("instruction_pointer", Text.decimal m.pointer.toNat)]⟩

/-- The entry on a register. -/
def registerEntry (m : Machine) (reg : Register) : Entry :=
  ⟨.debug, .emulator, s!"{reg.name} = {Text.decimal (m.registers.get reg).toInt}", []⟩

/-- The warning that a machine was cut short, if it was. -/
def cutShort (o : Options) (image : Image) (run : Run) : List Entry :=
  if run.session.running image && run.fault.isNone then
    [⟨.warn, .emulator, s!"Stopped after {Text.decimal o.steps} instructions", []⟩]
  else []

/-- What is told when a run is over. -/
def closing (o : Options) (image : Image) (run : Run) : List Entry :=
  cutShort o image run ++ Register.all.map (registerEntry run.session.machine) ++
    [finalState run.session.machine] ++ (run.fault.map (complaint ·.message)).toList

/-- The exit status of a run. -/
def exitStatus (run : Run) : Nat := if run.fault.isSome then failed else 0

/-! ## §4. The work. -/

/-- The report on running an image. -/
def report (o : Options) (image : Image) : Report :=
  let run := Session.runFor image o.steps {}
  { status := exitStatus run
    output := run.session.output.written
    lines := .entry (loaded image) :: narration o image o.steps {} ++
      (closing o image run).map .entry }

/-- The work that the options ask for, with what stands at the path of the image. -/
def work (o : Options) (place : Except FileError Place) : Report :=
  let told := (loadTrail o place).map Line.entry
  match load o place with
  | .error e => .failure "" told e
  | .ok image =>
    let r := report o image
    { r with lines := told ++ r.lines }

end Emulator

/-- **The emulator**, run in a directory. -/
def emulator (directory : Directory) (arguments : List String) : Outcome :=
  match Emulator.Options.ofArguments arguments with
  | .error stop => Emulator.grammar.stopped stop directory
  | .ok o => (Emulator.work o (directory.look o.image)).outcome o.level directory

end ByteMachine.CommandLine
