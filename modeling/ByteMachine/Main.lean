/-
  ByteMachine.Main — the programs at work on real files.

  The first word of the command line chooses the program, the others are for the program.  The
  emulator works in slices, so that what the machine prints is seen while it runs.
-/
import ByteMachine.CommandLine.Assembler
import ByteMachine.CommandLine.Emulator

namespace ByteMachine.CommandLine

/-! ## §1. Files. -/

/-- The file error that the system reports by its number, which some calls give negated. -/
def FileError.ofNumber? (number : UInt32) : Option FileError :=
  match min number (-number) with
  | 2 => some .notFound
  | 19 => some .noSuchDevice
  | 20 => some .notADirectory
  | 21 => some .isADirectory
  | 36 => some .nameTooLong
  | _ => none

/-- A failure of the system as a file error. -/
def fileError (e : IO.Error) : FileError :=
  let number := match e with
    | .noFileOrDirectory _ number _ => number
    | .inappropriateType _ number _ => number
    | .invalidArgument _ number _ => number
    | .noSuchThing _ number _ => number
    | .otherError number _ => number
    | _ => 0
  (FileError.ofNumber? number).getD (.other e.toString)

/-- What a path of the system leads to. -/
def lookAt (path : String) : IO (Except FileError Place) := do
  try
    return .ok (.file (← IO.FS.readBinFile path).data)
  catch e =>
    match fileError e with
    | .isADirectory => return .ok .directory
    | failure => return .error failure

/-- Writes bytes to a path of the system. -/
def writeTo (path : String) (bytes : Image) : IO (Except FileError Unit) := do
  try
    IO.FS.writeBinFile path ⟨bytes⟩
    return .ok ()
  catch e =>
    return .error (fileError e)

/-- The files of the system. -/
def systemFiles : Files IO where
  look := lookAt
  write := writeTo

/-! ## §2. Programs. -/

/-- Shows an outcome and ends with its status. -/
def finish (o : Outcome) : IO UInt32 := do
  IO.print o.output
  IO.eprint o.lines
  return .ofNat o.status

/-- The assembler on the files of the system. -/
def assemblerMain (arguments : List String) : IO UInt32 := do
  match Assembler.Options.ofArguments arguments with
  | .error stop => finish (Assembler.grammar.stopped stop {})
  | .ok o => finish ((← Assembler.work systemFiles o).outcome o.level {})

/-- The greatest number of steps in a slice. -/
def sliceSize : Nat := 4096

/-- Runs a machine slice by slice, showing what each one prints and tells. -/
partial def runInSlices (o : Emulator.Options) (image : Image) (left : Nat)
    (s : Machine.Session) : IO Machine.Run := do
  let slice := min left sliceSize
  let run := s.runFor image slice
  IO.print run.session.output.written
  IO.eprint (shownLines o.level (Emulator.narration o image slice s))
  if run.fault.isSome || left ≤ slice || !run.session.running image then return run
  else runInSlices o image (left - slice) { run.session with output := {} }

/-- The emulator on the files of the system. -/
def emulatorMain (arguments : List String) : IO UInt32 := do
  match Emulator.Options.ofArguments arguments with
  | .error stop => finish (Emulator.grammar.stopped stop {})
  | .ok o =>
    let tell := fun (entries : List Log.Entry) =>
      IO.eprint (shownLines o.level (entries.map .entry))
    let place ← lookAt o.image
    tell (Emulator.loadTrail o place)
    match Emulator.load o place with
    | .error e =>
      tell [e]
      return .ofNat failed
    | .ok image =>
      tell [Emulator.loaded image]
      let run ← runInSlices o image o.steps {}
      tell (Emulator.closing o image run)
      return .ofNat (Emulator.exitStatus run)

end ByteMachine.CommandLine

/-- Runs the program that the first word names. -/
def main (words : List String) : IO UInt32 := do
  match words with
  | "octet-as" :: arguments => ByteMachine.CommandLine.assemblerMain arguments
  | "octet-emu" :: arguments => ByteMachine.CommandLine.emulatorMain arguments
  | _ =>
    IO.eprintln "Usage: byte-machine <octet-as|octet-emu> [OPTIONS] <FILE>"
    return .ofNat ByteMachine.CommandLine.misused
