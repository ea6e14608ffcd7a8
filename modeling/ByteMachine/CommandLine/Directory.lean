/-
  ByteMachine.CommandLine.Directory — the files a program is run among.

  A directory holds files and no further directories.  A path names one of its files, a file
  outside, or a directory: this one or one around it.  Blank steps and single dots in a path lead
  nowhere, double dots lead out, and a step behind a file is refused because a file is no
  directory.  A file outside is never found, and writing it changes nothing here.

  Main statements: `find?_put` — writing a file decides its own content and leaves the others;
  `find?_write` — a write that succeeds decides no more than the file that its path names.
-/
import ByteMachine.Image
import ByteMachine.Segments

namespace ByteMachine.CommandLine

/-! ## §1. Failures. -/

/-- Why a file could not be used. -/
inductive FileError where
  | notFound
  | noSuchDevice
  | notADirectory
  | isADirectory
  | nameTooLong
  | notText
  /-- Any other failure, in the words of the system. -/
  | other (text : String)
  deriving DecidableEq, Repr

/-- The wording of a file error; those of the system end in their number. -/
def FileError.message : FileError → String
  | .notFound => "No such file or directory (os error 2)"
  | .noSuchDevice => "No such device (os error 19)"
  | .notADirectory => "Not a directory (os error 20)"
  | .isADirectory => "Is a directory (os error 21)"
  | .nameTooLong => "File name too long (os error 36)"
  | .notText => "stream did not contain valid UTF-8"
  | .other text => text

/-- What a path leads to. -/
inductive Place where
  | directory
  | file (bytes : Image)

/-- The text of a place, if it is a file that holds one. -/
def Place.text : Place → Except FileError String
  | .directory => .error .isADirectory
  | .file bytes =>
    match String.fromUTF8? ⟨bytes⟩ with
    | some text => .ok text
    | none => .error .notText

/-! ## §2. Paths. -/

/-- The steps of a path between its slashes. -/
def pathSteps (path : String) : List (List Char) := segments (· == '/') path.toList

/-- Whether a step leads nowhere. -/
def isIdleStep (step : List Char) : Bool := step.isEmpty || step == ['.']

/-- Whether a step leads out of a directory. -/
def isOutwardStep (step : List Char) : Bool := step == ['.', '.']

/-- The greatest number of bytes of a step. -/
def stepLimit : Nat := 255

/-- The greatest number of bytes of a path. -/
def pathLimit : Nat := 4095

/-- What a path asks for. -/
inductive Route where
  /-- The directory itself, or one around it. -/
  | here
  /-- A name in the directory, or outside of it; `slash` says whether a slash stands behind it. -/
  | name (outside : Bool) (name : String) (slash : Bool)
  /-- A place behind a name, which only a directory of that name could hold. -/
  | below (outside : Bool) (name : String)
  deriving DecidableEq, Repr

/-- The route of the steps of a path, begun in the directory or outside of it. -/
def Route.ofSteps (outside : Bool) : List (List Char) → Route
  | [] => .here
  | step :: rest =>
    if isIdleStep step then Route.ofSteps outside rest
    else if isOutwardStep step then Route.ofSteps true rest
    else if rest.all List.isEmpty then .name outside (String.ofList step) !rest.isEmpty
    else .below outside (String.ofList step)

/-- The route of a path, unless the path is too long.  One that starts with a slash begins in
the outermost directory. -/
def Route.ofPath? (path : String) : Option Route :=
  if pathLimit < path.utf8ByteSize then none
  else some (Route.ofSteps (path.toList.head? == some '/') (pathSteps path))

/-! ## §3. Directories. -/

/-- Files by name. -/
structure Directory where
  files : List (String × Image) := []

namespace Directory

/-- The content of a file. -/
def find? (d : Directory) (name : String) : Option Image := d.files.lookup name

/-- The directory with a file written anew. -/
def put (d : Directory) (name : String) (bytes : Image) : Directory :=
  ⟨(name, bytes) :: d.files⟩

/-- Writing a file decides its own content and leaves the others. -/
theorem find?_put (d : Directory) (name other : String) (bytes : Image) :
    (d.put name bytes).find? other = if other = name then some bytes else d.find? other := by
  by_cases h : other = name
  · simp [put, find?, h]
  · have hb : (other == name) = false := by simpa using h
    simp only [find?, put, List.lookup_cons, hb, if_neg h]

/-- The content of the file that a step of a path names. -/
def step (d : Directory) (outside : Bool) (name : String) : Except FileError Image :=
  if stepLimit < name.utf8ByteSize then .error .nameTooLong
  else
    match if outside then none else d.find? name with
    | some bytes => .ok bytes
    | none => .error .notFound

/-- What a path leads to. -/
def look (d : Directory) (path : String) : Except FileError Place :=
  match Route.ofPath? path with
  | none => .error .nameTooLong
  | some .here => .ok .directory
  | some (.name outside name slash) => do
    let bytes ← d.step outside name
    if slash then .error .notADirectory else .ok (.file bytes)
  | some (.below outside name) => do
    let _ ← d.step outside name
    .error .notADirectory

/-- The directory once bytes are written to a path. -/
def write (d : Directory) (path : String) (bytes : Image) : Except FileError Directory :=
  match Route.ofPath? path with
  | none => .error .nameTooLong
  | some .here => .error .isADirectory
  | some (.name outside name slash) =>
    -- a slash behind the name asks for a directory, whether or not there is such a file
    if slash then .error .isADirectory
    else if stepLimit < name.utf8ByteSize then .error .nameTooLong
    else .ok (if outside then d else d.put name bytes)
  | some (.below outside name) => do
    let _ ← d.step outside name
    .error .notADirectory

/-- A write that succeeds decides no more than the file that its path names. -/
theorem find?_write {d d' : Directory} {path : String} {bytes : Image}
    (h : d.write path bytes = .ok d') (other : String) :
    d'.find? other =
      if Route.ofPath? path = some (.name false other false) then some bytes
      else d.find? other := by
  unfold write at h
  split at h
  · cases h
  · cases h
  · next outside name slash hr =>
    cases slash
    · cases outside
      · grind [find?_put]
      · grind
    · cases h
  · next outside name hr =>
    cases hs : d.step outside name <;> simp [hs, bind, Except.bind] at h

end Directory

end ByteMachine.CommandLine
