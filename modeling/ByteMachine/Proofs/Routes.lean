/-
  ByteMachine.Proofs.Routes — from a source to a run, with a file in between and without.

  A source can be assembled into a file and the file be run, or the source can be run at once.  The
  two ways have programs of their own, which read files, complain and tell of their work each for
  itself.  They come together where the image is there, and apart from it a run depends on few
  options:

    • `Grammar.read_operand`, `read_switch`, `read_valued` — a command line, word by word,
    • `Assembler.ofArguments_words`, `Emulator.ofArguments_words` — the command lines of both ways,
    • `look_put_of_names`, `look_put_of_other` — what is found once the image is stored,
    • `Emulator.loadMapped_eq` — an image that is mapped, with an empty file handled apart,
    • `assembler_of_ok`, `assembler_of_error` — what the assembler leaves behind,
    • `routes_agree` — so both ways end in the same, or fail with the same complaint and leave the
      files alone.
-/
import ByteMachine.CommandLine.Assembler
import ByteMachine.Proofs.Limits
import ByteMachine.Proofs.Spelling

namespace ByteMachine.CommandLine

open Assembly (assemble Tree)
open Log (Entry Level)
open Machine (Session)

/-! ## §1. Command lines. -/

namespace Grammar

variable {σ : Type} {g : Grammar σ} {s t u : σ} {word value : String} {rest : List String}
  {spec : OptionSpec σ}

/-- A word that names a file as it stands: it is not empty and does not start as an option does. -/
def Ordinary (word : String) : Prop := word ≠ "" ∧ startsOption word = false

instance : Decidable (Ordinary word) := inferInstanceAs (Decidable (_ ∧ _))

theorem readWord_of_ordinary (h : startsOption word = false) :
    g.readWord s word = (refuse (g.setOperand word s)).map (·, none) := by
  unfold readWord
  unfold startsOption at h
  split <;> simp_all

theorem read_switch (hne : word ≠ "--") (hw : g.readWord s word = .ok (t, none)) :
    g.read s (word :: rest) = g.read t rest := by
  conv => lhs; unfold read
  simp only [if_neg hne, hw]

theorem read_valued (hne : word ≠ "--") (hw : g.readWord s word = .ok (t, some spec))
    (hv : startsOption value = false) (hg : giveValue spec value t = .ok u) :
    g.read s (word :: value :: rest) = g.read u rest := by
  conv => lhs; unfold read
  simp only [if_neg hne, hw, hv, hg, Bool.false_eq_true, if_false]

theorem read_operand (h : startsOption word = false) (ht : g.setOperand word s = .ok t) :
    g.read s (word :: rest) = g.read t rest := by
  refine read_switch ?_ ?_
  · rintro rfl
    cases h
  · rw [readWord_of_ordinary h, ht]
    rfl

end Grammar

open Grammar (Ordinary read_operand read_switch read_valued)

theorem path_of_ne {option word : String} (h : word ≠ "") : path option word = .ok word := by
  rw [path, if_neg]
  rwa [String.isEmpty_iff]

/-- The words that ask the assembler to store the image of a source. -/
def Assembler.words (path out : String) (dumpTree : Bool) : List String :=
  [path, "-o", out] ++ if dumpTree then ["--dump-ast"] else []

/-- The words that ask the emulator to run a file, with the options that a run depends on. -/
def Emulator.words (path : String) (assemble echo : Bool) (limit : Option Nat) : List String :=
  [path] ++ (if assemble then ["--assemble"] else []) ++
    (if echo then ["--print-instructions"] else []) ++
    limit.elim [] fun n => ["--tmax", Text.decimal n]

theorem Assembler.ofArguments_words {path out : String} (hp : Ordinary path) (ho : Ordinary out)
    (dumpTree : Bool) : Assembler.Options.ofArguments (Assembler.words path out dumpTree)
      = .ok ⟨path, some out, dumpTree, defaultLevel⟩ := by
  have hsource : grammar.setOperand path {} = .ok { source := some path } := by
    show (CommandLine.path "SOURCE" path).bind _ = _
    rw [path_of_ne hp.1]
    rfl
  have houtput : Grammar.giveValue outputOption out { source := some path }
      = .ok { source := some path, output := some out } := by
    show Grammar.refuse ((CommandLine.path "--output" out).bind _) = _
    rw [path_of_ne ho.1]
    rfl
  have hread : grammar.read {} (words path out dumpTree)
      = .ok { source := some path, output := some out, dumpTree } := by
    unfold words
    rw [List.cons_append, read_operand hp.2 hsource]
    show grammar.read _ ("-o" :: out :: _) = _
    rw [read_valued (by decide) rfl ho.2 houtput]
    cases dumpTree
    · rfl
    · exact read_switch (by decide) rfl
  unfold Options.ofArguments
  rw [hread]
  rfl

/-- A number is spelled with a digit first. -/
theorem digits_of_decimal (n : Nat) : ∃ d ds, (Text.decimal n).toList = d :: ds
    ∧ d :: ds = Text.Decimal.digits n ∧ ∀ c ∈ d :: ds, c.isDigit = true := by
  have hdigits : (Text.decimal n).toList = Text.Decimal.digits n := by
    rw [Text.decimal, String.toList_ofList, Text.Decimal.spell, if_neg (by omega),
      Int.natAbs_natCast]
  obtain ⟨d, ds, hd⟩ := List.exists_cons_of_ne_nil
    (show Text.Decimal.digits n ≠ [] from Nat.toDigits_ne_nil)
  exact ⟨d, ds, hdigits.trans hd, hd.symm, hd ▸ fun c hc => Assembly.isDigit_of_mem_digits hc⟩

theorem startsOption_decimal (n : Nat) : Grammar.startsOption (Text.decimal n) = false := by
  obtain ⟨d, ds, htext, -, hall⟩ := digits_of_decimal n
  unfold Grammar.startsOption
  rw [htext]
  split
  · -- a minus sign is no digit
    rename_i heq
    have hd := hall d List.mem_cons_self
    rw [(List.cons.inj heq).1] at hd
    cases hd
  · rfl

/-- The number of steps is read as it is spelled. -/
theorem Emulator.stepCount?_decimal {n : Nat} (h : n ≤ Session.stepBound) :
    Emulator.stepCount? (Text.decimal n) = some n := by
  have hnatural : Text.Decimal.natural? (Text.decimal n).toList = some n := by
    obtain ⟨d, ds, htext, hdigits, hall⟩ := digits_of_decimal n
    rw [htext]
    unfold Text.Decimal.natural?
    split
    · -- a plus sign is no digit
      rename_i heq
      have hd := hall d List.mem_cons_self
      rw [(List.cons.inj heq).1] at hd
      cases hd
    · rw [Text.Decimal.natural?.unsigned?, List.all_eq_true.mpr hall, hdigits,
        Text.Decimal.ofDigits_digits, ← hdigits]
      rfl
  unfold stepCount?
  rw [hnatural]
  exact if_pos h

theorem Emulator.ofArguments_words {path : String} (hp : Ordinary path) (assemble echo : Bool)
    {limit : Option Nat} (hl : ∀ n ∈ limit, n ≤ Session.stepBound) :
    Emulator.Options.ofArguments (Emulator.words path assemble echo limit)
      = .ok ⟨path, assemble, echo, limit, defaultLevel⟩ := by
  have himage : grammar.setOperand path {} = .ok { image := some path } := by
    show (CommandLine.path "IMAGE" path).bind _ = _
    rw [path_of_ne hp.1]
    rfl
  -- the words are read from the left, so each option is followed through with what stands behind it
  have hlimit : ∀ s : Settings, s.limit = none →
      grammar.read s (limit.elim [] fun n => ["--tmax", Text.decimal n])
        = .ok { s with limit } := by
    rintro ⟨image, assemble, echo, limit', level⟩ rfl
    cases limit with
    | none => rfl
    | some n =>
      refine read_valued (by decide) rfl (startsOption_decimal n) ?_
      show Grammar.refuse ((readValue stepCount? "--tmax" (Text.decimal n)).bind _) = _
      rw [readValue, stepCount?_decimal (hl n rfl)]
      rfl
  have hecho : ∀ s : Settings, s.echo = false → s.limit = none →
      grammar.read s ((if echo then ["--print-instructions"] else []) ++
        limit.elim [] fun n => ["--tmax", Text.decimal n]) = .ok { s with echo, limit } := by
    rintro ⟨image, assemble, echo', limit', level⟩ rfl rfl
    cases echo
    · exact hlimit _ rfl
    · exact (read_switch (by decide) rfl).trans (hlimit _ rfl)
  have hread : grammar.read {} (words path assemble echo limit)
      = .ok { image := some path, assemble, echo, limit } := by
    unfold words
    rw [List.append_assoc, List.append_assoc, List.cons_append, List.nil_append,
      read_operand hp.2 himage]
    cases assemble
    · exact hecho _ rfl rfl
    · exact (read_switch (by decide) rfl).trans (hecho _ rfl rfl)
  unfold Options.ofArguments
  rw [hread]
  rfl

/-! ## §2. Files. -/

/-- A path that names a file of the directory. -/
def Names (path name : String) : Prop :=
  Route.ofPath? path = some (.name false name false) ∧ name.utf8ByteSize ≤ stepLimit

instance {path name : String} : Decidable (Names path name) := inferInstanceAs (Decidable (_ ∧ _))

namespace Directory

variable {d : Directory} {path name : String} {bytes : Image}

/-- What a path that names a file leads to. -/
theorem look_of_names (h : Names path name) :
    d.look path = (d.find? name).elim (.error .notFound) fun bytes => .ok (.file bytes) := by
  unfold look
  rw [h.1]
  show (d.step false name >>= fun bytes => _) = _
  rw [step, if_neg (Nat.not_lt.mpr h.2), if_neg Bool.false_ne_true]
  cases d.find? name <;> rfl

/-- A file can be stored under each path that names one. -/
theorem write_of_names (h : Names path name) : d.write path bytes = .ok (d.put name bytes) := by
  unfold write
  rw [h.1]
  show (if false = true then _ else if stepLimit < name.utf8ByteSize then _ else _) = _
  rw [if_neg Bool.false_ne_true, if_neg (Nat.not_lt.mpr h.2), if_neg Bool.false_ne_true]

theorem of_step {outside : Bool} (h : d.step outside name = .ok bytes) :
    outside = false ∧ name.utf8ByteSize ≤ stepLimit ∧ d.find? name = some bytes := by
  unfold step at h
  split at h
  · cases h
  · rename_i hlong
    cases outside with
    | true => cases h
    | false =>
      refine ⟨rfl, Nat.le_of_not_lt hlong, ?_⟩
      cases hfind : d.find? name with
      | none => simp only [Bool.false_eq_true, if_false, hfind] at h; cases h
      | some content => simp only [Bool.false_eq_true, if_false, hfind] at h; cases h; rfl

/-- Only a path that names a file leads to one. -/
theorem names_of_look (h : d.look path = .ok (.file bytes)) :
    ∃ name, Names path name ∧ d.find? name = some bytes := by
  unfold look at h
  split at h
  · cases h
  · cases h
  · rename_i outside name slash hroute
    cases hstep : d.step outside name with
    | error e => rw [hstep] at h; cases h
    | ok content =>
      obtain ⟨rfl, hlimit, hfind⟩ := of_step hstep
      rw [hstep] at h
      -- a slash behind the name asks for a directory
      cases slash with
      | true => cases h
      | false => cases h; exact ⟨name, ⟨hroute, hlimit⟩, hfind⟩
  · -- a place behind a name is no file
    rename_i outside name hroute
    cases hstep : d.step outside name with
    | error e => rw [hstep] at h; cases h
    | ok content => rw [hstep] at h; cases h

/-- What has been stored is found there. -/
theorem look_put_of_names (h : Names path name) :
    (d.put name bytes).look path = .ok (.file bytes) := by
  rw [look_of_names h, find?_put, if_pos rfl]
  rfl

/-- A file with another name is found as before. -/
theorem look_put_of_other {other : String} {stored : Image} (h : Names path name)
    (hl : d.look other = .ok (.file bytes)) (hne : Route.ofPath? other ≠ Route.ofPath? path) :
    (d.put name stored).look other = .ok (.file bytes) := by
  obtain ⟨own, hown, hfind⟩ := names_of_look hl
  have hdiff : own ≠ name := by
    rintro rfl
    exact hne (hown.1.trans h.1.symm)
  rw [look_of_names hown, find?_put, if_neg hdiff, hfind]
  rfl

end Directory

/-- A place that holds text is a file. -/
theorem file_of_text {place : Except FileError Place} {source : String}
    (h : place >>= Place.text = .ok source) : ∃ bytes, place = .ok (.file bytes) := by
  rcases place with e | _ | bytes
  · cases h
  · cases h
  · exact ⟨bytes, rfl⟩

/-! ## §3. Mapped images. -/

/-- A file that is mapped into memory is there as it is.  Nothing is promised of an empty one, and
a directory cannot be mapped. -/
structure Mapping where
  map : Place → Except FileError Image
  map_file : ∀ bytes : Image, bytes ≠ #[] → map (.file bytes) = .ok bytes
  map_directory : map .directory = .error .noSuchDevice

/-- The mapping of a system that refuses to map an empty file. -/
def Mapping.strict : Mapping where
  map
    | .directory => .error .noSuchDevice
    | .file bytes =>
      if bytes.size = 0 then .error (.other "Invalid argument (os error 22)") else .ok bytes
  map_file _ h := if_neg fun hsize => h (Array.eq_empty_of_size_eq_zero hsize)
  map_directory := rfl

/-- The image at a place that has been opened.  An empty file is not mapped. -/
def Mapping.image (mapping : Mapping) : Place → Except FileError Image
  | .directory => mapping.map .directory
  | .file bytes => if bytes.size = 0 then .ok #[] else mapping.map (.file bytes)

/-- The image at a place, or the complaint that there is none, if images are mapped. -/
def Emulator.loadMapped (mapping : Mapping) (o : Options) (place : Except FileError Place) :
    Except Entry Image :=
  if o.assemble then load o place
  else
    match place with
    | .error e => .error (unusable o "open" e)
    | .ok place => (mapping.image place).mapError (unusable o "map")

/-- **To map an image is to read it**, whatever mapping does with an empty file. -/
theorem Emulator.loadMapped_eq (mapping : Mapping) (o : Options)
    (place : Except FileError Place) : loadMapped mapping o place = load o place := by
  unfold loadMapped
  split
  · rfl
  · rename_i hassemble
    unfold load
    rw [if_neg hassemble]
    rcases place with e | _ | bytes
    · rfl
    · show (mapping.map .directory).mapError _ = _
      rw [mapping.map_directory]
      rfl
    · show (if bytes.size = 0 then _ else _ : Except FileError Image).mapError _ = _
      split
      · rename_i hempty
        rw [Array.eq_empty_of_size_eq_zero hempty]
        rfl
      · rename_i hsize
        rw [mapping.map_file bytes (fun h => hsize (h ▸ rfl))]
        rfl

/-! ## §4. The assembler. -/

namespace Assembler

variable {o : Options} {source : String} {image : Image} {e : Assembly.AssemblyError}

/-- What a source is assembled to does not depend on whether its tree was shown before. -/
theorem report_of_ok (h : assemble source = .ok image) : ∃ shown told,
    report o source = (⟨0, shown, told.map .entry⟩, some image) ∧ Assembly.Trail.Quiet told := by
  have hbehind : ∀ shown told, assembleBehind o source shown told
      = (⟨0, shown, (told ++ Assembly.Trail.ofAssembling source).map .entry⟩, some image) := by
    intro shown told
    unfold assembleBehind
    rw [h]
  have hquiet := Assembly.Trail.quiet_ofAssembling source
  unfold report
  split
  · cases htree : Tree.ofSource source with
    | error e =>
      -- a source without a tree has no image
      unfold assemble at h
      rw [htree] at h
      cases h
    | ok tree =>
      exact ⟨_, _, hbehind _ _,
        Assembly.Trail.quiet_append (Assembly.Trail.quiet_ofReading source) hquiet⟩
  · exact ⟨_, _, hbehind _ _, hquiet⟩

/-- A source that cannot be assembled is complained of in the same way, whether this is found when
its tree is to be shown or later. -/
theorem report_of_error (h : assemble source = .error e) : ∃ shown told,
    report o source = (.failure shown (told.map .entry) (faulty o e), none)
      ∧ Assembly.Trail.Quiet told := by
  have hbehind : ∀ shown told, assembleBehind o source shown told
      = (.failure shown ((told ++ Assembly.Trail.ofAssembling source).map .entry) (faulty o e),
        none) := by
    intro shown told
    unfold assembleBehind
    rw [h]
  have hquiet := Assembly.Trail.quiet_ofAssembling source
  have hreading := Assembly.Trail.quiet_ofReading source
  unfold report
  split
  · cases htree : Tree.ofSource source with
    | error e' =>
      -- the fault is found before the tree is shown, and it is the one that assembling finds
      unfold assemble at h
      rw [htree] at h
      cases h
      exact ⟨_, _, rfl, hreading⟩
    | ok tree => exact ⟨_, _, hbehind _ _, Assembly.Trail.quiet_append hreading hquiet⟩
  · exact ⟨_, _, hbehind _ _, hquiet⟩

end Assembler

variable {directory : Directory} {arguments : List String} {source path out name : String}
  {image : Image} {e : Assembly.AssemblyError} {dumpTree : Bool} {level : Level}

/-- Where the source is text, the work goes on from the report on it. -/
theorem Assembler.run_work {o : Assembler.Options} {r : Report} {stored : Option Image}
    (hsource : directory.look o.source >>= Place.text = .ok source)
    (hreport : Assembler.report o source = (r, stored)) :
    (Assembler.work .inDirectory o).run directory
      = (stored.elim (pure r) (Assembler.deliver .inDirectory o · r)).run directory := by
  have hlook : (Files.inDirectory.look o.source).run directory
      = (directory.look o.source, directory) := rfl
  unfold Assembler.work
  rw [StateT.run_bind, hlook]
  change StateT.run _ directory = _
  simp only [hsource, hreport]
  cases stored <;> rfl

/-- An image that can be stored is, and the report stays as it is. -/
theorem Assembler.run_deliver {o : Assembler.Options} {after : Directory} (r : Report)
    (ho : o.output = some out) (h : directory.write out image = .ok after) :
    (Assembler.deliver .inDirectory o image r).run directory = (r, after) := by
  have hwrite : (Files.inDirectory.write out image).run directory = (.ok (), after) := by
    simp only [Files.inDirectory, StateT.run, h]
  unfold Assembler.deliver
  simp only [ho, StateT.run_bind, hwrite]
  rfl

/-- What the assembler leaves behind is the report on its work, and the files after it. -/
theorem assembler_of_work {o : Assembler.Options} {r : Report} {after : Directory}
    (ho : Assembler.Options.ofArguments arguments = .ok o)
    (hwork : (Assembler.work .inDirectory o).run directory = (r, after)) :
    assembler directory arguments = r.outcome o.level after := by
  unfold assembler
  rw [ho]
  simp only [hwork]

/-- **A source that can be assembled** is, and its image is stored. -/
theorem assembler_of_ok
    (ho : Assembler.Options.ofArguments arguments = .ok ⟨path, some out, dumpTree, level⟩)
    (hsource : directory.look path >>= Place.text = .ok source) (hout : Names out name)
    (h : assemble source = .ok image) :
    (assembler directory arguments).status = 0
      ∧ (assembler directory arguments).directory = directory.put name image := by
  obtain ⟨shown, told, hreport, -⟩ :=
    Assembler.report_of_ok (o := ⟨path, some out, dumpTree, level⟩) h
  have hwork : (Assembler.work .inDirectory ⟨path, some out, dumpTree, level⟩).run directory
      = (⟨0, shown, told.map .entry⟩, directory.put name image) := by
    rw [Assembler.run_work hsource hreport]
    exact Assembler.run_deliver (o := ⟨path, some out, dumpTree, level⟩) _ rfl
      (Directory.write_of_names hout)
  rw [assembler_of_work ho hwork]
  exact ⟨rfl, rfl⟩

/-- **A source that cannot be assembled** is complained of, and nothing is stored. -/
theorem assembler_of_error
    (ho : Assembler.Options.ofArguments arguments = .ok ⟨path, some out, dumpTree, level⟩)
    (hsource : directory.look path >>= Place.text = .ok source)
    (hlevel : level.shows .debug = false) (h : assemble source = .error e) :
    (assembler directory arguments).status = failed
      ∧ (assembler directory arguments).directory = directory
      ∧ (assembler directory arguments).lines
        = "ERROR octet_as: " ++ Log.spelled s!"{path}: {e.message}" ++ "\n" := by
  obtain ⟨shown, told, hreport, hquiet⟩ :=
    Assembler.report_of_error (o := ⟨path, some out, dumpTree, level⟩) h
  have hwork : (Assembler.work .inDirectory ⟨path, some out, dumpTree, level⟩).run directory
      = (.failure shown (told.map .entry) (Assembler.faulty ⟨path, some out, dumpTree, level⟩ e),
        directory) := Assembler.run_work hsource hreport
  rw [assembler_of_work ho hwork]
  exact ⟨rfl, rfl, (shownLines_quiet hquiet hlevel _).trans (shownLines_complaint level _ _)⟩

/-! ## §5. The emulator. -/

/-- **What is seen of a run depends on the image** and on the options, and not on how the image came
to be there, unless the work of loading is shown. -/
theorem emulator_of_image {o : Emulator.Options}
    (ho : Emulator.Options.ofArguments arguments = .ok o) (hlevel : o.level.shows .debug = false)
    (h : Emulator.load o (directory.look o.image) = .ok image) :
    emulator directory arguments = (Emulator.report o image).outcome o.level directory := by
  have hlines := shownLines_quiet (Emulator.quiet_loadTrail o (directory.look o.image)) hlevel
    (Emulator.report o image).lines
  rw [emulator_of_options ho, Emulator.work_of_load h]
  exact congrArg (Outcome.mk _ _ · directory) hlines

/-- Without an image there is a complaint, and nothing is run. -/
theorem emulator_of_no_image {o : Emulator.Options} {message : String}
    (ho : Emulator.Options.ofArguments arguments = .ok o) (hlevel : o.level.shows .debug = false)
    (h : Emulator.load o (directory.look o.image) = .error (Emulator.complaint message)) :
    emulator directory arguments
      = ⟨failed, "", "ERROR octet_emu: " ++ Log.spelled message ++ "\n", directory⟩ := by
  have hlines := shownLines_quiet (Emulator.quiet_loadTrail o (directory.look o.image)) hlevel
    [.entry (Emulator.complaint message)]
  rw [emulator_of_options ho, Emulator.work, h]
  exact congrArg (Outcome.mk failed "" · directory)
    (hlines.trans (shownLines_complaint o.level _ _))

/-- A source that is there is loaded as what it is assembled to. -/
theorem Emulator.load_of_text {o : Emulator.Options} {place : Except FileError Place}
    (ho : o.assemble = true) (h : place >>= Place.text = .ok source) :
    Emulator.load o place = (assemble source).mapError (Emulator.faulty o) := by
  unfold load
  rw [if_pos ho, h]

/-! ## §6. Both ways. -/

/-- Two programs ended in the same way, as far as their status, their output and their lines go. -/
def Outcome.Alike (a b : Outcome) : Prop :=
  a.status = b.status ∧ a.output = b.output ∧ a.lines = b.lines

/-- **The two ways from a source to a run agree.**  A source is text in a file, and another file is
to be made of it, which need not be there yet.  The assembler is asked to store the image in the
other file, perhaps after showing the tree; it ends with status zero exactly if the source can be
assembled.  Then the other file holds the image, every other file is as it was, and the emulator
ends in the same way whether it is given the other file, which it may map into memory, or the source
itself, before or after the image was stored: with the status, the output and the lines of a run of
the image.  A source that cannot be assembled leaves all files as they were.  The assembler and the
emulator that is given the source both end with status one, and the emulator prints nothing.  The
one line that each of them shows gives the same message, with the name of the program in front; the
message stands there as it is, but for characters that would steer a terminal.  All this is so for
any options that a run depends on, and for each threshold that does not show the work of the
programs, as the usual one does not. -/
theorem routes_agree (directory : Directory) (path out name source : String)
    (storing stored direct : List String) (dumpTree echo : Bool) (limit : Option Nat)
    (level : Level) (hlevel : level.shows .debug = false)
    (hsource : directory.look path >>= Place.text = .ok source)
    (hout : Names out name) (hother : Route.ofPath? path ≠ Route.ofPath? out)
    (hstoring : Assembler.Options.ofArguments storing = .ok ⟨path, some out, dumpTree, level⟩)
    (hstored : Emulator.Options.ofArguments stored = .ok ⟨out, false, echo, limit, level⟩)
    (hdirect : Emulator.Options.ofArguments direct = .ok ⟨path, true, echo, limit, level⟩) :
    let made := assembler directory storing
    (made.status = 0 ↔ ∃ image, assemble source = .ok image) ∧
    (∀ image, assemble source = .ok image →
      let run := Session.runFor image (limit.getD Session.stepBound) {}
      let seen := emulator made.directory stored
      made.directory.find? name = some image ∧
      (∀ other, other ≠ name → made.directory.find? other = directory.find? other) ∧
      (∀ mapping, Emulator.loadMapped mapping ⟨out, false, echo, limit, level⟩
        (made.directory.look out) = .ok image) ∧
      seen.status = Emulator.exitStatus run ∧ seen.output = run.session.output.written ∧
      (emulator directory direct).Alike seen ∧ (emulator made.directory direct).Alike seen) ∧
    ∀ e, assemble source = .error e →
      let message := s!"{path}: {e.message}"
      let seen := emulator directory direct
      made.status = 1 ∧ made.directory = directory ∧
      made.lines = "ERROR octet_as: " ++ Log.spelled message ++ "\n" ∧
      seen.status = 1 ∧ seen.output = "" ∧
      seen.lines = "ERROR octet_emu: " ++ Log.spelled message ++ "\n" ∧
      ((∀ c ∈ message.toList, Log.Printable c) → Log.spelled message = message) := by
  intro made
  have hload := fun {d : Directory} (h : d.look path >>= Place.text = .ok source) =>
    Emulator.load_of_text (o := ⟨path, true, echo, limit, level⟩) rfl h
  refine ⟨?_, fun image h => ?_, fun e h => ?_⟩
  · cases h : assemble source with
    | ok image =>
      exact iff_of_true (assembler_of_ok hstoring hsource hout h).1 ⟨image, rfl⟩
    | error e =>
      have hfailed : made.status = 1 := (assembler_of_error hstoring hsource hlevel h).1
      rw [hfailed]
      exact iff_of_false (by decide) (by rintro ⟨image, ⟨⟩⟩)
  · have hmade : made.directory = directory.put name image :=
      (assembler_of_ok hstoring hsource hout h).2
    obtain ⟨bytes, hbytes⟩ := file_of_text hsource
    -- the source has another name than the image, so it is still there
    have hbehind : made.directory.look path >>= Place.text = .ok source := by
      rw [hmade, Directory.look_put_of_other hout hbytes hother, ← hbytes]
      exact hsource
    have hlook : made.directory.look out = .ok (.file image) := by
      rw [hmade, Directory.look_put_of_names hout]
    have hseen : emulator made.directory stored = _ :=
      emulator_of_image hstored hlevel (by rw [hlook]; rfl)
    -- the two option records differ in what is loaded only, so the reports are the same
    have hdirect : ∀ d : Directory, d.look path >>= Place.text = .ok source →
        (emulator d direct).Alike (emulator made.directory stored) := by
      intro d hd
      rw [hseen, emulator_of_image hdirect hlevel (by rw [hload hd, h]; rfl)]
      exact ⟨rfl, rfl, rfl⟩
    refine ⟨?_, fun other hne => ?_, fun mapping => ?_, ?_, ?_, hdirect _ hsource,
      hdirect _ hbehind⟩
    · rw [hmade, Directory.find?_put, if_pos rfl]
    · rw [hmade, Directory.find?_put, if_neg hne]
    · rw [Emulator.loadMapped_eq, hlook]
      rfl
    · rw [hseen]
      rfl
    · rw [hseen]
      rfl
  · obtain ⟨hstatus, hfiles, hlines⟩ := assembler_of_error hstoring hsource hlevel h
    have hseen : emulator directory direct = _ :=
      emulator_of_no_image hdirect hlevel (by rw [hload hsource, h]; rfl)
    refine ⟨hstatus, hfiles, hlines, ?_⟩
    rw [hseen]
    exact ⟨rfl, rfl, rfl, Log.spelled_of_printable⟩

/-- The first source prints a number.  The second has a tree, which is shown, but jumps to a label
that is nowhere defined.  The third has no instruction, and the file of its image cannot be mapped.
There is a file with the name of the image before. -/
theorem routes_agree_three_sources :
    let directory : Directory := ⟨[("a", "prib #-3".toUTF8.data), ("b", "jmp @end".toUTF8.data),
      ("c", #[]), ("out.bin", #[0])]⟩
    let storing := fun path => assembler directory (Assembler.words path "out.bin" true)
    let made := (storing "a").directory
    let direct := fun path => Emulator.words path true true (some 5)
    (storing "a").status = 0 ∧ made.find? "out.bin" = some #[0xbf, 0xff, 0, 0, 0, 3] ∧
      (emulator made (Emulator.words "out.bin" false true (some 5))).output = "-3\n" ∧
      (emulator made (direct "a")).output = "-3\n" ∧
      (storing "b").status = 1 ∧ (storing "b").directory.find? "out.bin" = some #[0] ∧
      (emulator directory (direct "b")).status = 1 ∧
      (emulator directory (direct "b")).output = "" ∧
      (storing "b").lines = "ERROR octet_as: b: Jump target 'end' is not a defined label.\n" ∧
      (emulator directory (direct "b")).lines
        = "ERROR octet_emu: b: Jump target 'end' is not a defined label.\n" ∧
      Emulator.loadMapped .strict ⟨"out.bin", false, true, some 5, defaultLevel⟩
        ((storing "c").directory.look "out.bin") = .ok #[] := by
  intro directory storing made direct
  have hordinary : ∀ path ∈ ["a", "b", "c", "out.bin"], Ordinary path := by decide +kernel
  have hlimit : ∀ n ∈ some 5, n ≤ Session.stepBound := by decide
  have hroutes : ∀ path ∈ ["a", "b", "c"], Route.ofPath? path ≠ Route.ofPath? "out.bin" := by
    decide +kernel
  have hout : Names "out.bin" "out.bin" := by decide +kernel
  have hagree := fun path source (hp : path ∈ ["a", "b", "c"])
      (hsource : directory.look path >>= Place.text = .ok source) =>
    have hpath := hordinary path (List.mem_append_left ["out.bin"] hp)
    have hstored := hordinary "out.bin" (by simp)
    routes_agree directory path "out.bin" "out.bin" source _ _ _ true true (some 5) defaultLevel
      rfl hsource hout (hroutes path hp) (Assembler.ofArguments_words hpath hstored true)
      (Emulator.ofArguments_words hstored false true hlimit)
      (Emulator.ofArguments_words hpath true true hlimit)
  have ha : directory.look "a" >>= Place.text = .ok "prib #-3" := by cbv
  have hb : directory.look "b" >>= Place.text = .ok "jmp @end" := by cbv
  have hc : directory.look "c" >>= Place.text = .ok "" := by cbv
  have himage : assemble "prib #-3" = .ok #[0xbf, 0xff, 0, 0, 0, 3] := by cbv
  have hfails : assemble "jmp @end" = .error (.undefinedLabel "end") := by cbv
  have hnothing : assemble "" = .ok #[] := by cbv
  have hprinted : (Session.runFor #[0xbf, 0xff, 0, 0, 0, 3] 5 {}).session.output.written
      = "-3\n" := by
    decide +kernel
  obtain ⟨hstatus, hmade, -⟩ := hagree "a" "prib #-3" (by simp) ha
  obtain ⟨hfind, -, -, -, houtput, -, -, hsame, -⟩ := hmade _ himage
  obtain ⟨-, -, hfailed⟩ := hagree "b" "jmp @end" (by simp) hb
  obtain ⟨hone, hfiles, hcomplaint, hone', hempty, hcomplaint', hspelled⟩ := hfailed _ hfails
  have htext : toString "b" ++ toString ": " ++
      toString (Assembly.AssemblyError.undefinedLabel "end").message
        = "b: Jump target 'end' is not a defined label." := by
    decide +kernel
  rw [htext] at hcomplaint hcomplaint' hspelled
  rw [hspelled (by simp [Log.Printable])] at hcomplaint hcomplaint'
  obtain ⟨-, hmade', -⟩ := hagree "c" "" (by simp) hc
  obtain ⟨-, -, hmapped, -⟩ := hmade' _ hnothing
  refine ⟨hstatus.mpr ⟨_, himage⟩, hfind, houtput.trans hprinted,
    hsame.trans (houtput.trans hprinted), hone, ?_, hone', hempty,
    hcomplaint.trans (by decide +kernel), hcomplaint'.trans (by decide +kernel), hmapped .strict⟩
  rw [show (storing "b").directory = directory from hfiles]
  decide +kernel

end ByteMachine.CommandLine
