/-
  ByteMachine.Proofs.Printed — what can be read of the lines that a program prints about its work.

  The lines are printed one behind the other, each with its line end, so they can be told apart as
  long as no line end stands in one of them.  In what the emulator tells none does: names come from
  single lines of a source, and the rest is words and numbers.  A level's name stands first in the
  line of an entry, and an echoed instruction begins with its offset, so a warning that is read was
  given.

    • `Log.spelled_of_printable` — a message without control characters is shown as it is,
    • `textLines_shownLines` — lines without line ends are read as they were told,
    • `quiet_ofAssembling` — what is told of assembling is one line each, and no warning,
    • `Emulator.legible_work` — so each line of the emulator is read as what it is,
    • `Emulator.printed_warnings` — and the one warning that can be read says that a machine was cut
      short.
-/
import ByteMachine.CommandLine.Emulator
import ByteMachine.Proofs.LineByLine

/-! ## §1. The line of an entry. -/

namespace ByteMachine.Log

open Assembly (OneLine)

/-- A character that is no control character. -/
def Printable (c : Char) : Prop := (0x20 ≤ c.toNat ∧ c.toNat < 0x7f) ∨ 0xa0 ≤ c.toNat

instance {c : Char} : Decidable (Printable c) := inferInstanceAs (Decidable (_ ∨ _))

theorem spelledChar_of_printable {c : Char} (h : Printable c) : spelledChar c = .singleton c := by
  unfold spelledChar
  -- five characters have a spelling of their own, and none of them is printable
  split
  · exact absurd h (by decide)
  · exact absurd h (by decide)
  · exact absurd h (by decide)
  · exact absurd h (by decide)
  · exact absurd h (by decide)
  · exact if_neg (by unfold Printable at h; omega)

theorem toList_spelled (message : String) :
    (spelled message).toList = message.toList.flatMap fun c => (spelledChar c).toList := by
  unfold spelled
  rw [String.toList_join, List.flatMap_map]

/-- **A message without control characters is shown as it is.** -/
theorem spelled_of_printable {message : String} (h : ∀ c ∈ message.toList, Printable c) :
    spelled message = message := by
  apply String.toList_inj.mp
  rw [toList_spelled]
  generalize message.toList = cs at h
  induction cs with
  | nil => rfl
  | cons c cs ih =>
    obtain ⟨hc, hcs⟩ := List.forall_mem_cons.mp h
    rw [List.flatMap_cons, spelledChar_of_printable hc, ih hcs, String.toList_singleton]
    rfl

theorem oneLine_spelled {message : String} (h : OneLine message.toList) :
    OneLine (spelled message).toList := by
  have hchar : ∀ c : Char, (c == '\n') = false → OneLine (spelledChar c).toList := by
    intro c hc
    unfold spelledChar
    split
    · simp
    · simp
    · simp
    · simp
    · simp
    · split
      · simp
      · simpa using hc
  rw [toList_spelled]
  intro c hc
  obtain ⟨d, hd, hcd⟩ := List.mem_flatMap.mp hc
  exact hchar d (h d hd) c hcd

theorem printable_decimal (v : Int) : ∀ c ∈ (Text.decimal v).toList, Printable c := by
  have hdigits : ∀ c ∈ Text.Decimal.digits v.natAbs, Printable c := by
    intro c hc
    have hdigit := Assembly.isDigit_of_mem_digits hc
    simp only [Char.isDigit, Bool.and_eq_true, decide_eq_true_iff, ge_iff_le,
      UInt32.le_iff_toNat_le] at hdigit
    left
    change 48 ≤ c.toNat ∧ c.toNat ≤ 57 at hdigit
    omega
  unfold Text.decimal Text.Decimal.spell
  rw [String.toList_ofList]
  split
  · exact List.forall_mem_cons.mpr ⟨by decide, hdigits⟩
  · exact hdigits

/-- No line end stands in the entry. -/
def Entry.Flat (e : Entry) : Prop :=
  OneLine e.message.toList ∧ ∀ value ∈ e.values, OneLine value.1.toList ∧ OneLine value.2.toList

/-- The characters of the line of an entry. -/
theorem Entry.toList_text (e : Entry) :
    e.text.toList = e.level.name.toList ++ ' ' :: (e.component.target.toList ++ ':' :: ' ' ::
      ((spelled e.message).toList ++
        e.values.flatMap fun value => ' ' :: (value.1.toList ++ '=' :: value.2.toList))) := by
  simp [text, toString, String.toList_join, List.flatMap_map]

theorem Entry.oneLine_text {e : Entry} (h : e.Flat) : OneLine e.text.toList := by
  have hlevel : OneLine e.level.name.toList := by
    cases e.level <;> simp [Level.name]
  have htarget : OneLine e.component.target.toList := by
    cases e.component <;> simp [Component.target]
  have hvalues : OneLine
      (e.values.flatMap fun value => ' ' :: (value.1.toList ++ '=' :: value.2.toList)) := by
    intro c hc
    obtain ⟨value, hv, hc⟩ := List.mem_flatMap.mp hc
    have hvalue : OneLine (' ' :: (value.1.toList ++ '=' :: value.2.toList)) := by
      simp [h.2 value hv]
    exact hvalue c hc
  rw [Entry.toList_text]
  simp [hlevel, htarget, hvalues, oneLine_spelled h.1]

end ByteMachine.Log

/-! ## §2. What is told of assembling. -/

namespace ByteMachine.Assembly

/-- The labels of the noted jumps are names. -/
def Draft.Named (d : Draft) : Prop := ∀ jump ∈ d.pending.toList, Name jump.label

theorem Draft.named_empty : Draft.Named {} := List.forall_mem_nil _

/-- A child that is written adds no jump without a name. -/
theorem Draft.Named.addNode {d next : Draft} (h : d.Named) {node : Tree} (hw : node.Written)
    (hn : d.addNode node = .ok next) : next.Named := by
  cases hw with
  | label =>
    cases hn
    exact h
  | line hs hspellable =>
    simp only [Draft.addNode, ofLine_of_says hs] at hn
    cases hn
    cases hs with
    | jump condition name =>
      have hname : Name name :=
        hspellable (.label name) (List.mem_cons_of_mem _ List.mem_cons_self)
      show ∀ jump ∈ (d.pending.push _).toList, Name jump.label
      rw [Array.toList_push]
      exact List.forall_mem_append.mpr ⟨h, List.forall_mem_singleton.mpr hname⟩
    | _ => exact h

namespace Trail

open Log (Entry)

/-- The entries are for those who debug or trace, and each is one line. -/
def Quiet (entries : List Entry) : Prop :=
  ∀ e ∈ entries, (e.level = .debug ∨ e.level = .trace) ∧ e.Flat

theorem quiet_nil : Quiet [] := List.forall_mem_nil _

theorem quiet_cons {e : Entry} {entries : List Entry} (hl : e.level = .debug ∨ e.level = .trace)
    (he : e.Flat) (h : Quiet entries) : Quiet (e :: entries) :=
  List.forall_mem_cons.mpr ⟨⟨hl, he⟩, h⟩

theorem quiet_append {first second : List Entry} (hf : Quiet first) (hs : Quiet second) :
    Quiet (first ++ second) :=
  List.forall_mem_append.mpr ⟨hf, hs⟩

@[simp] theorem oneLine_shown (n : Nat) : OneLine (shown n).toList := oneLine_decimal n

theorem quiet_ofReading (source : String) : Quiet (ofReading source) := by
  have hscanned : ∀ tokens, (scanned tokens).Flat := fun _ => by simp [scanned, Entry.Flat]
  have hread : ∀ tree, (read tree).Flat := fun _ => by simp [read, Entry.Flat]
  unfold ofReading
  split
  · exact quiet_nil
  · split
    · exact quiet_cons (.inr rfl) (hscanned _) quiet_nil
    · exact quiet_cons (.inr rfl) (hscanned _) (quiet_cons (.inr rfl) (hread _) quiet_nil)

theorem quiet_ofNode (d : Draft) {node : Tree} (h : node.Written) : Quiet (ofNode d node) := by
  cases h with
  | @label name h =>
    have hname := oneLine_of_name h
    show Quiet (_ :: ((d.labels.find? name).map (redefined name · d.offset)).toList)
    refine quiet_cons (.inr rfl) (by simp [Entry.Flat, hname]) ?_
    cases d.labels.find? name with
    | none => exact quiet_nil
    | some earlier =>
      exact quiet_cons (.inr rfl) (by simp [redefined, Entry.Flat, hname]) quiet_nil
  | line => exact quiet_nil

theorem quiet_ofJumps (labels : LabelTable) {jumps : List PendingJump}
    (h : ∀ jump ∈ jumps, Name jump.label) : Quiet (ofJumps labels jumps) := by
  induction jumps with
  | nil => exact quiet_nil
  | cons jump rest ih =>
    obtain ⟨hjump, hrest⟩ := List.forall_mem_cons.mp h
    unfold ofJumps
    split
    · exact quiet_cons (.inr rfl) (by simp [Entry.Flat, oneLine_of_name hjump]) (ih hrest)
    · exact quiet_nil

theorem quiet_ofNodes {nodes : List Tree} (h : ∀ node ∈ nodes, node.Written) :
    ∀ {d : Draft}, d.Named → Quiet (ofNodes d nodes) := by
  induction nodes with
  | nil =>
    intro d hd
    exact quiet_cons (.inl rfl) (by simp [laidOut, Entry.Flat]) (quiet_ofJumps _ hd)
  | cons node rest ih =>
    intro d hd
    obtain ⟨hnode, hrest⟩ := List.forall_mem_cons.mp h
    unfold ofNodes
    refine quiet_append (quiet_ofNode d hnode) ?_
    split
    · exact ih hrest (hd.addNode hnode ‹_›)
    · exact quiet_nil

/-- **Assembling tells of its work, on one line each, and does not warn.** -/
theorem quiet_ofAssembling (source : String) : Quiet (ofAssembling source) := by
  refine quiet_append (quiet_ofReading source) ?_
  split
  · exact quiet_nil
  · rename_i tree htree
    obtain ⟨hroot, hwritten⟩ := written_of_ofSource htree
    refine quiet_append ?_ ?_
    · rw [hroot]
      exact quiet_ofNodes hwritten Draft.named_empty
    · split
      · exact quiet_cons (.inl rfl) (by simp [assembled, Entry.Flat]) quiet_nil
      · exact quiet_nil

end Trail

end ByteMachine.Assembly

/-! ## §3. Lines that can be told apart. -/

namespace ByteMachine.CommandLine

open Assembly (OneLine sourceLines textLines)
open Assembly.Trail (Quiet)
open Log (Entry Level)

/-- Whether a line is a warning. -/
def Line.isWarning : Line → Bool
  | .entry e => e.level == .warn
  | .plain _ => false

/-- Whether a text begins as a warning does. -/
def warns (text : String) : Bool := Level.warn.name.toList.isPrefixOf text.toList

/-- The line is read as what it is: no line end stands in it, and it begins as a warning does only
if it is one. -/
structure Line.Legible (l : Line) : Prop where
  oneLine : OneLine l.text.toList
  warns_text : warns l.text = l.isWarning

theorem legible_entry {e : Entry} (h : e.Flat) : (Line.entry e).Legible where
  oneLine := e.oneLine_text h
  warns_text := by
    show warns e.text = (e.level == .warn)
    unfold warns
    rw [Entry.toList_text]
    cases e.level <;> rfl

/-- **Lines without line ends are read as they were told.** -/
theorem textLines_shownLines {threshold : Level} {lines : List Line}
    (h : ∀ l ∈ lines, OneLine l.text.toList) :
    textLines (shownLines threshold lines)
      = (lines.filter (·.shown threshold)).map Line.text ++ [""] := by
  have hshown : ∀ l ∈ lines.filter (·.shown threshold), OneLine l.text.toList :=
    fun l hl => h l (List.mem_filter.mp hl).1
  unfold textLines sourceLines shownLines
  rw [String.toList_join, List.flatMap_map]
  generalize lines.filter (·.shown threshold) = shown at hshown
  induction shown with
  | nil => rfl
  | cons l shown ih =>
    obtain ⟨hl, hshown⟩ := List.forall_mem_cons.mp hshown
    rw [List.flatMap_cons, String.toList_append, List.append_assoc]
    show (segments _ (l.text.toList ++ '\n' :: _)).map String.ofList = _
    rw [segments_append_cons hl rfl, List.map_cons, String.ofList_toList]
    exact congrArg (l.text :: ·) (ih hshown)

/-- **The warnings that can be read** are those that were told and are shown. -/
theorem filter_warns {threshold : Level} {lines : List Line} (h : ∀ l ∈ lines, l.Legible) :
    (textLines (shownLines threshold lines)).filter warns
      = ((lines.filter Line.isWarning).filter (·.shown threshold)).map Line.text := by
  have hwarns : (lines.filter (·.shown threshold)).filter (warns ∘ Line.text)
      = (lines.filter (·.shown threshold)).filter Line.isWarning :=
    List.filter_congr fun l hl => (h l (List.mem_filter.mp hl).1).warns_text
  have hempty : [""].filter warns = [] := by decide
  rw [textLines_shownLines fun l hl => (h l hl).oneLine, List.filter_append, hempty,
    List.append_nil, List.filter_map, hwarns, List.filter_comm]

/-- Entries that are quiet are read as what they are. -/
theorem legible_of_quiet {entries : List Entry} (h : Quiet entries) :
    ∀ l ∈ entries.map Line.entry, l.Legible := by
  intro l hl
  obtain ⟨e, he, rfl⟩ := List.mem_map.mp hl
  exact legible_entry (h e he).2

/-- Entries that are quiet are no warnings. -/
theorem warnings_of_quiet {entries : List Entry} (h : Quiet entries) :
    (entries.map Line.entry).filter Line.isWarning = [] := by
  refine List.filter_eq_nil_iff.mpr fun l hl => ?_
  obtain ⟨e, he, rfl⟩ := List.mem_map.mp hl
  intro hw
  have hlevel : e.level = .warn := beq_iff_eq.mp hw
  rcases (h e he).1 with hd | ht
  · cases hd.symm.trans hlevel
  · cases ht.symm.trans hlevel

/-- **What is told of the work is not shown** by a threshold that hides it. -/
theorem shownLines_quiet {entries : List Entry} (h : Quiet entries) {level : Level}
    (hl : level.shows .debug = false) (lines : List Line) :
    shownLines level (entries.map .entry ++ lines) = shownLines level lines := by
  have htrace : level.shows .trace = false := by
    revert hl
    cases level <;> decide
  have hhidden : (entries.map Line.entry).filter (·.shown level) = [] := by
    refine List.filter_eq_nil_iff.mpr fun l hmem => ?_
    obtain ⟨e, he, rfl⟩ := List.mem_map.mp hmem
    show ¬ level.shows e.level = true
    rcases (h e he).1 with hd | ht
    · rw [hd, hl]
      exact Bool.false_ne_true
    · rw [ht, htrace]
      exact Bool.false_ne_true
  unfold shownLines
  rw [List.filter_append, hhidden, List.nil_append]

/-- **A complaint is shown by every threshold**, with the name of the program in front. -/
theorem shownLines_complaint (level : Level) (component : Log.Component) (message : String) :
    shownLines level [.entry ⟨.error, component, message, []⟩]
      = "ERROR " ++ component.target ++ ": " ++ Log.spelled message ++ "\n" := by
  have hshown : (Line.entry ⟨.error, component, message, []⟩).shown level = true := by
    cases level <;> rfl
  unfold shownLines
  rw [List.filter_cons_of_pos hshown]
  apply String.toList_inj.mp
  simp [Line.text, Log.Entry.toList_text, Level.name]

/-! ## §4. The lines of the emulator. -/

namespace Emulator

open Machine (Event Run Session)

variable {o : Options} {image : Image} {place : Except FileError Place}

theorem quiet_loadTrail (o : Options) (place : Except FileError Place) :
    Quiet (loadTrail o place) := by
  unfold loadTrail
  split
  · split
    · exact Assembly.Trail.quiet_nil
    · exact Assembly.Trail.quiet_ofAssembling _
  · exact Assembly.Trail.quiet_nil

/-- An echoed instruction begins with its offset. -/
theorem legible_echo (offset : Machine.Pointer) (i : Instruction) :
    (Line.plain (Event.echo offset i)).Legible where
  oneLine := by
    show OneLine (Event.echo offset i).toList
    simp [Event.echo, toString]
  warns_text := by
    show warns (Event.echo offset i) = false
    simp [warns, Event.echo, Text.hexPrefixed, Level.name, toString, List.isPrefixOf]

/-- Events are echoed or told as entries on jumps, neither of which is a warning. -/
theorem mem_narration {l : Line} {limit : Nat} {s : Session}
    (h : l ∈ narration o image limit s) : l.Legible ∧ l.isWarning = false := by
  unfold narration at h
  split at h
  · obtain ⟨event, -, hevent⟩ := List.mem_filterMap.mp h
    cases event with
    | read offset i =>
      change (if o.echo then some _ else none) = some l at hevent
      split at hevent
      · cases hevent
        exact ⟨legible_echo offset i, rfl⟩
      · cases hevent
    | jump condition target =>
      cases hevent
      exact ⟨legible_entry (by simp [Event.taken, Log.Entry.Flat]), rfl⟩
  · cases h

theorem oneLine_flags (flags : Machine.Flags) : OneLine flags.text.toList := by
  have hmarks : OneLine (" | ".intercalate flags.marks).toList := by
    unfold Machine.Flags.marks
    rw [String.toList_intercalate]
    cases flags.zero <;> cases flags.greater <;> cases flags.less <;> simp [List.intercalate]
  have hinner : ∀ inner : String, OneLine inner.toList →
      OneLine ("Flags(" ++ inner ++ ")").toList := by
    intro inner h
    simp [h]
  refine hinner _ ?_
  split
  · exact Assembly.oneLine_hexPrefixed 1 0
  · exact hmarks

theorem oneLine_fault (fault : Machine.Fault) : OneLine fault.message.toList := by
  cases fault with
  | decode cause =>
    show OneLine cause.message.toList
    unfold DecodeError.message
    cases cause <;> simp [toString]
  | _ => simp [Machine.Fault.message]

/-- What is told when a run is over is one line each. -/
theorem flat_closing (o : Options) (image : Image) (run : Run) :
    ∀ e ∈ closing o image run, e.Flat := by
  have hcut : ∀ e ∈ cutShort o image run, e.Flat := by
    unfold cutShort
    split
    · simp [Log.Entry.Flat, toString]
    · exact List.forall_mem_nil _
  have hregisters : ∀ e ∈ Register.all.map (registerEntry run.session.machine), e.Flat := by
    intro e he
    obtain ⟨reg, -, rfl⟩ := List.mem_map.mp he
    simp [registerEntry, Log.Entry.Flat, toString]
  have hfinal : (finalState run.session.machine).Flat := by
    simp [finalState, Log.Entry.Flat, oneLine_flags]
  have hfault : ∀ e ∈ (run.fault.map (complaint ·.message)).toList, e.Flat := by
    cases run.fault with
    | none => exact List.forall_mem_nil _
    | some fault =>
      exact List.forall_mem_singleton.mpr (by simp [complaint, Log.Entry.Flat, oneLine_fault])
  unfold closing
  exact List.forall_mem_append.mpr ⟨List.forall_mem_append.mpr ⟨List.forall_mem_append.mpr
    ⟨hcut, hregisters⟩, List.forall_mem_singleton.mpr hfinal⟩, hfault⟩

/-- Of what is told when a run is over, only that it was cut short is a warning. -/
theorem warnings_closing (o : Options) (image : Image) (run : Run) :
    ((closing o image run).map Line.entry).filter Line.isWarning
      = (cutShort o image run).map .entry := by
  have hregisters : (((Register.all.map (registerEntry run.session.machine)).map
      Line.entry).filter Line.isWarning) = [] := rfl
  have hfinal : ((([finalState run.session.machine]).map Line.entry).filter
      Line.isWarning) = [] := rfl
  have hfault : ((((run.fault.map (complaint ·.message)).toList).map Line.entry).filter
      Line.isWarning) = [] := by
    cases run.fault <;> rfl
  have hcut : ((cutShort o image run).map Line.entry).filter Line.isWarning
      = (cutShort o image run).map .entry := by
    unfold cutShort
    split <;> rfl
  unfold closing
  simp only [List.map_append, List.filter_append]
  rw [hcut, hregisters, hfinal, hfault, List.append_nil, List.append_nil, List.append_nil]

/-- What is told of loading stands in front of the report on the run. -/
theorem work_of_load (h : load o place = .ok image) :
    work o place = { report o image with
      lines := (loadTrail o place).map .entry ++ (report o image).lines } := by
  unfold work
  rw [h]

/-- The lines of the work on an image that can be loaded. -/
theorem lines_work (h : load o place = .ok image) :
    (work o place).lines = (loadTrail o place).map Line.entry ++
      (.entry (loaded image) :: narration o image o.steps {} ++
        (closing o image (Session.runFor image o.steps {})).map .entry) := by
  rw [work_of_load h]
  rfl

/-- **The emulator warns of a machine that was cut short**, and of nothing else. -/
theorem warnings_work (h : load o place = .ok image) :
    (work o place).lines.filter Line.isWarning
      = (cutShort o image (Session.runFor image o.steps {})).map .entry := by
  have hloaded : Line.isWarning (.entry (loaded image)) = false := rfl
  have hnarration : (narration o image o.steps {}).filter Line.isWarning = [] :=
    List.filter_eq_nil_iff.mpr fun l hl => by simp [(mem_narration hl).2]
  rw [lines_work h, List.filter_append, warnings_of_quiet (quiet_loadTrail o place),
    List.nil_append, List.filter_append, List.filter_cons, hloaded, hnarration, warnings_closing]
  rfl

/-- **Each line of the emulator is read as what it is.** -/
theorem legible_work (h : load o place = .ok image) : ∀ l ∈ (work o place).lines, l.Legible := by
  have hloaded : (Line.entry (loaded image)).Legible :=
    legible_entry (by simp [loaded, Log.Entry.Flat])
  have hnarration : ∀ l ∈ narration o image o.steps {}, l.Legible :=
    fun l hl => (mem_narration hl).1
  have hclosing : ∀ l ∈ (closing o image (Session.runFor image o.steps {})).map Line.entry,
      l.Legible := by
    intro l hl
    obtain ⟨e, he, rfl⟩ := List.mem_map.mp hl
    exact legible_entry (flat_closing _ _ _ e he)
  rw [lines_work h]
  exact List.forall_mem_append.mpr ⟨legible_of_quiet (quiet_loadTrail o place),
    List.forall_mem_append.mpr ⟨List.forall_mem_cons.mpr ⟨hloaded, hnarration⟩, hclosing⟩⟩

/-! ## §5. The warning that can be read. -/

/-- The line that warns of a machine cut short after so many steps. -/
def stoppedAfter (n : Nat) : String :=
  "WARN octet_emu: Stopped after " ++ Text.decimal n ++ " instructions"

theorem stoppedAfter_inj {m n : Nat} : stoppedAfter m = stoppedAfter n ↔ m = n := by
  unfold stoppedAfter
  rw [String.append_left_inj, String.append_right_inj, Text.decimal_inj, Int.ofNat_inj]

theorem warns_stoppedAfter (n : Nat) : warns (stoppedAfter n) = true := by
  unfold warns stoppedAfter
  simp [Level.name, List.isPrefixOf]

/-- The entry on a machine cut short is shown as that line. -/
theorem text_stoppedAfter (n : Nat) :
    Log.Entry.text ⟨.warn, .emulator, s!"Stopped after {Text.decimal n} instructions", []⟩
      = stoppedAfter n := by
  have hprintable : ∀ c ∈ (s!"Stopped after {Text.decimal n} instructions").toList,
      Log.Printable c := by
    have hopening : ∀ c ∈ "Stopped after ".toList, Log.Printable c := by simp [Log.Printable]
    have hending : ∀ c ∈ " instructions".toList, Log.Printable c := by simp [Log.Printable]
    show ∀ c ∈ ("Stopped after " ++ Text.decimal n ++ " instructions").toList, Log.Printable c
    rw [String.toList_append, String.toList_append]
    exact List.forall_mem_append.mpr
      ⟨List.forall_mem_append.mpr ⟨hopening, Log.printable_decimal n⟩, hending⟩
  apply String.toList_inj.mp
  rw [Log.Entry.toList_text, Log.spelled_of_printable hprintable]
  unfold stoppedAfter
  simp [Level.name, Log.Component.target, toString]

/-- **The one warning that can be read** says that the machine was cut short, if it was and the
threshold shows warnings. -/
theorem printed_warnings (h : load o place = .ok image) :
    let run := Session.runFor image o.steps {}
    (textLines (shownLines o.level (work o place).lines)).filter warns
      = if o.level.shows .warn && (run.session.running image && run.fault.isNone)
        then [stoppedAfter o.steps] else [] := by
  intro run
  rw [filter_warns (legible_work h), warnings_work h]
  unfold cutShort
  by_cases hcut : (run.session.running image && run.fault.isNone) = true
  · rw [if_pos hcut, hcut, Bool.and_true, List.map_singleton, List.filter_singleton]
    show List.map _ (bif o.level.shows .warn then _ else _) = _
    cases o.level.shows .warn with
    | false => rfl
    | true => exact congrArg (fun text => [text]) (text_stoppedAfter o.steps)
  · rw [if_neg hcut, eq_false_of_ne_true hcut, Bool.and_false]
    rfl

/-- **The warning is read exactly if the machine did not fault and would go on**, and with no other
number of steps than the limit. -/
theorem stoppedAfter_mem_iff (h : load o place = .ok image) {m : Nat} :
    stoppedAfter m ∈ textLines (shownLines o.level (work o place).lines)
      ↔ m = o.steps ∧ o.level.shows .warn = true
        ∧ (Session.runFor image o.steps {}).fault = none
        ∧ (Session.runFor image o.steps {}).session.running image = true := by
  have hfilter : stoppedAfter m ∈ textLines (shownLines o.level (work o place).lines)
      ↔ stoppedAfter m ∈ (textLines (shownLines o.level (work o place).lines)).filter warns := by
    rw [List.mem_filter]
    exact (and_iff_left (warns_stoppedAfter m)).symm
  have hcut : ∀ {running : Bool} {fault : Option Machine.Fault},
      (o.level.shows .warn && (running && fault.isNone)) = true
        ↔ o.level.shows .warn = true ∧ fault = none ∧ running = true := by
    intro running fault
    rw [Bool.and_eq_true, Bool.and_eq_true, Option.isNone_iff_eq_none, and_comm (b := fault = none)]
  rw [hfilter, printed_warnings h, ← hcut]
  split
  · rename_i hwarned
    rw [List.mem_singleton, stoppedAfter_inj]
    exact (and_iff_left hwarned).symm
  · rename_i hsilent
    exact iff_of_false List.not_mem_nil fun hm => hsilent hm.2

end Emulator

end ByteMachine.CommandLine
