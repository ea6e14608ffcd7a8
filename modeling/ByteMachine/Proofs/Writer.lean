/-
  ByteMachine.Proofs.Writer — printing to anything that takes characters.

  The output of a session has room for everything or for so many characters.  A writer in general
  does as it likes: it is offered some characters and takes a beginning of them, perhaps only a
  few; to take none is to refuse, for whatever reason.  A text is handed over in pieces, each piece
  is offered until it has been taken in full, and the first refusal ends the matter.

    • `Receipt.Covers` — what is said of a text that was handed over: it was taken in full, or a
      proper beginning of it was,
    • `Writer.covers_print` — whatever the writer does, one of the two is the case,
    • `stepTo` — a step of the machine that prints to a writer,
    • `step_eq_stepTo` — a step of a session is one that prints to its output.
-/
import ByteMachine.Proofs.Steps

namespace ByteMachine.Machine

variable {σ : Type}

/-! ## §1. Writers. -/

/-- Something that takes printed text, with a state of its own. -/
structure Writer (σ : Type) where
  /-- The pieces in which a text is handed over. -/
  pieces : List Char → List (List Char)
  /-- Cutting a text neither loses nor adds anything. -/
  flatten_pieces : ∀ text, (pieces text).flatten = text
  /-- How many of the characters offered are taken, and what becomes of the writer.  An offer that
  is only interrupted is made again and counts as one with the next. -/
  offer : σ → List Char → Nat × σ

/-- What became of a text that was handed to a writer. -/
structure Receipt (σ : Type) where
  taken : List Char
  writer : σ
  complete : Bool

/-- The receipt of something that comes behind what was taken. -/
def Receipt.behind (before : List Char) (r : Receipt σ) : Receipt σ :=
  { r with taken := before ++ r.taken }

/-- The text was taken in full, or a beginning of it was to which at least a character is
missing. -/
def Receipt.Covers (r : Receipt σ) (text : List Char) : Prop :=
  (r.complete = true ∧ r.taken = text)
    ∨ (r.complete = false ∧ ∃ c rest, text = r.taken ++ c :: rest)

/-- Behind what was taken, the receipt covers the text behind it. -/
theorem Receipt.Covers.behind {r : Receipt σ} {text : List Char} (h : r.Covers text)
    (before : List Char) : (r.behind before).Covers (before ++ text) := by
  rcases h with ⟨hc, rfl⟩ | ⟨hc, c, rest, rfl⟩
  · exact .inl ⟨hc, rfl⟩
  · exact .inr ⟨hc, c, rest, (List.append_assoc before r.taken (c :: rest)).symm⟩

namespace Writer

/-- Offers a piece until it has been taken in full, or nothing of it is. -/
def put (w : Writer σ) (st : σ) : List Char → Receipt σ
  | [] => ⟨[], st, true⟩
  | c :: rest =>
    match w.offer st (c :: rest) with
    | (0, next) => ⟨[], next, false⟩
    | (n + 1, next) => (w.put next (rest.drop n)).behind (c :: rest.take n)
termination_by piece => piece.length
decreasing_by
  -- at least one character was taken, so the rest is shorter
  rw [List.length_drop, List.length_cons]
  omega

/-- Hands over pieces in order, up to the first that is not taken in full. -/
def putAll (w : Writer σ) (st : σ) : List (List Char) → Receipt σ
  | [] => ⟨[], st, true⟩
  | piece :: rest =>
    let first := w.put st piece
    if first.complete then (w.putAll first.writer rest).behind first.taken else first

/-- Hands over a text. -/
def print (w : Writer σ) (st : σ) (text : String) : Receipt σ :=
  w.putAll st (w.pieces text.toList)

theorem put_of_refused {w : Writer σ} {st next : σ} {c : Char} {rest : List Char}
    (h : w.offer st (c :: rest) = (0, next)) : w.put st (c :: rest) = ⟨[], next, false⟩ := by
  rw [put]
  split <;> simp_all

theorem put_of_taken {w : Writer σ} {st next : σ} {c : Char} {rest : List Char} {n : Nat}
    (h : w.offer st (c :: rest) = (n + 1, next)) :
    w.put st (c :: rest) = (w.put next (rest.drop n)).behind (c :: rest.take n) := by
  rw [put]
  split <;> simp_all

theorem covers_put (w : Writer σ) (st : σ) (piece : List Char) : (w.put st piece).Covers piece := by
  fun_induction put w st piece with
  | case1 st => exact .inl ⟨rfl, rfl⟩
  | case2 st c rest next _ => exact .inr ⟨rfl, c, rest, rfl⟩
  | case3 st c rest n next _ ih =>
    have hbehind := ih.behind (c :: rest.take n)
    rwa [List.cons_append, List.take_append_drop] at hbehind

theorem covers_putAll (w : Writer σ) (pieces : List (List Char)) :
    ∀ st : σ, (w.putAll st pieces).Covers pieces.flatten := by
  induction pieces with
  | nil => intro st; exact .inl ⟨rfl, rfl⟩
  | cons piece rest ih =>
    intro st
    rw [putAll, List.flatten_cons]
    rcases w.covers_put st piece with ⟨hc, hpiece⟩ | ⟨hc, c, more, hpiece⟩
    · rw [if_pos hc, hpiece]
      exact (ih _).behind piece
    · -- what is missing of the piece is missing of the text
      rw [if_neg (by simp [hc])]
      refine .inr ⟨hc, c, more ++ rest.flatten, ?_⟩
      conv => lhs; rw [hpiece]
      rw [List.append_assoc]
      rfl

/-- A single piece is handed over as it is. -/
theorem putAll_singleton (w : Writer σ) (st : σ) (piece : List Char) :
    w.putAll st [piece] = w.put st piece := by
  show (if (w.put st piece).complete then
    (⟨(w.put st piece).taken ++ [], (w.put st piece).writer, true⟩ : Receipt σ) else _) = _
  by_cases hc : (w.put st piece).complete = true
  · rw [if_pos hc, List.append_nil, ← hc]
  · rw [if_neg hc]

/-- **Whatever the writer does, it takes the text in full or a proper beginning of it.** -/
theorem covers_print (w : Writer σ) (st : σ) (text : String) :
    (w.print st text).Covers text.toList := by
  have h := w.covers_putAll (w.pieces text.toList) st
  rwa [w.flatten_pieces] at h

end Writer

/-! ## §2. A step that prints to a writer. -/

/-- What a step leaves: the machine, the writer, what was taken of the text printed, and the fault
if one arose. -/
structure Stepped (σ : Type) where
  machine : Machine
  writer : σ
  printed : List Char
  fault : Option Fault

/-- The machine once an instruction whose last byte is at `last` has had its effect.  Only a print
has to do with the writer. -/
def applyTo (w : Writer σ) (m : Machine) (st : σ) (last : Pointer) : Effect → Stepped σ
  | .print v =>
    let receipt := w.print st (line v)
    if receipt.complete then
      ⟨m.goto (last.forward 1), receipt.writer, receipt.taken, none⟩
    else ⟨m.goto last, receipt.writer, receipt.taken, some .output⟩
  | e =>
    let (next, fault) := Session.apply { machine := m } last e
    ⟨next.machine, st, [], fault⟩

/-- Executes the instruction under the pointer, printing to a writer. -/
def stepTo (w : Writer σ) (image : Image) (m : Machine) (st : σ) : Stepped σ :=
  match image.decodeAt m.pointer.toNat with
  | .ok (instruction, size) => m.applyTo w st (m.pointer.lastByte size) (m.effect instruction)
  | .error cause => ⟨m, st, [], some (.decode cause)⟩

section

variable {w : Writer σ} {image : Image} {m : Machine} {st : σ}

theorem stepTo_of_decodeAt {i : Instruction} {n : Nat}
    (h : image.decodeAt m.pointer.toNat = .ok (i, n)) :
    m.stepTo w image st = m.applyTo w st (m.pointer.lastByte n) (m.effect i) := by
  unfold stepTo
  rw [h]

theorem stepTo_of_error {cause : DecodeError}
    (h : image.decodeAt m.pointer.toNat = .error cause) :
    m.stepTo w image st = ⟨m, st, [], some (.decode cause)⟩ := by
  unfold stepTo
  rw [h]

/-- A line that the writer takes in full is printed. -/
theorem applyTo_print_of_complete {last : Pointer} {v : Int}
    (h : (w.print st (line v)).complete = true) :
    m.applyTo w st last (.print v)
      = ⟨m.goto (last.forward 1), (w.print st (line v)).writer, (w.print st (line v)).taken,
          none⟩ :=
  if_pos h

/-- A line that the writer cuts leaves the pointer on the print. -/
theorem applyTo_print_of_cut {last : Pointer} {v : Int}
    (h : (w.print st (line v)).complete = false) :
    m.applyTo w st last (.print v)
      = ⟨m.goto last, (w.print st (line v)).writer, (w.print st (line v)).taken,
          some .output⟩ :=
  if_neg (Bool.not_eq_true _ ▸ h)

end

/-! ## §3. The output as a writer. -/

namespace Output

/-- A writer with room for so many characters, or for everything. -/
def writer : Writer (Option Nat) where
  pieces text := [text]
  flatten_pieces _ := List.flatten_singleton
  offer room text := (({ room } : Output).accepts text.length, room.map (· - text.length))

/-- Without room nothing is taken. -/
theorem put_writer_full {text : List Char} (h : text ≠ []) :
    writer.put (some 0) text = ⟨[], some 0, false⟩ := by
  obtain ⟨c, rest, rfl⟩ := List.exists_cons_of_ne_nil h
  apply Writer.put_of_refused
  show (min (rest.length + 1) 0, some (0 - (rest.length + 1))) = _
  rw [Nat.min_zero, Nat.zero_sub]

/-- A text is cut where the room ends. -/
theorem put_writer (room : Option Nat) (text : List Char) :
    writer.put room text =
      ⟨text.take (({ room } : Output).accepts text.length), room.map (· - text.length),
        ({ room } : Output).fits text.length⟩ := by
  cases text with
  | nil =>
    rw [Writer.put]
    cases room <;> simp [accepts, fits]
  | cons c rest =>
    cases room with
    | none =>
      have hoffer : writer.offer none (c :: rest) = (rest.length + 1, none) := rfl
      rw [Writer.put_of_taken hoffer, List.drop_length, Writer.put]
      simp [Receipt.behind, accepts, fits]
    | some room =>
      have hoffer : writer.offer (some room) (c :: rest)
          = (min (rest.length + 1) room, some (room - (rest.length + 1))) := rfl
      cases room with
      | zero =>
        rw [put_writer_full (List.cons_ne_nil c rest)]
        simp [accepts, fits]
      | succ n =>
        by_cases hn : n < rest.length
        · -- what does not fit finds no room
          have hmin : min (rest.length + 1) (n + 1) = n + 1 := by omega
          have hroom : n + 1 - (rest.length + 1) = 0 := by omega
          have hleft : rest.drop n ≠ [] := by
            intro h
            have := List.drop_eq_nil_iff.mp h
            omega
          rw [hmin, hroom] at hoffer
          rw [Writer.put_of_taken hoffer, put_writer_full hleft]
          simp [Receipt.behind, accepts, fits, hmin, hroom]
          omega
        · have hmin : min (rest.length + 1) (n + 1) = rest.length + 1 := by omega
          rw [hmin] at hoffer
          rw [Writer.put_of_taken hoffer, List.drop_length, Writer.put]
          simp [Receipt.behind, accepts, fits, hmin]

/-- The output's writer takes of a printed text what the output accepts of it. -/
theorem print_writer (o : Output) (text : String) :
    writer.print o.room text =
      ⟨text.toList.take (o.accepts text.length), (o.write text).room, o.fits text.length⟩ := by
  have hput := put_writer o.room text.toList
  rw [String.length_toList] at hput
  show writer.putAll o.room [text.toList] = _
  rw [Writer.putAll_singleton, hput]
  rfl

/-- What is written is what was taken. -/
theorem write_eq (o : Output) (text : String) :
    o.write text = {
      room := (writer.print o.room text).writer,
      written := o.written ++ String.ofList (writer.print o.room text).taken } := by
  have htext : (o.write text).written
      = o.written ++ String.ofList (text.toList.take (o.accepts text.length)) := by
    apply String.toList_inj.mp
    rw [toList_write, String.toList_append, String.toList_ofList]
  rw [print_writer, ← htext]

end Output

/-- **A step of a session is one that prints to its output.** -/
theorem step_eq_stepTo (image : Image) (s : Session) :
    s.step image =
      let r := s.machine.stepTo Output.writer image s.output.room
      ({ machine := r.machine,
         output := { room := r.writer, written := s.output.written ++ String.ofList r.printed } },
        r.fault) := by
  have hsilent : ({ room := s.output.room, written := s.output.written ++ String.ofList [] } :
      Output) = s.output := by
    rw [String.ofList_nil, String.append_empty]
  cases hd : image.decodeAt s.machine.pointer.toNat with
  | error cause =>
    simp only [Session.step_of_error hd, stepTo_of_error hd, hsilent]
  | ok read =>
    obtain ⟨i, n⟩ := read
    simp only [Session.step_of_decodeAt hd, stepTo_of_decodeAt hd]
    cases s.machine.effect i with
    | print v =>
      have hfits : (Output.writer.print s.output.room (line v)).complete
          = s.output.fits (line v).length := by
        rw [Output.print_writer]
      simp only [Session.apply, applyTo, hfits, Output.write_eq]
      split <;> rfl
    | _ => simp only [Session.apply, applyTo, hsilent]

end ByteMachine.Machine
