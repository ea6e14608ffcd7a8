/-
  ByteMachine.Proofs.Room — an output with room for so many bytes, and one that takes everything.

  Two machines run the same image, and only their outputs differ.  Nothing in a machine asks how
  much was printed, so the two do the same as long as the room lasts.  The line that finds too
  little room ends the run of the one, on whichever of its bytes the room ends; of the other it is
  known what that line would have been:

    • `Text.bytes_of_ascii` — printed text is made of characters of one byte each,
    • `Output.print_writerOf` — into which pieces a line is cut does not matter,
    • `Session.within` — a session of which the output has room for so many bytes in all,
    • `step_within`, `step_beyond` — one step, with a line that finds room and one that does not,
    • `runFor_within`, `runFor_beyond` — the same for many steps,
    • `limited_output_cuts_the_run` — so a limit cuts what is written and changes nothing else.
-/
import ByteMachine.Proofs.FailedPrint
import ByteMachine.Proofs.Limits
import ByteMachine.Proofs.Spelling

namespace ByteMachine

/-! ## §1. Text as bytes. -/

namespace Text

/-- The bytes that a text is stored as. -/
def bytes (text : String) : List UInt8 := text.toUTF8.data.toList

/-- Each character has seven bits. -/
def Ascii (text : String) : Prop := ∀ c ∈ text.toList, c.val ≤ 127

variable {first second text : String}

theorem Ascii.append (hf : Ascii first) (hs : Ascii second) : Ascii (first ++ second) := by
  unfold Ascii
  rw [String.toList_append]
  exact List.forall_mem_append.mpr ⟨hf, hs⟩

/-- **A character of seven bits is stored as one byte.** -/
theorem bytes_of_ascii (h : Ascii text) : bytes text = text.toList.map (·.val.toUInt8) := by
  have hbytes : bytes text = text.toList.flatMap String.utf8EncodeChar := by
    conv => lhs; rw [← String.ofList_toList (s := text)]
    show (text.toList.flatMap String.utf8EncodeChar).toByteArray.data.toList = _
    simp
  have hone : ∀ c ∈ text.toList, String.utf8EncodeChar c = [c.val.toUInt8] := fun c hc =>
    String.utf8EncodeChar_eq_singleton (Char.utf8Size_eq_one_iff.mpr (h c hc))
  rw [hbytes, List.map_eq_flatMap]
  exact List.flatMap_congr hone

theorem length_bytes (h : Ascii text) : (bytes text).length = text.length := by
  rw [bytes_of_ascii h, List.length_map, String.length_toList]

/-- The first characters are stored as the first bytes. -/
theorem bytes_take (h : Ascii text) {n : Nat} (hf : first.toList = text.toList.take n) :
    bytes first = (bytes text).take n := by
  have hfirst : Ascii first := fun c hc => h c (List.mem_of_mem_take (hf ▸ hc))
  rw [bytes_of_ascii hfirst, bytes_of_ascii h, hf, List.map_take]

theorem ascii_of_isDigit {c : Char} (h : c.isDigit = true) : c.val ≤ 127 := by
  rw [Char.isDigit, Bool.and_eq_true, decide_eq_true_eq, decide_eq_true_eq] at h
  exact UInt32.le_trans h.2 (by decide)

theorem ascii_spell (v : Int) : ∀ c ∈ Decimal.spell v, c.val ≤ 127 := by
  have hdigits : ∀ c ∈ Decimal.digits v.natAbs, c.val ≤ 127 := fun _ hc =>
    ascii_of_isDigit (Assembly.isDigit_of_mem_digits hc)
  unfold Decimal.spell
  split
  · exact List.forall_mem_cons.mpr ⟨by decide, hdigits⟩
  · exact hdigits

end Text

namespace Machine

open Text (Ascii bytes)

theorem ascii_line (v : Int) : Ascii (line v) := by
  have hend : Ascii "\n" := List.forall_mem_singleton.mpr (by decide)
  refine Ascii.append ?_ hend
  unfold Ascii Text.decimal
  rw [String.toList_ofList]
  exact Text.ascii_spell v

/-! ## §2. Lines in pieces. -/

namespace Output

/-- The output as a writer to which a text is handed over in pieces, however it is cut. -/
def writerOf (pieces : List Char → List (List Char))
    (flatten_pieces : ∀ text, (pieces text).flatten = text) : Writer (Option Nat) :=
  { writer with pieces, flatten_pieces }

variable {pieces : List Char → List (List Char)} {h : ∀ text, (pieces text).flatten = text}

/-- A single piece is offered in the same way. -/
theorem put_writerOf (room : Option Nat) (piece : List Char) :
    (writerOf pieces h).put room piece = writer.put room piece := by
  fun_induction Writer.put writer room piece with
  | case1 room => rw [Writer.put]
  | case2 room c rest next hoffer => exact Writer.put_of_refused hoffer
  | case3 room c rest n next hoffer ih =>
    rw [Writer.put_of_taken (w := writerOf pieces h) hoffer, ih]

/-- Behind a text that fits, more is put where the text has left room. -/
theorem put_writer_append (room : Option Nat) (first second : List Char) :
    writer.put room (first ++ second) =
      let r := writer.put room first
      if r.complete then (writer.put r.writer second).behind r.taken else r := by
  simp only [put_writer, Receipt.behind, List.length_append]
  cases room with
  | none => simp [accepts, fits]
  | some room =>
    by_cases hlen : first.length ≤ room
    · have hfits : ({ room := some room } : Output).fits first.length = true := by
        simp [fits, accepts, hlen]
      have htake : min (first.length + second.length) room
          = first.length + min second.length (room - first.length) := by omega
      have hroom : room - (first.length + second.length)
          = room - first.length - second.length := by omega
      rw [if_pos hfits]
      simp only [accepts, fits, Option.map_some, htake, hroom, Nat.min_eq_left hlen,
        List.take_append, Nat.add_sub_cancel_left, Nat.add_le_add_iff_left, Receipt.mk.injEq]
      rw [List.take_of_length_le (Nat.le_add_right _ _), List.take_length]
      exact ⟨rfl, trivial, rfl⟩
    · have hcut : ¬ ({ room := some room } : Output).fits first.length = true := by
        simp [fits, accepts, hlen]
      have htake : min (first.length + second.length) room = min first.length room := by omega
      have hroom : room - (first.length + second.length) = room - first.length := by omega
      rw [if_neg hcut]
      simp only [accepts, fits, Option.map_some, htake, hroom, List.take_append, Receipt.mk.injEq]
      refine ⟨?_, trivial, decide_eq_decide.mpr (by omega)⟩
      rw [Nat.sub_eq_zero_of_le (Nat.min_le_left _ _), List.take_zero, List.append_nil]

theorem putAll_writerOf (list : List (List Char)) : ∀ room : Option Nat,
    (writerOf pieces h).putAll room list = writer.put room list.flatten := by
  induction list with
  | nil =>
    intro room
    show _ = writer.put room []
    rw [Writer.put]
    rfl
  | cons piece rest ih =>
    intro room
    rw [Writer.putAll, List.flatten_cons, put_writer_append, put_writerOf, ih]

/-- **Into which pieces a text is cut does not matter**: the same of it is taken. -/
theorem print_writerOf (room : Option Nat) (text : String) :
    (writerOf pieces h).print room text = writer.print room text := by
  show (writerOf pieces h).putAll room (pieces text.toList) = writer.putAll room [text.toList]
  rw [putAll_writerOf, h, Writer.putAll_singleton]

end Output

/-- A step prints the same, into whichever pieces its line is cut. -/
theorem stepTo_writerOf {pieces : List Char → List (List Char)}
    {h : ∀ text, (pieces text).flatten = text} (image : Image) (m : Machine) (room : Option Nat) :
    m.stepTo (Output.writerOf pieces h) image room = m.stepTo Output.writer image room := by
  cases hd : image.decodeAt m.pointer.toNat with
  | error cause => rw [stepTo_of_error hd, stepTo_of_error hd]
  | ok read =>
    rw [stepTo_of_decodeAt hd, stepTo_of_decodeAt hd]
    cases m.effect read.1 with
    | print v => simp only [applyTo, Output.print_writerOf]
    | _ => rfl

/-! ## §3. One line. -/

namespace Output

variable {o : Output} {text : String} {room : Nat}

/-- The output with room for so many characters in all, those that are written among them. -/
def within (o : Output) (room : Nat) : Output := { o with room := some (room - o.written.length) }

theorem fits_within_iff (h : o.written.length ≤ room) :
    (o.within room).fits text.length = true ↔ o.written.length + text.length ≤ room := by
  show decide (_ ≤ min _ (room - o.written.length)) = true ↔ _
  rw [decide_eq_true_eq]
  omega

/-- A text that finds room is written as it would be without a limit. -/
theorem write_within (hroom : o.room = none) (h : o.written.length + text.length ≤ room) :
    (o.within room).write text = (o.write text).within room := by
  have hwritten := Source.written_of_unlimited hroom text
  have hfits := (fits_within_iff (Nat.le_of_add_right_le h)).mpr h
  show Output.mk (some (room - o.written.length - text.length)) (o.written ++ if _ then _ else _)
    = Output.mk (some (room - (o.write text).written.length)) (o.write text).written
  rw [if_pos hfits, hwritten, String.length_append, Nat.sub_sub]

/-- A text that does not find room is written as far as the room goes. -/
theorem write_beyond (hroom : o.room = none) (hle : o.written.length ≤ room)
    (hlt : room < o.written.length + text.length) :
    ((o.within room).write text).room = some 0
      ∧ ((o.within room).write text).written.toList = (o.write text).written.toList.take room := by
  have hcut : ¬ (o.within room).fits text.length = true := fun h =>
    Nat.not_lt.mpr ((fits_within_iff hle).mp h) hlt
  refine ⟨room_of_cut hcut, ?_⟩
  have hall : o.written.toList.take room = o.written.toList :=
    List.take_of_length_le (by rwa [String.length_toList])
  have hroom' : min text.length (room - o.written.length) = room - o.written.length := by omega
  rw [toList_write, Source.written_of_unlimited hroom, String.toList_append, List.take_append, hall,
    String.length_toList]
  show o.written.toList ++ text.toList.take (min text.length (room - o.written.length)) = _
  rw [hroom']

end Output

namespace Session

variable {image : Image} {s : Session} {src : Operand} {n room : Nat}

/-! ## §4. One step. -/

/-- An effect other than a print has nothing to do with the output. -/
theorem apply_silent {e : Effect} (h : ∀ v, e ≠ .print v) (m : Machine) (last : Pointer) :
    ∃ next outcome, ∀ o : Output, apply ⟨m, o⟩ last e = (⟨next, o⟩, outcome) := by
  refine ⟨(apply ⟨m, {}⟩ last e).1.machine, (apply ⟨m, {}⟩ last e).2, fun o => ?_⟩
  cases e with
  | print v => exact absurd rfl (h v)
  | _ => rfl

/-- A step prints a line, or it has nothing to do with the output. -/
theorem print_or_silent (image : Image) (m : Machine) :
    (∃ src n, image.decodeAt m.pointer.toNat = .ok (.print src, n))
      ∨ ∃ next outcome, ∀ o : Output, step image ⟨m, o⟩ = (⟨next, o⟩, outcome) := by
  cases hd : image.decodeAt m.pointer.toNat with
  | error cause => exact .inr ⟨m, _, fun o => step_of_error (s := ⟨m, o⟩) hd⟩
  | ok read =>
    obtain ⟨i, n⟩ := read
    by_cases hprint : ∃ v, m.effect i = .print v
    · obtain ⟨v, hv⟩ := hprint
      have hasks := asks_effect m i
      rw [hv] at hasks
      cases hasks with
      | print src => exact .inl ⟨src, n, rfl⟩
    · obtain ⟨next, outcome, h⟩ := apply_silent (fun v hv => hprint ⟨v, hv⟩) m (m.pointer.lastByte n)
      exact .inr ⟨next, outcome, fun o => (step_of_decodeAt (s := ⟨m, o⟩) hd).trans (h o)⟩

theorem step_print_of_fits (hd : image.decodeAt s.machine.pointer.toNat = .ok (.print src, n))
    (hf : s.output.fits (line (s.machine.printed src)).length = true) :
    s.step image = (⟨s.machine.goto ((s.machine.pointer.lastByte n).forward 1),
      s.output.write (line (s.machine.printed src))⟩, none) :=
  (step_of_decodeAt hd).trans (apply_print_of_fits hf)

theorem step_print_of_not_fits
    (hd : image.decodeAt s.machine.pointer.toNat = .ok (.print src, n))
    (hf : ¬ s.output.fits (line (s.machine.printed src)).length = true) :
    s.step image = (⟨s.machine.goto (s.machine.pointer.lastByte n),
      s.output.write (line (s.machine.printed src))⟩, some .output) :=
  (step_of_decodeAt hd).trans (apply_print_of_not_fits hf)

/-- The session with room for so many characters in all. -/
def within (s : Session) (room : Nat) : Session := { s with output := s.output.within room }

/-- **As long as there is room, a limit changes nothing.** -/
theorem step_within (hroom : s.output.room = none)
    (hle : (s.step image).1.output.written.length ≤ room) :
    (s.within room).step image = ((s.step image).1.within room, (s.step image).2) := by
  rcases print_or_silent image s.machine with ⟨src, n, hd⟩ | ⟨next, outcome, h⟩
  · rw [step_print_of_fits hd (Source.fits_of_unlimited hroom _)] at hle ⊢
    change (s.output.write _).written.length ≤ room at hle
    rw [Source.written_of_unlimited hroom, String.length_append] at hle
    have hfits := (Output.fits_within_iff (Nat.le_of_add_right_le hle)).mpr hle
    rw [step_print_of_fits (s := s.within room) hd hfits]
    exact congrArg (fun o => (Session.mk _ o, none)) (Output.write_within hroom hle)
  · rw [show s.step image = _ from h s.output, show (s.within room).step image = _ from h _]
    rfl

/-- **A line that finds too little room** is a line that is printed where there is no limit.  Where
there is one its print fails, and what is written up to then ends where the room does. -/
theorem step_beyond (hroom : s.output.room = none) (hle : s.output.written.length ≤ room)
    (hlt : room < (s.step image).1.output.written.length) :
    ∃ src n written, image.decodeAt s.machine.pointer.toNat = .ok (.print src, n)
      ∧ (s.step image).1.output.written = s.output.written ++ line (s.machine.printed src)
      ∧ (s.step image).2 = none
      ∧ (s.within room).step image
        = (⟨s.machine.goto (s.machine.pointer.lastByte n), ⟨some 0, written⟩⟩, some .output)
      ∧ written.toList = (s.step image).1.output.written.toList.take room := by
  rcases print_or_silent image s.machine with ⟨src, n, hd⟩ | ⟨next, outcome, h⟩
  · have hwritten := Source.written_of_unlimited hroom (line (s.machine.printed src))
    rw [step_print_of_fits hd (Source.fits_of_unlimited hroom _)] at hlt ⊢
    change room < (s.output.write _).written.length at hlt
    rw [hwritten, String.length_append] at hlt
    have hcut : ¬ (s.within room).output.fits (line (s.machine.printed src)).length = true :=
      fun hf => Nat.not_lt.mpr ((Output.fits_within_iff hle).mp hf) hlt
    obtain ⟨hfull, htake⟩ := Output.write_beyond hroom hle hlt
    refine ⟨src, n, _, hd, hwritten, rfl, ?_, htake⟩
    rw [step_print_of_not_fits (s := s.within room) hd hcut, ← hfull]
    rfl
  · -- what has nothing to do with the output prints nothing
    rw [show s.step image = _ from h s.output] at hlt
    exact absurd hlt (Nat.not_lt.mpr hle)

/-! ## §5. Many steps. -/

/-- What a step prints comes behind what was printed before. -/
theorem written_prefix_step (image : Image) (s : Session) :
    s.output.written.toList <+: (s.step image).1.output.written.toList := by
  rcases s.output_step image with h | ⟨text, h⟩ <;> rw [h]
  rw [Output.toList_write]
  exact List.prefix_append _ _

theorem written_prefix_runFor (image : Image) (limit : Nat) (s : Session) :
    s.output.written.toList <+: (s.runFor image limit).session.output.written.toList :=
  keeps_runFrom (P := fun t => s.output.written.toList <+: t.output.written.toList)
    (fun t h => h.trans (written_prefix_step image t)) limit 0 s (List.prefix_refl _)

theorem length_written_le (image : Image) (limit : Nat) (s : Session) :
    s.output.written.length ≤ (s.runFor image limit).session.output.written.length := by
  have h := (written_prefix_runFor image limit s).length_le
  rwa [String.length_toList, String.length_toList] at h

/-- What a run has printed after some steps stays as it is. -/
theorem written_prefix_of_le {k limit : Nat} (h : k ≤ limit) :
    (s.runFor image k).session.output.written.toList
      <+: (s.runFor image limit).session.output.written.toList := by
  by_cases hended : (s.runFor image k).Ended image
  · rw [runFor_of_ended hended h]
  · obtain ⟨more, rfl⟩ := Nat.exists_eq_add_of_le h
    rw [runFor_add k (Run.not_ended_iff.mp hended).1]
    exact written_prefix_runFor image more _

/-- An output without a limit stays one. -/
theorem room_step (h : s.output.room = none) : (s.step image).1.output.room = none := by
  rcases s.output_step image with ho | ⟨text, ho⟩ <;> rw [ho]
  · exact h
  · exact Source.room_of_unlimited h text

/-- An output without a limit is written whole lines. -/
theorem ascii_runFor (image : Image) (limit : Nat) :
    Ascii (Session.runFor image limit {}).session.output.written := by
  refine (keeps_runFrom (P := fun t => t.output.room = none ∧ Ascii t.output.written)
    (fun t ht => ⟨room_step ht.1, ?_⟩) limit 0 {} ⟨rfl, List.forall_mem_nil _⟩).2
  rcases print_or_silent image t.machine with ⟨src, n, hd⟩ | ⟨next, outcome, h⟩
  · rw [step_print_of_fits hd (Source.fits_of_unlimited ht.1 _)]
    show Ascii (t.output.write _).written
    rw [Source.written_of_unlimited ht.1]
    exact ht.2.append (ascii_line _)
  · rw [show t.step image = _ from h t.output]
    exact ht.2

/-- **As long as there is room, a limited run is the unlimited one.** -/
theorem runFor_within (limit : Nat) : ∀ {s : Session}, s.output.room = none →
    (s.runFor image limit).session.output.written.length ≤ room →
    (s.within room).runFor image limit
      = { s.runFor image limit with session := (s.runFor image limit).session.within room } := by
  induction limit with
  | zero => exact fun _ _ => rfl
  | succ limit ih =>
    intro s hroom hle
    cases s.next image with
    | stopped h => rw [runFor_of_stopped h, runFor_of_stopped (s := s.within room) h]
    | failed hr h =>
      rw [runFor_of_failed hr h] at hle ⊢
      have hstep : (s.within room).step image = _ := step_within hroom (by rw [h]; exact hle)
      rw [h] at hstep
      rw [runFor_of_failed (s := s.within room) hr hstep]
    | @goesOn t hr h =>
      rw [runFor_of_goesOn hr h] at hle ⊢
      -- nothing that is printed is taken back, so there is room after each of the steps
      have hfirst : (s.step image).1.output.written.length ≤ room := by
        rw [h]
        exact Nat.le_trans (length_written_le image limit t) hle
      have hnext : t.output.room = none := by
        have hafter : (s.step image).1.output.room = none := room_step hroom
        rwa [h] at hafter
      have hstep := step_within hroom hfirst
      rw [h] at hstep
      rw [runFor_of_goesOn (s := s.within room) hr hstep, ih hnext hle]
      rfl

/-- **The first line that finds too little room ends the limited run.**  Up to it the two runs are
the same, and it is met within the steps that the unlimited run takes to print more than there is
room for. -/
theorem runFor_beyond (hroom : s.output.room = none) (hle : s.output.written.length ≤ room)
    (limit : Nat) : room < (s.runFor image limit).session.output.written.length →
    ∃ k < limit, ¬ (s.runFor image k).Ended image
      ∧ (s.runFor image k).session.output.written.length ≤ room
      ∧ room < ((s.runFor image k).session.step image).1.output.written.length
      ∧ (s.within room).runFor image limit
        = ⟨(((s.runFor image k).session.within room).step image).1, k + 1,
            (((s.runFor image k).session.within room).step image).2⟩ := by
  -- induction on the steps of the unlimited run: the line is met before the last of them, or is it
  induction limit with
  | zero => exact fun hlt => absurd hlt (Nat.not_lt.mpr hle)
  | succ limit ih =>
    intro hlt
    have hnone : ∀ k, (s.runFor image k).session.output.room = none := fun k =>
      keeps_runFrom (P := fun t => t.output.room = none) (fun _ => room_step) k 0 s hroom
    by_cases hbefore : room < (s.runFor image limit).session.output.written.length
    · obtain ⟨k, hk, hgoes, hfit, hover, hrun⟩ := ih hbefore
      obtain ⟨src, n, written, -, -, -, hstep, -⟩ := step_beyond (hnone k) hfit hover
      have hended : ((s.within room).runFor image limit).Ended image := by
        rw [hrun, hstep]
        exact .inl rfl
      exact ⟨k, Nat.lt_succ_of_lt hk, hgoes, hfit, hover,
        (runFor_of_ended hended (Nat.le_succ limit)).trans hrun⟩
    · have hfit := Nat.le_of_not_lt hbefore
      have hgoes : ¬ (s.runFor image limit).Ended image := fun h =>
        hbefore (runFor_of_ended h (Nat.le_succ limit) ▸ hlt)
      rw [runFor_succ hgoes] at hlt
      refine ⟨limit, Nat.lt_succ_self limit, hgoes, hfit, hlt, ?_⟩
      have hwithin := runFor_within limit hroom hfit
      have hgoes' : ¬ ((s.within room).runFor image limit).Ended image := by
        rw [hwithin]
        exact hgoes
      rw [runFor_succ hgoes', hwithin]

/-! ## §6. Two runs. -/

/-- **A limited output cuts the run and changes nothing else.**  A new machine runs any image for
any number of steps, with an output that takes everything and with one that has room for so many
bytes.  As long as what is printed without the limit finds room, the two runs agree in the machine,
the text, the number of steps and the fault.  Once it does not, there is a print up to which the
unlimited run was within the room and with which it is not.  There the limited run fails to print:
its machine is that of the unlimited run before the print, but for the pointer, which is on the
last byte of the print, and what it has written are the first bytes of what the unlimited run
writes, as many as there was room for.  A step is one that prints to a writer that takes what it
has room for, into whichever pieces the line is cut. -/
theorem limited_output_cuts_the_run (image : Image) (room limit : Nat) :
    let free := Session.runFor image limit {}
    let limited := Session.runFor image limit { output := { room := some room } }
    ((bytes free.session.output.written).length ≤ room →
      limited.session.machine = free.session.machine ∧
      limited.session.output.written = free.session.output.written ∧
      limited.steps = free.steps ∧ limited.fault = free.fault) ∧
    (room < (bytes free.session.output.written).length → ∃ k src n,
      let before := Session.runFor image k {}
      let text := before.session.output.written ++ line (before.session.machine.printed src)
      k < limit ∧ before.steps = k ∧ before.fault = none ∧ before.session.running image = true ∧
      image.decodeAt before.session.machine.pointer.toNat = .ok (.print src, n) ∧
      (Session.runFor image (k + 1) {}).session.output.written = text ∧
      (bytes before.session.output.written).length ≤ room ∧ room < (bytes text).length ∧
      limited.steps = k + 1 ∧ limited.fault = some .output ∧
      limited.session.machine
        = before.session.machine.goto (before.session.machine.pointer.lastByte n) ∧
      bytes limited.session.output.written = (bytes free.session.output.written).take room) ∧
    ∀ pieces (h : ∀ text, (pieces text).flatten = text) (s : Session),
      s.step image =
        let r := s.machine.stepTo (Output.writerOf pieces h) image s.output.room
        (⟨r.machine, ⟨r.writer, s.output.written ++ String.ofList r.printed⟩⟩, r.fault) := by
  intro free limited
  have hlength : ∀ k, (bytes (Session.runFor image k {}).session.output.written).length
      = (Session.runFor image k {}).session.output.written.length := fun k =>
    Text.length_bytes (ascii_runFor image k)
  refine ⟨fun hle => ?_, fun hlt => ?_, fun pieces h s => ?_⟩
  · rw [hlength] at hle
    have hrun : limited = _ := runFor_within limit (s := {}) rfl hle
    rw [hrun]
    exact ⟨rfl, rfl, rfl, rfl⟩
  · rw [hlength] at hlt
    obtain ⟨k, hk, hgoes, hfit, hover, hrun⟩ :=
      runFor_beyond (s := {}) rfl (Nat.zero_le room) limit hlt
    have hrun : limited = _ := hrun
    have hnone : (Session.runFor image k {}).session.output.room = none :=
      keeps_runFrom (P := fun t => t.output.room = none) (fun _ => room_step) k 0 {} rfl
    obtain ⟨src, n, written, hread, hprinted, hfault, hstep, htake⟩ := step_beyond hnone hfit hover
    have hsucc := runFor_succ hgoes
    obtain ⟨hgood, hrunning⟩ := Run.not_ended_iff.mp hgoes
    have htext : (Session.runFor image (k + 1) {}).session.output.written
        = (Session.runFor image k {}).session.output.written
          ++ line ((Session.runFor image k {}).session.machine.printed src) := by
      rw [hsucc]
      exact hprinted
    -- what comes behind the line leaves the first characters as they are
    have hprefix : written.toList = free.session.output.written.toList.take room := by
      obtain ⟨rest, hrest⟩ : (Session.runFor image (k + 1) {}).session.output.written.toList
        <+: free.session.output.written.toList := written_prefix_of_le hk
      rw [htake, ← hrest, hsucc, List.take_append_of_le_length]
      rw [String.length_toList]
      exact hover.le
    rw [hrun, hstep]
    refine ⟨k, src, n, hk, steps_of_not_ended k hgoes, hgood, hrunning, hread, htext,
      (hlength k).le.trans hfit, ?_, rfl, rfl, rfl,
      Text.bytes_take (ascii_runFor image limit) hprefix⟩
    rw [← htext, hlength, hsucc]
    exact hover
  · simp only [stepTo_writerOf]
    exact step_eq_stepTo image s

/-- The number -12 is printed and then 7.  Room for five bytes ends inside the second line, which
lacks its line end, and room for seven does not. -/
theorem limited_output_cuts_the_run_inside :
    let image : Image := #[0xbf, 0xff, 0, 0, 0, 12, 0xbf, 0xfe, 0, 0, 0, 7]
    let free := Session.runFor image 9 {}
    let limited := fun room => Session.runFor image 9 { output := { room := some room } }
    free.session.output.written = "-12\n7\n" ∧ free.fault = none ∧
      (limited 5).fault = some .output ∧
      bytes (limited 5).session.output.written = bytes "-12\n7" ∧
      (limited 7).fault = none ∧ (limited 7).session.machine = free.session.machine := by
  intro image free limited
  have hfree : free.session.output.written = "-12\n7\n" ∧ free.fault = none := by decide +kernel
  have hlength : (bytes free.session.output.written).length = 6 := by
    rw [hfree.1]
    decide +kernel
  obtain ⟨-, hcut, -⟩ := limited_output_cuts_the_run image 5 9
  obtain ⟨hfits, -, -⟩ := limited_output_cuts_the_run image 7 9
  obtain ⟨k, src, n, -, -, -, -, -, -, -, -, -, hfault, -, hbytes⟩ :=
    hcut (show 5 < (bytes free.session.output.written).length by rw [hlength]; decide)
  obtain ⟨hmachine, -, -, hnone⟩ :=
    hfits (show (bytes free.session.output.written).length ≤ 7 by rw [hlength]; decide)
  refine ⟨hfree.1, hfree.2, hfault, ?_, hnone.trans hfree.2, hmachine⟩
  rw [hbytes, show (Session.runFor image 9 {}).session.output.written = _ from hfree.1]
  decide +kernel

end Session

end Machine

end ByteMachine
