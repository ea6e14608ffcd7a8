/-
  ByteMachine.Proofs.Truncation — bytes that are cut off, and bytes that are wrong.

  A reader that consults the bytes one behind the other can end in three ways: it has read enough,
  it has come to a byte that is wrong, or the bytes have come to an end.  In the first two ways the
  bytes behind do not matter, and an image cut off before is reported as such.  This is what
  `InOrder` says of a reader, and it is closed under reading one thing behind another, so each
  reader of `ByteMachine.Image` has it because its parts have:

    • `InOrder.bind`, `inOrder_entryAt` — one thing behind another, and a single byte,
    • `inOrder_decodeAt` — an instruction is read in order,
    • `reading_ends_in_one_of_three_ways` — so extending or cutting an image changes what is read in
      the one way there is.
-/
import ByteMachine.Proofs.ReadBack

namespace ByteMachine

/-- The offset of the byte that a failure finds wrong.  A missing byte is not wrong. -/
def DecodeError.wrongAt? : DecodeError → Option UInt64
  | .missingByte _ => none
  | .badSign offset => some offset
  | .badOpcode _ offset => some offset
  | .badCode _ _ offset => some offset

namespace Image

variable {α β : Type}

/-! ## §1. Images with the same beginning. -/

/-- The failure of reading at the end of an image of `size` bytes. -/
def cutOffAt (size : Nat) : DecodeError := .missingByte (.ofNat size - 1)

/-- The images have the same bytes before `stop`. -/
def AgreeBefore (stop : Nat) (image other : Image) : Prop :=
  ∀ position < stop, other[position]? = image[position]?

variable {image other : Image} {start stop position m : Nat}

theorem agreeBefore_self : AgreeBefore stop image image := fun _ _ => rfl

theorem AgreeBefore.mono (h : AgreeBefore stop image other) (hle : position ≤ stop) :
    AgreeBefore position image other :=
  fun p hp => h p (Nat.lt_of_lt_of_le hp hle)

/-- Bytes behind the image change nothing before its end. -/
theorem agreeBefore_append (more : Image) (hle : stop ≤ image.size) :
    AgreeBefore stop image (image ++ more) :=
  fun _ hp => Array.getElem?_append_left (Nat.lt_of_lt_of_le hp hle)

/-- The image without its bytes from `m` on. -/
def cut (image : Image) (m : Nat) : Image := image.take m

theorem size_cut (hle : m ≤ image.size) : (image.cut m).size = m := by
  unfold cut
  rw [Array.size_extract, Nat.min_eq_left hle, Nat.sub_zero]

/-- Cutting an image changes nothing before the cut. -/
theorem agreeBefore_cut (hle : stop ≤ m) : AgreeBefore stop image (image.cut m) := by
  intro p hp
  unfold cut
  rw [Array.getElem?_extract, Nat.zero_add, Nat.sub_zero]
  by_cases hsize : p < image.size
  · rw [if_pos (Nat.lt_min.mpr ⟨Nat.lt_of_lt_of_le hp hle, hsize⟩)]
  · rw [if_neg fun h => hsize (Nat.lt_min.mp h).2, Array.getElem?_eq_none (Nat.le_of_not_lt hsize)]

theorem byteAt_of_size_le (h : image.size ≤ position) :
    image.byteAt position = .error (cutOffAt position) := by
  unfold byteAt
  rw [Array.getElem?_eq_none h]
  rfl

/-! ## §2. Reading in order. -/

/-- Reading from `start` on has come to `stop` with this result: bytes behind do not matter, and
an image cut before is cut too short. -/
structure Settled (read : Image → Except DecodeError α) (start stop : Nat) (image : Image)
    (result : Except DecodeError α) : Prop where
  start_le : start ≤ stop
  within : stop ≤ image.size
  same : ∀ other, AgreeBefore stop image other → read other = result
  short : ∀ m, start ≤ m → m < stop → read (image.cut m) = .error (cutOffAt m)

/-- How reading comes out.  `stop` is the offset behind what was read. -/
inductive Verdict (read : Image → Except DecodeError α) (start : Nat) (stop : α → Nat)
    (image : Image) : Prop where
  /-- What was to be read is there. -/
  | complete (a : α) (settled : Settled read start (stop a) image (.ok a))
  /-- Everything is right as far as it goes, and with more bytes it can be read to their end. -/
  | cutOff (more : Image) (a : α) (fails : read image = .error (cutOffAt image.size))
      (completes : read (image ++ more) = .ok a) (ends : stop a = (image ++ more).size)
  /-- A byte is wrong. -/
  | wrong (cause : DecodeError) (position : Nat) (start_le : start ≤ position)
      (blames : cause.wrongAt? = some (.ofNat position))
      (settled : Settled read start (position + 1) image (.error cause))

/-- The reader consults the bytes one behind the other from `start` on, as far as `stop` says, and
judges each before it goes on. -/
def InOrder (read : Image → Except DecodeError α) (start : Nat) (stop : α → Nat) : Prop :=
  ∀ image : Image, start ≤ image.size → Verdict read start stop image

section

variable {read : Image → Except DecodeError α} {next : α → Image → Except DecodeError β}
  {stopRead : α → Nat} {stopNext : β → Nat} {a : α} {cause : DecodeError}

/-- What has been read stays so. -/
theorem Settled.eq {result : Except DecodeError α} (h : Settled read start stop image result) :
    read image = result :=
  h.same image agreeBefore_self

/-- Where reading goes on behind something that was read, the rest decides. -/
theorem Settled.bind {middle : Nat} {result : Except DecodeError β}
    (h : Settled read start middle image (.ok a)) (hn : Settled (next a) middle stop image result) :
    Settled (fun image => read image >>= fun a => next a image) start stop image result where
  start_le := Nat.le_trans h.start_le hn.start_le
  within := hn.within
  same other ho := by
    show read other >>= _ = _
    rw [h.same other (ho.mono hn.start_le)]
    exact hn.same other ho
  short m hs hm := by
    show read (image.cut m) >>= _ = _
    by_cases hmiddle : m < middle
    · rw [h.short m hs hmiddle]
      rfl
    · -- the first part stands before the cut
      rw [h.same _ (agreeBefore_cut (by omega))]
      exact hn.short m (by omega) hm

/-- Where reading has failed, nothing is read behind. -/
theorem Settled.bind_error (h : Settled read start stop image (.error cause)) :
    Settled (fun image => read image >>= fun a => next a image) start stop image
      (.error cause) where
  start_le := h.start_le
  within := h.within
  same other ho := by
    show read other >>= _ = _
    rw [h.same other ho]
    rfl
  short m hs hm := by
    show read (image.cut m) >>= _ = _
    rw [h.short m hs hm]
    rfl

/-- A reader in order that has read something has come to its end. -/
theorem InOrder.settled (h : InOrder read start stopRead) (hle : start ≤ image.size)
    (hr : read image = .ok a) : Settled read start (stopRead a) image (.ok a) := by
  cases h image hle with
  | complete b settled =>
    obtain rfl : b = a := Except.ok.inj (settled.eq.symm.trans hr)
    exact settled
  | cutOff more b fails =>
    rw [fails] at hr
    cases hr
  | wrong cause position _ _ settled =>
    rw [settled.eq] at hr
    cases hr

/-- A reader in order that misses a byte misses the one behind the image, and can be satisfied. -/
theorem InOrder.cutOff (h : InOrder read start stopRead) (hle : start ≤ image.size)
    {before : UInt64} (hr : read image = .error (.missingByte before)) :
    read image = .error (cutOffAt image.size) ∧
      ∃ more a, read (image ++ more) = .ok a ∧ stopRead a = (image ++ more).size := by
  cases h image hle with
  | complete a settled =>
    rw [settled.eq] at hr
    cases hr
  | cutOff more a fails completes ends => exact ⟨fails, more, a, completes, ends⟩
  | wrong cause position _ blames settled =>
    -- a byte that is wrong is not missing
    rw [settled.eq] at hr
    cases hr
    cases blames

/-- A reader in order that blames a byte has come to its end behind it. -/
theorem InOrder.wrong (h : InOrder read start stopRead) (hle : start ≤ image.size)
    {blamed : UInt64} (hr : read image = .error cause) (hb : cause.wrongAt? = some blamed) :
    ∃ position, start ≤ position ∧ cause.wrongAt? = some (.ofNat position) ∧
      Settled read start (position + 1) image (.error cause) := by
  cases h image hle with
  | complete a settled =>
    rw [settled.eq] at hr
    cases hr
  | cutOff more a fails =>
    -- a byte that is missing is not wrong
    rw [fails] at hr
    cases hr
    cases hb
  | wrong other position hstart blames settled =>
    rw [settled.eq] at hr
    cases hr
    exact ⟨position, hstart, blames, settled⟩

/-- **One thing read in order behind another is read in order.** -/
theorem InOrder.bind (h : InOrder read start stopRead)
    (hn : ∀ a, InOrder (next a) (stopRead a) stopNext) :
    InOrder (fun image => read image >>= fun a => next a image) start stopNext := by
  intro image hle
  cases h image hle with
  | complete a settled =>
    cases hn a image settled.within with
    | complete b rest => exact .complete b (settled.bind rest)
    | wrong cause position hp blames rest =>
      exact .wrong cause position (Nat.le_trans settled.start_le hp) blames (settled.bind rest)
    | cutOff more b fails completes ends =>
      refine .cutOff more b ?_ ?_ ends
      · show read image >>= _ = _
        rw [settled.eq]
        exact fails
      · show read (image ++ more) >>= _ = _
        rw [settled.same _ (agreeBefore_append more settled.within)]
        exact completes
  | wrong cause position hp blames settled =>
    exact .wrong cause position hp blames settled.bind_error
  | cutOff more a fails completes ends =>
    have hfails : (read image >>= fun a => next a image) = .error (cutOffAt image.size) := by
      rw [fails]
      rfl
    have hsize : image.size ≤ (image ++ more).size := by
      rw [Array.size_append]
      omega
    have settled := h.settled (Nat.le_trans hle hsize) completes
    -- with the bytes that are missing of the first part, the second begins at the end of the image
    cases hn a (image ++ more) (Nat.le_of_eq ends) with
    | complete b rest =>
      refine .cutOff more b hfails ?_ ?_
      · show read (image ++ more) >>= _ = _
        rw [completes]
        exact rest.eq
      · exact Nat.le_antisymm rest.within (ends ▸ rest.start_le)
    | cutOff further b _ completes' ends' =>
      rw [Array.append_assoc] at completes' ends'
      refine .cutOff (more ++ further) b hfails ?_ ends'
      show read (image ++ (more ++ further)) >>= _ = _
      rw [← Array.append_assoc,
        settled.same _ (agreeBefore_append further settled.within), Array.append_assoc]
      exact completes'
    | wrong cause position hp _ rest =>
      have := rest.within
      omega

/-- What needs no byte is read in order. -/
theorem inOrder_ok {b : β} (h : stopNext b = start) :
    InOrder (fun _ => .ok b) start stopNext := by
  intro image hle
  refine .complete b ⟨Nat.le_of_eq h.symm, h ▸ hle, fun _ _ => rfl, ?_⟩
  intro m hs hm
  omega

/-- What is made of something that was read in order. -/
theorem InOrder.map (h : InOrder read start stopRead) {f : α → β}
    (hf : ∀ a, stopNext (f a) = stopRead a) :
    InOrder (fun image => (read image).map f) start stopNext := by
  have heq : (fun image => (read image).map f) = fun image => read image >>= fun a => .ok (f a) := by
    funext image
    cases read image <;> rfl
  rw [heq]
  exact h.bind fun a => inOrder_ok (hf a)

end

/-! ## §3. The readers. -/

/-- The entry of a table for the byte at a position; a byte without one is wrong. -/
def entryAt (image : Image) (position : Nat) (table : UInt8 → Option α)
    (wrong : UInt8 → DecodeError) : Except DecodeError α := do
  let byte ← image.byteAt position
  match table byte with
  | some a => .ok a
  | none => .error (wrong byte)

/-- **A byte is read in order** against a table that has an entry, if the blame for a byte without
one falls on it. -/
theorem inOrder_entryAt {table : UInt8 → Option α} {wrong : UInt8 → DecodeError}
    (hentry : ∃ byte a, table byte = some a)
    (hwrong : ∀ byte, table byte = none → (wrong byte).wrongAt? = some (.ofNat position)) :
    InOrder (fun image => image.entryAt position table wrong) position
      fun _ => position + 1 := by
  intro image hle
  by_cases hlt : position < image.size
  · -- the byte is there, in every image that agrees with this one as far as behind it
    have hread : ∀ other, AgreeBefore (position + 1) image other →
        other.byteAt position = .ok image[position] := by
      intro other ho
      apply byteAt_of_getElem?
      rw [ho position (Nat.lt_succ_self _), Array.getElem?_eq_getElem hlt]
    have hshort : ∀ m, position ≤ m → m < position + 1 →
        (image.cut m).entryAt position table wrong = .error (cutOffAt m) := by
      intro m hs hm
      -- the only cut that is long enough to begin with ends right before the byte
      obtain rfl : m = position := by omega
      unfold entryAt
      rw [byteAt_of_size_le (Nat.le_of_eq (size_cut hle))]
      rfl
    cases htable : table image[position] with
    | some a =>
      refine .complete a ⟨Nat.le_succ _, hlt, fun other ho => ?_, hshort⟩
      unfold entryAt
      simp only [hread other ho, bind, Except.bind, htable]
    | none =>
      refine .wrong (wrong image[position]) position (Nat.le_refl _) (hwrong _ htable)
        ⟨Nat.le_succ _, hlt, fun other ho => ?_, hshort⟩
      unfold entryAt
      simp only [hread other ho, bind, Except.bind, htable]
  · -- at the end of the image, any byte of the table would do
    obtain rfl : position = image.size := by omega
    obtain ⟨byte, a, htable⟩ := hentry
    refine .cutOff #[byte] a ?_ ?_ ?_
    · unfold entryAt
      rw [byteAt_of_size_le (Nat.le_refl _)]
      rfl
    · have hbyte : (image ++ #[byte])[image.size]? = some byte := by
        rw [Array.getElem?_append_right (Nat.le_refl _), Nat.sub_self]
        rfl
      show Image.entryAt (image ++ #[byte]) image.size table wrong = _
      unfold entryAt
      simp only [byteAt_of_getElem? hbyte, bind, Except.bind, htable]
    · rw [Array.size_append]
      rfl

theorem byteAt_eq (image : Image) (position : Nat) :
    image.byteAt position = image.entryAt position some fun _ => cutOffAt position := by
  unfold entryAt
  cases image.byteAt position <;> rfl

theorem inOrder_byteAt (position : Nat) :
    InOrder (fun image => image.byteAt position) position fun _ => position + 1 := by
  rw [funext fun image => byteAt_eq image position]
  exact inOrder_entryAt ⟨0, 0, rfl⟩ fun _ h => by cases h

theorem inOrder_wordAt (position : Nat) :
    InOrder (fun image => image.wordAt position) position fun _ => position + 4 :=
  (inOrder_byteAt position).bind fun _ => (inOrder_byteAt (position + 1)).bind fun _ =>
    (inOrder_byteAt (position + 2)).bind fun _ => (inOrder_byteAt (position + 3)).bind fun _ =>
      inOrder_ok rfl

theorem immediateAt_eq (image : Image) (position : Nat) :
    image.immediateAt position =
      (image.entryAt position (fun byte => (Immediate.decodeSign byte).toOption) fun _ =>
        .badSign (.ofNat position)) >>= fun negative =>
      (image.wordAt (position + 1)).map (Immediate.signed negative) := by
  unfold immediateAt entryAt
  cases image.byteAt position with
  | error e => rfl
  | ok byte =>
    simp only [bind, Except.bind]
    cases Immediate.decodeSign byte <;> rfl

theorem inOrder_immediateAt (position : Nat) :
    InOrder (fun image => image.immediateAt position) position
      fun _ => position + Immediate.size := by
  rw [funext fun image => immediateAt_eq image position]
  exact (inOrder_entryAt ⟨Immediate.signByte false, false, rfl⟩ fun _ _ => rfl).bind
    fun _ => (inOrder_wordAt (position + 1)).map fun _ => rfl

theorem jumpAt_eq (image : Image) (position : Nat) :
    image.jumpAt position =
      (image.entryAt (position + 1) (fun byte => (JumpCondition.ofCode byte).toOption) fun byte =>
        .badCode jumpPrefix byte (.ofNat (position + 1))) >>= fun condition =>
      (image.wordAt (position + 2)).map fun target =>
        (.jump condition target, Instruction.jumpSize) := by
  unfold jumpAt entryAt
  cases image.byteAt (position + 1) with
  | error e => rfl
  | ok byte =>
    simp only [bind, Except.bind]
    cases JumpCondition.ofCode byte <;> rfl

theorem inOrder_jumpAt (position : Nat) :
    InOrder (fun image => image.jumpAt position) (position + 1) fun read => position + read.2 := by
  rw [funext fun image => jumpAt_eq image position]
  exact (inOrder_entryAt ⟨JumpCondition.always.code, .always, rfl⟩ fun _ _ => rfl).bind
    fun _ => (inOrder_wordAt (position + 2)).map fun _ => rfl

/-- What is read behind the second byte of a bitwise instruction. -/
def behindBitwise (image : Image) (position : Nat) :
    BitwiseCode → Except DecodeError (Instruction × Nat)
  | .register op src dst => .ok (.bitwise op (.register src) dst, 2)
  | .immediate op dst =>
    (image.immediateAt (position + 2)).map fun v => (.bitwise op (.immediate v) dst, 7)

theorem bitwiseAt_eq (image : Image) (position : Nat) :
    image.bitwiseAt position =
      (image.entryAt (position + 1) BitwiseCode.ofByte? fun byte =>
        .badCode bitwisePrefix byte (.ofNat (position + 1))) >>= image.behindBitwise position := by
  unfold bitwiseAt entryAt
  cases image.byteAt (position + 1) with
  | error e => rfl
  | ok byte =>
    simp only [bind, Except.bind]
    cases BitwiseCode.ofByte? byte with
    | none => rfl
    | some code => cases code <;> rfl

theorem inOrder_bitwiseAt (position : Nat) :
    InOrder (fun image => image.bitwiseAt position) (position + 1)
      fun read => position + read.2 := by
  rw [funext fun image => bitwiseAt_eq image position]
  refine (inOrder_entryAt ⟨_, _, BitwiseCode.ofByte?_toByte (.immediate .or .r0)⟩
    fun _ _ => rfl).bind fun code => ?_
  cases code with
  | register op src dst => exact inOrder_ok rfl
  | immediate op dst => exact (inOrder_immediateAt (position + 2)).map fun _ => rfl

theorem decodeAt_eq (image : Image) (offset : Nat) :
    image.decodeAt offset =
      (image.entryAt offset Opcode.ofByte? fun byte => .badOpcode byte (.ofNat offset)) >>=
        image.behindOpcode offset := by
  cases hb : image.byteAt offset with
  | error e =>
    unfold decodeAt entryAt
    rw [hb]
    rfl
  | ok byte =>
    cases hop : Opcode.ofByte? byte with
    | none =>
      unfold decodeAt entryAt
      simp only [hb, bind, Except.bind, hop]
      rfl
    | some opcode =>
      have ho := getElem?_of_byteAt hb
      rw [← Opcode.toByte_of_ofByte? hop] at ho
      rw [decodeAt_of_opcode ho]
      simp only [entryAt, hb, bind, Except.bind, hop]

/-- **An instruction is read in order.** -/
theorem inOrder_decodeAt (offset : Nat) :
    InOrder (fun image => image.decodeAt offset) offset fun read => offset + read.2 := by
  rw [funext fun image => decodeAt_eq image offset]
  refine (inOrder_entryAt ⟨_, _, Opcode.ofByte?_toByte .halt⟩ fun _ _ => rfl).bind
    fun opcode => ?_
  cases opcode with
  | aluImmediate op dst => exact (inOrder_immediateAt (offset + 1)).map fun _ => rfl
  | printImmediate => exact (inOrder_immediateAt (offset + 1)).map fun _ => rfl
  | jump => exact inOrder_jumpAt offset
  | bitwise => exact inOrder_bitwiseAt offset
  | _ => exact inOrder_ok rfl

/-! ## §4. The three ways to come out. -/

/-- An instruction is read, and bytes behind the image change nothing. -/
def Whole (image : Image) (offset : Nat) : Prop :=
  ∃ i n, image.decodeAt offset = .ok (i, n) ∧
    ∀ more : Image, (image ++ more).decodeAt offset = .ok (i, n)

/-- The byte behind the image is missing, and with more bytes an instruction is read. -/
def CutShort (image : Image) (offset : Nat) : Prop :=
  image.decodeAt offset = .error (cutOffAt image.size) ∧
    ∃ (more : Image) (i : Instruction) (n : Nat), (image ++ more).decodeAt offset = .ok (i, n)

/-- A byte of the image is wrong.  It is blamed whatever comes behind it, if anything does, and an
image that is cut before it is reported as cut. -/
def Malformed (image : Image) (offset : Nat) : Prop :=
  ∃ cause position, image.decodeAt offset = .error cause ∧
    cause.wrongAt? = some (.ofNat position) ∧ offset ≤ position ∧ position < image.size ∧
    (∀ more : Image, (image ++ more).decodeAt offset = .error cause) ∧
    (∀ m, position < m → (image.cut m).decodeAt offset = .error cause) ∧
    ∀ m, offset ≤ m → m ≤ position → (image.cut m).decodeAt offset = .error (cutOffAt m)

variable {offset : Nat}

theorem whole_iff (h : offset ≤ image.size) :
    image.Whole offset ↔ ∃ read, image.decodeAt offset = .ok read := by
  constructor
  · rintro ⟨i, n, hread, -⟩
    exact ⟨_, hread⟩
  · rintro ⟨⟨i, n⟩, hread⟩
    have settled := (inOrder_decodeAt offset).settled h hread
    exact ⟨i, n, hread, fun more => settled.same _ (agreeBefore_append more settled.within)⟩

theorem cutShort_iff (h : offset ≤ image.size) :
    image.CutShort offset ↔ ∃ before, image.decodeAt offset = .error (.missingByte before) := by
  constructor
  · rintro ⟨hfails, -⟩
    exact ⟨_, hfails⟩
  · rintro ⟨before, hfails⟩
    obtain ⟨hsize, more, read, completes, -⟩ := (inOrder_decodeAt offset).cutOff h hfails
    exact ⟨hsize, more, read.1, read.2, completes⟩

theorem malformed_iff (h : offset ≤ image.size) :
    image.Malformed offset ↔
      ∃ cause blamed, image.decodeAt offset = .error cause ∧ cause.wrongAt? = some blamed := by
  constructor
  · rintro ⟨cause, position, hfails, blames, -⟩
    exact ⟨cause, _, hfails, blames⟩
  · rintro ⟨cause, blamed, hfails, hblamed⟩
    obtain ⟨position, hle, blames, settled⟩ := (inOrder_decodeAt offset).wrong h hfails hblamed
    refine ⟨cause, position, hfails, blames, hle, settled.within, ?_, ?_, ?_⟩
    · exact fun more => settled.same _ (agreeBefore_append more settled.within)
    · exact fun m hm => settled.same _ (agreeBefore_cut hm)
    · exact fun m hs hm => settled.short m hs (Nat.lt_succ_of_le hm)

/-- **What is cut short is a proper beginning of an instruction**: some bytes behind the image
complete it, and it takes all of them. -/
theorem missingByte_iff (h : offset ≤ image.size) :
    (∃ before, image.decodeAt offset = .error (.missingByte before)) ↔
      ∃ (more : Image) (i : Instruction) (n : Nat), 0 < more.size ∧
        (image ++ more).decodeAt offset = .ok (i, n) ∧ offset + n = image.size + more.size := by
  constructor
  · rintro ⟨before, hfails⟩
    obtain ⟨-, more, read, completes, ends⟩ := (inOrder_decodeAt offset).cutOff h hfails
    refine ⟨more, read.1, read.2, ?_, completes, ends.trans Array.size_append⟩
    -- with nothing more, the image itself would be complete
    rcases Nat.eq_zero_or_pos more.size with hzero | hpos
    · rw [Array.eq_empty_of_size_eq_zero hzero, Array.append_empty, hfails] at completes
      cases completes
    · exact hpos
  · rintro ⟨more, i, n, hpos, hread, hends⟩
    have hsize : (image ++ more).size = image.size + more.size := Array.size_append
    -- the instruction ends behind the image, so the image is a cut that is too short for it
    have settled := (inOrder_decodeAt offset).settled (by omega) hread
    have hcut : (image ++ more).cut image.size = image :=
      Array.extract_append_left.trans Array.extract_size
    have hshort := settled.short image.size h (by show _ < offset + n; omega)
    rw [hcut] at hshort
    exact ⟨_, hshort⟩

/-- **Reading an instruction comes out in exactly one of three ways**, from any offset up to the
end of an image.  It is read, and would be with any bytes behind the image.  Or the byte behind the
image is missing, and with some more bytes it would be read; this is the case exactly if what is
left of the image is a proper beginning of an instruction.  Or a byte of the image is wrong, and it
is blamed in every extension of the image and in every part of it that has the byte, while a part
without it is reported as cut short. -/
theorem reading_ends_in_one_of_three_ways (image : Image) (offset : Nat)
    (h : offset ≤ image.size) :
    (image.Whole offset ∧ ¬ image.CutShort offset ∧ ¬ image.Malformed offset ∨
      ¬ image.Whole offset ∧ image.CutShort offset ∧ ¬ image.Malformed offset ∨
      ¬ image.Whole offset ∧ ¬ image.CutShort offset ∧ image.Malformed offset) ∧
    (image.CutShort offset ↔
      ∃ (more : Image) (i : Instruction) (n : Nat), 0 < more.size ∧
        (image ++ more).decodeAt offset = .ok (i, n) ∧ offset + n = image.size + more.size) := by
  refine ⟨?_, (cutShort_iff h).trans (missingByte_iff h)⟩
  -- each way is told by what is read alone, and the three exclude each other
  rw [whole_iff h, cutShort_iff h, malformed_iff h]
  cases image.decodeAt offset with
  | ok read => simp
  | error cause => cases cause <;> simp [DecodeError.wrongAt?]

/-- The second byte of this addition should be a sign.  It is blamed there, although the literal
is incomplete too; up to the sign the addition is only cut short. -/
theorem reading_ends_in_one_of_three_ways_sign :
    Image.Malformed #[0x90, 0x54, 0x07, 0x00] 1 ∧ Image.CutShort #[0x90, 0x54] 1 := by
  have hsign : Image.decodeAt #[0x90, 0x54, 0x07, 0x00] 1 = .error (.badSign 2) := by cbv
  have hwhole : Image.decodeAt (#[0x90, 0x54] ++ #[0xfe, 0, 0, 0, 9]) 1
      = .ok (.alu .add (.immediate 9) .r0, 6) := by cbv
  constructor
  · obtain ⟨⟨⟨i, n, hread, -⟩, -⟩ | ⟨-, ⟨hcut, -⟩, -⟩ | ⟨-, -, hmalformed⟩, -⟩ :=
      reading_ends_in_one_of_three_ways #[0x90, 0x54, 0x07, 0x00] 1 (by decide)
    · cases hsign.symm.trans hread
    · cases hsign.symm.trans hcut
    · exact hmalformed
  · exact (reading_ends_in_one_of_three_ways #[0x90, 0x54] 1 (by decide)).2.mpr
      ⟨#[0xfe, 0, 0, 0, 9], _, _, by decide, hwhole, rfl⟩

end Image

end ByteMachine
