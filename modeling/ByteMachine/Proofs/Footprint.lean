/-
  ByteMachine.Proofs.Footprint — the bytes that a run has seen.

  What a reader knows of an image it has asked for, one byte at a time, and what it asks for next
  may depend on what it was told.  A reader is then a tree of questions, and beside what it reads
  it is known what it has asked for.  An image that gives the same answers is read in the same way,
  whatever its other bytes are, how many they are, and which of them are code:

    • `Query.run_congr`, `Query.lt_size_of_mem_asked` — the same answers, and where they stand,
    • `Query.run_instruction` — the reader of instructions as such a tree,
    • `Query.asked_instruction` — it asks for the bytes of the instruction and for no other,
    • `Session.footprint` — the positions that the steps of a run ask for,
    • `step_congr`, `runFor_congr` — so a step and a run depend on the bytes there alone,
    • `unread_bytes_do_not_matter` — and a run that ends inside an image ends so in any other that
      has the same bytes there.
-/
import ByteMachine.Proofs.Limits
import ByteMachine.Proofs.Truncation

namespace ByteMachine

/-! ## §1. Questions. -/

/-- What is read by asking for bytes. -/
inductive Query (α : Type) where
  /-- Nothing more is asked. -/
  | done (result : Except DecodeError α)
  /-- The byte at a position is asked for, and decides how to go on. -/
  | ask (position : Nat) (next : UInt8 → Query α)

namespace Query

variable {α β : Type} {image other : Image} {q : Query α} {f : α → Query β} {position : Nat}

/-- What is read if an image answers.  It has no answer where it has no byte. -/
def run (image : Image) : Query α → Except DecodeError α
  | .done result => result
  | .ask position next => image.byteAt position >>= fun byte => (next byte).run image

/-- The positions that are asked for if an image answers. -/
def asked (image : Image) : Query α → List Nat
  | .done _ => []
  | .ask position next =>
    position :: match image[position]? with
      | some byte => (next byte).asked image
      | none => []

/-- One thing is read behind another. -/
def bind (q : Query α) (f : α → Query β) : Query β :=
  match q with
  | .done (.ok a) => f a
  | .done (.error cause) => .done (.error cause)
  | .ask position next => .ask position fun byte => (next byte).bind f

/-- Something is made of what is read. -/
def map (q : Query α) (f : α → β) : Query β := q.bind fun a => .done (.ok (f a))

theorem mem_asked_ask {next : UInt8 → Query α} : position ∈ (ask position next).asked image := by
  rw [asked]
  exact List.mem_cons_self

theorem run_ask_of_getElem? {next : UInt8 → Query α} {byte : UInt8}
    (h : image[position]? = some byte) : (ask position next).run image = (next byte).run image := by
  rw [run, Image.byteAt_of_getElem? h]
  rfl

theorem run_ask_of_none {next : UInt8 → Query α} (h : image[position]? = none) :
    (ask position next).run image = .error (Image.cutOffAt position) := by
  rw [run, Image.byteAt_of_size_le (Array.getElem?_eq_none_iff.mp h)]
  rfl

theorem run_bind : (q.bind f).run image = q.run image >>= fun a => (f a).run image := by
  induction q with
  | done result => cases result <;> rfl
  | ask position next ih =>
    show (image.byteAt position >>= fun byte => ((next byte).bind f).run image) = _
    rw [funext ih, run]
    cases image.byteAt position <;> rfl

theorem run_map {g : α → β} : (q.map g).run image = (q.run image).map g := by
  rw [map, run_bind]
  cases q.run image <;> rfl

/-- **The same answers lead to the same result.** -/
theorem run_congr (h : ∀ p ∈ q.asked image, other[p]? = image[p]?) :
    q.run other = q.run image := by
  induction q with
  | done result => rfl
  | ask position next ih =>
    have hfirst : other[position]? = image[position]? := h position mem_asked_ask
    cases hbyte : image[position]? with
    | none => rw [run_ask_of_none hbyte, run_ask_of_none (hfirst.trans hbyte)]
    | some byte =>
      -- the same byte leads to the same question
      rw [run_ask_of_getElem? hbyte, run_ask_of_getElem? (hfirst.trans hbyte)]
      apply ih
      intro p hp
      apply h
      rw [asked, hbyte]
      exact List.mem_cons_of_mem _ hp

/-- Who does not miss a byte has asked for bytes of the image. -/
theorem lt_size_of_mem_asked (h : ∀ before, q.run image ≠ .error (.missingByte before)) :
    ∀ p ∈ q.asked image, p < image.size := by
  induction q with
  | done result => exact fun _ hp => absurd hp List.not_mem_nil
  | ask position next ih =>
    cases hbyte : image[position]? with
    | none => exact absurd (run_ask_of_none hbyte) (h _)
    | some byte =>
      rw [run_ask_of_getElem? hbyte] at h
      rw [asked, hbyte]
      exact List.forall_mem_cons.mpr ⟨(Array.getElem?_eq_some_iff.mp hbyte).1, ih byte h⟩

/-! ## §2. The readers. -/

/-- The entry of a table for the byte at a position. -/
def entry (position : Nat) (table : UInt8 → Option α) (wrong : UInt8 → DecodeError) : Query α :=
  .ask position fun byte =>
    match table byte with
    | some a => .done (.ok a)
    | none => .done (.error (wrong byte))

/-- Four bytes, as a word. -/
def word (position : Nat) : Query UInt32 :=
  .ask position fun a => .ask (position + 1) fun b => .ask (position + 2) fun c =>
    .ask (position + 3) fun d => .done (.ok (Word.ofBytes a b c d))

/-- A sign byte and four bytes of magnitude. -/
def immediate (position : Nat) : Query Int64 :=
  (entry position (fun byte => (Immediate.decodeSign byte).toOption) fun _ =>
    .badSign (.ofNat position)).bind fun negative =>
  (word (position + 1)).map (Immediate.signed negative)

/-- What is behind the first byte of a jump. -/
def jump (position : Nat) : Query (Instruction × Nat) :=
  (entry (position + 1) (fun byte => (JumpCondition.ofCode byte).toOption) fun byte =>
    .badCode jumpPrefix byte (.ofNat (position + 1))).bind fun condition =>
  (word (position + 2)).map fun target => (.jump condition target, Instruction.jumpSize)

/-- What is behind the first byte of a bitwise instruction. -/
def bitwise (position : Nat) : Query (Instruction × Nat) :=
  (entry (position + 1) BitwiseCode.ofByte? fun byte =>
    .badCode bitwisePrefix byte (.ofNat (position + 1))).bind fun
    | .register op src dst => .done (.ok (.bitwise op (.register src) dst, 2))
    | .immediate op dst =>
      (immediate (position + 2)).map fun v => (.bitwise op (.immediate v) dst, 7)

/-- What is behind an opcode. -/
def behind (offset : Nat) : Opcode → Query (Instruction × Nat)
  | .aluRegister op src dst => .done (.ok (.alu op (.register src) dst, 1))
  | .aluImmediate op dst =>
    (immediate (offset + 1)).map fun v => (.alu op (.immediate v) dst, 6)
  | .increment reg => .done (.ok (.increment reg, 1))
  | .decrement reg => .done (.ok (.decrement reg, 1))
  | .printRegister reg => .done (.ok (.print (.register reg), 1))
  | .printImmediate => (immediate (offset + 1)).map fun v => (.print (.immediate v), 6)
  | .jump => jump offset
  | .bitwise => bitwise offset
  | .halt => .done (.ok (.halt, 1))

/-- The instruction at an offset, and its size. -/
def instruction (offset : Nat) : Query (Instruction × Nat) :=
  (entry offset Opcode.ofByte? fun byte => .badOpcode byte (.ofNat offset)).bind (behind offset)

theorem run_entry {table : UInt8 → Option α} {wrong : UInt8 → DecodeError} :
    (entry position table wrong).run image = image.entryAt position table wrong := by
  unfold Image.entryAt
  show (image.byteAt position >>= fun byte => run image (match table byte with
    | some a => .done (.ok a)
    | none => .done (.error (wrong byte)))) = _
  refine congrArg (image.byteAt position >>= ·) (funext fun byte => ?_)
  cases table byte <;> rfl

theorem run_word : (word position).run image = image.wordAt position := rfl

theorem run_immediate : (immediate position).run image = image.immediateAt position := by
  rw [Image.immediateAt_eq, immediate, run_bind, run_entry]
  simp only [run_map, run_word]

theorem run_jump : (jump position).run image = image.jumpAt position := by
  rw [Image.jumpAt_eq, jump, run_bind, run_entry]
  simp only [run_map, run_word]

theorem run_bitwise : (bitwise position).run image = image.bitwiseAt position := by
  rw [Image.bitwiseAt_eq, bitwise, run_bind, run_entry]
  refine congrArg (_ >>= ·) (funext fun code => ?_)
  cases code with
  | register op src dst => rfl
  | immediate op dst =>
    show (map _ _).run image = _
    rw [run_map, run_immediate]
    rfl

theorem run_behind (offset : Nat) (opcode : Opcode) :
    (behind offset opcode).run image = image.behindOpcode offset opcode := by
  cases opcode with
  | aluImmediate op dst =>
    show (map _ _).run image = _
    rw [run_map, run_immediate]
    rfl
  | printImmediate =>
    show (map _ _).run image = _
    rw [run_map, run_immediate]
    rfl
  | jump => exact run_jump
  | bitwise => exact run_bitwise
  | _ => rfl

/-- **The reader of instructions asks these questions** and reads what they lead to. -/
theorem run_instruction (offset : Nat) :
    (instruction offset).run image = image.decodeAt offset := by
  rw [Image.decodeAt_eq, instruction, run_bind, run_entry]
  exact congrArg (_ >>= ·) (funext (run_behind offset))

/-! ## §3. What the readers ask for. -/

/-- The questions are for one byte behind the other, from a position on.  What is read ends behind
the last of them, as `stop` says, and a failure blames the last. -/
inductive Straight (stop : α → Nat) : Nat → Query α → Prop where
  | read {p : Nat} {a : α} (h : stop a = p) : Straight stop p (.done (.ok a))
  | wrong {p : Nat} {cause : DecodeError} (h : cause.wrongAt? = some (.ofNat p)) :
      Straight stop (p + 1) (.done (.error cause))
  | ask {p : Nat} {next : UInt8 → Query α} (h : ∀ byte, Straight stop (p + 1) (next byte)) :
      Straight stop p (.ask p next)

variable {stop : α → Nat} {stopNext : β → Nat}

theorem Straight.bind (h : Straight stop position q)
    (hf : ∀ a, Straight stopNext (stop a) (f a)) : Straight stopNext position (q.bind f) := by
  induction h with
  | read h => exact h ▸ hf _
  | wrong h => exact .wrong h
  | ask _ ih => exact .ask ih

theorem Straight.map (h : Straight stop position q) {g : α → β}
    (hg : ∀ a, stopNext (g a) = stop a) : Straight stopNext position (q.map g) :=
  h.bind fun a => .read (hg a)

theorem straight_entry {table : UInt8 → Option α} {wrong : UInt8 → DecodeError}
    (h : ∀ byte, (wrong byte).wrongAt? = some (.ofNat position)) :
    Straight (fun _ => position + 1) position (entry position table wrong) := by
  refine .ask fun byte => ?_
  cases table byte with
  | some a => exact .read rfl
  | none => exact .wrong (h byte)

theorem straight_word (position : Nat) :
    Straight (fun _ => position + 4) position (word position) :=
  .ask fun _ => .ask fun _ => .ask fun _ => .ask fun _ => .read rfl

theorem straight_immediate (position : Nat) :
    Straight (fun _ => position + 5) position (immediate position) :=
  (straight_entry fun _ => rfl).bind fun _ => (straight_word (position + 1)).map fun _ => rfl

/-- A reader of instructions stops behind the bytes of the instruction. -/
theorem straight_instruction (offset : Nat) :
    Straight (fun read => offset + read.2) offset (instruction offset) := by
  refine (straight_entry fun _ => rfl).bind fun opcode => ?_
  cases opcode with
  | aluImmediate op dst => exact (straight_immediate (offset + 1)).map fun _ => rfl
  | printImmediate => exact (straight_immediate (offset + 1)).map fun _ => rfl
  | jump =>
    exact (straight_entry fun _ => rfl).bind fun _ => (straight_word (offset + 2)).map fun _ => rfl
  | bitwise =>
    refine (straight_entry fun _ => rfl).bind fun code => ?_
    cases code with
    | register op src dst => exact .read rfl
    | immediate op dst => exact (straight_immediate (offset + 2)).map fun _ => rfl
  | _ => exact .read rfl

/-- The questions are for as many bytes as it takes to come to an end. -/
theorem Straight.asked (h : Straight stop position q) (image : Image) : ∃ n,
    q.asked image = List.range' position n
      ∧ (∀ a, q.run image = .ok a → stop a = position + n)
      ∧ ∀ cause blamed, q.run image = .error cause → cause.wrongAt? = some blamed →
          blamed = .ofNat (position + n - 1) := by
  induction h with
  | read h =>
    refine ⟨0, rfl, ?_, ?_⟩
    · rintro a ⟨⟩
      exact h
    · rintro cause blamed ⟨⟩
  | wrong h =>
    refine ⟨0, rfl, ?_, ?_⟩
    · rintro a ⟨⟩
    · rintro cause blamed ⟨⟩ hb
      exact Option.some.inj (hb.symm.trans h)
  | @ask p next _ ih =>
    cases hbyte : image[p]? with
    | none =>
      refine ⟨1, by rw [Query.asked, hbyte]; rfl, ?_, ?_⟩
      · intro a hr
        rw [run_ask_of_none hbyte] at hr
        cases hr
      · -- a byte that is missing is not wrong
        intro cause blamed hr hb
        rw [run_ask_of_none hbyte] at hr
        cases hr
        cases hb
    | some byte =>
      obtain ⟨n, hasked, hread, hwrong⟩ := ih byte
      rw [run_ask_of_getElem? hbyte]
      refine ⟨n + 1, ?_, fun a hr => ?_, fun cause blamed hr hb => ?_⟩
      · rw [Query.asked, hbyte, List.range'_succ]
        exact congrArg (p :: ·) hasked
      · rw [hread a hr]
        omega
      · rw [hwrong cause blamed hr hb]
        congr 1
        omega

/-- **An instruction is read from its own bytes**: they are asked for one behind the other, and no
other byte is.  Where a byte is wrong, it is the last that is asked for. -/
theorem asked_instruction (image : Image) (offset : Nat) : ∃ n,
    (instruction offset).asked image = List.range' offset n
      ∧ (∀ i size, image.decodeAt offset = .ok (i, size) → n = size)
      ∧ ∀ cause blamed, image.decodeAt offset = .error cause → cause.wrongAt? = some blamed →
          blamed = .ofNat (offset + n - 1) := by
  obtain ⟨n, hasked, hread, hwrong⟩ := (straight_instruction offset).asked image
  rw [run_instruction] at hread hwrong
  refine ⟨n, hasked, fun i size hr => ?_, hwrong⟩
  have := hread (i, size) hr
  omega

/-- The byte at the offset is asked for in any case. -/
theorem mem_asked_instruction (offset : Nat) : offset ∈ (instruction offset).asked image :=
  mem_asked_ask

end Query

namespace Machine

/-- The run has come to its end inside the image: its machine has halted, or it failed otherwise
than for want of a byte. -/
def Run.EndsInside (r : Run) : Prop :=
  (r.fault = none → r.session.machine.halted = true)
    ∧ ∀ before, r.fault ≠ some (.decode (.missingByte before))

namespace Session

variable {image other : Image} {s : Session} {r : Run}

/-! ## §4. Steps. -/

/-- The positions that the next step asks for. -/
def seen (image : Image) (s : Session) : List Nat :=
  (Query.instruction s.machine.pointer.toNat).asked image

/-- The positions that so many steps ask for. -/
def footprint (image : Image) : Nat → Session → List Nat
  | 0, _ => []
  | k + 1, s => s.seen image ++ footprint image k (s.step image).1

/-- **A step depends on the bytes it asks for.** -/
theorem step_congr (h : ∀ p ∈ s.seen image, other[p]? = image[p]?) :
    s.step other = s.step image := by
  have hread : other.decodeAt s.machine.pointer.toNat = image.decodeAt s.machine.pointer.toNat := by
    rw [← Query.run_instruction, ← Query.run_instruction]
    exact Query.run_congr h
  unfold step
  rw [hread]

/-- A machine goes on in an image that has the byte under its pointer. -/
theorem running_congr (hr : s.running image = true)
    (h : ∀ p ∈ s.seen image, other[p]? = image[p]?) : s.running other = true := by
  obtain ⟨hhalted, hlt⟩ := running_iff.mp hr
  have hbyte := h _ (Query.mem_asked_instruction _)
  rw [Array.getElem?_eq_getElem hlt] at hbyte
  exact running_iff.mpr ⟨hhalted, (Array.getElem?_eq_some_iff.mp hbyte).1⟩

/-- A machine that has halted goes on in no image. -/
theorem running_of_halted (h : s.machine.halted = true) (image : Image) :
    s.running image = false := by
  rw [← Bool.not_eq_true, running_iff, h]
  exact fun hr => Bool.noConfusion hr.1

/-- A step that does not miss a byte asks for bytes of the image. -/
theorem lt_size_of_mem_seen (h : ∀ before, (s.step image).2 ≠ some (.decode (.missingByte before))) :
    ∀ p ∈ s.seen image, p < image.size := by
  refine Query.lt_size_of_mem_asked fun before hr => h before ?_
  rw [Query.run_instruction] at hr
  rw [step_of_error hr]

/-! ## §5. Runs. -/

theorem footprint_after {t : Session} (h : s.step image = (t, none)) :
    s.footprint image (r.after 1).steps = s.seen image ++ t.footprint image r.steps := by
  show s.footprint image (1 + r.steps) = _
  rw [Nat.add_comm, footprint, h]

/-- A run that ends inside an image has asked for bytes of the image. -/
theorem lt_size_of_mem_footprint (h : Finishes image s r) (he : r.EndsInside) :
    ∀ p ∈ s.footprint image r.steps, p < image.size := by
  -- a step that completes has read an instruction, and the last one fails for want of no byte
  induction h with
  | stopped _ => exact fun _ hp => absurd hp List.not_mem_nil
  | @failed s t fault hr h =>
    show ∀ p ∈ s.seen image ++ [], _
    rw [List.append_nil]
    refine lt_size_of_mem_seen fun before => ?_
    rw [h]
    exact he.2 before
  | @goesOn s t r hr h _ ih =>
    rw [footprint_after h]
    refine List.forall_mem_append.mpr ⟨lt_size_of_mem_seen fun before => ?_, ih he⟩
    rw [h]
    exact Option.some_ne_none _ ∘ Eq.symm

/-- **A run that ends inside an image depends on the bytes it asks for.**  A machine that has
halted goes on in no image, and one that has not asks for the byte under its pointer. -/
theorem runFor_congr (h : Finishes image s r) (he : r.EndsInside)
    (hsame : ∀ p ∈ s.footprint image r.steps, other[p]? = image[p]?) :
    ∀ n, s.runFor other n = s.runFor image n := by
  -- induction on the run without a limit, which is longer by the step that comes first
  induction h with
  | @stopped s h =>
    intro n
    rw [runFor_of_stopped h, runFor_of_stopped (running_of_halted (he.1 rfl) other)]
  | @failed s t fault hr h =>
    change ∀ p ∈ s.seen image ++ [], _ at hsame
    rw [List.append_nil] at hsame
    rintro (_ | n)
    · rfl
    · rw [runFor_of_failed hr h,
        runFor_of_failed (running_congr hr hsame) ((step_congr hsame).trans h)]
  | @goesOn s t r hr h _ ih =>
    rw [footprint_after h, List.forall_mem_append] at hsame
    rintro (_ | n)
    · rfl
    · rw [runFor_of_goesOn hr h,
        runFor_of_goesOn (running_congr hr hsame.1) ((step_congr hsame.1).trans h), ih he hsame.2]

/-- A run that ends inside an image ends so in each image with the same bytes. -/
theorem Finishes.congr (h : Finishes image s r) (he : r.EndsInside)
    (hsame : ∀ p ∈ s.footprint image r.steps, other[p]? = image[p]?) : Finishes other s r := by
  have hrun : s.runFor other r.steps = r :=
    (runFor_congr h he hsame _).trans (runFor_of_finishes h (Nat.le_refl _))
  rw [← hrun]
  refine finishes_of_ended _ ?_
  rw [hrun]
  cases hfault : r.fault with
  | some fault => exact .inl (hfault ▸ rfl)
  | none => exact .inr (running_of_halted (he.1 hfault) other)

/-- **Bytes that are not asked for do not matter.**  A machine runs an image and comes to its end
inside it: it halts, or it fails to divide, to print or to read because a byte is wrong.  Then it
has asked for bytes of the image only.  In any other image with the same bytes at these positions
it comes to the same end in as many steps, and so do the two runs for any number of steps: the
machine, the output and the fault are the same.  This is so for the image with any bytes behind it
in particular. -/
theorem unread_bytes_do_not_matter (image : Image) (s : Session) (r : Run)
    (h : Finishes image s r) (he : r.EndsInside) :
    (∀ p ∈ s.footprint image r.steps, p < image.size) ∧
    (∀ other : Image, (∀ p ∈ s.footprint image r.steps, other[p]? = image[p]?) →
      Finishes other s r ∧ ∀ n, s.runFor other n = s.runFor image n) ∧
    ∀ more : Image,
      Finishes (image ++ more) s r ∧ ∀ n, s.runFor (image ++ more) n = s.runFor image n := by
  have hinside := lt_size_of_mem_footprint h he
  have hagree : ∀ other : Image, (∀ p ∈ s.footprint image r.steps, other[p]? = image[p]?) →
      Finishes other s r ∧ ∀ n, s.runFor other n = s.runFor image n := fun other hsame =>
    ⟨h.congr he hsame, runFor_congr h he hsame⟩
  exact ⟨hinside, hagree, fun more => hagree _ fun p hp => Array.getElem?_append_left (hinside p hp)⟩

/-- The last two bytes of the literal are executed as well: there the jump leads.  Only the byte
behind the jump is never asked for. -/
theorem unread_bytes_do_not_matter_overlap :
    let image : Image := #[0x50, 0xfe, 0, 0, 0xb0, 0xf4, 0xc0, 0x10, 0, 0, 0, 4, 0x77]
    let other : Image := #[0x50, 0xfe, 0, 0, 0xb0, 0xf4, 0xc0, 0x10, 0, 0, 0, 4, 0xf4, 0x90]
    let r := Session.runFor image 4 {}
    Finishes image {} r ∧ r.EndsInside ∧ r.steps = 4 ∧ r.session.output.written = "45300\n" ∧
      Finishes other {} r ∧ Finishes (image ++ #[0x90]) {} r := by
  intro image other r
  have hrun : r.steps = 4 ∧ r.session.output.written = "45300\n" ∧ r.fault = none
      ∧ r.session.machine.halted = true := by decide +kernel
  obtain ⟨hsteps, hwritten, hfault, hhalted⟩ := hrun
  have hfinishes : Finishes image {} r :=
    finishes_of_ended 4 (.inr (running_of_halted hhalted image))
  have hends : r.EndsInside := ⟨fun _ => hhalted, fun _ hf => by rw [hfault] at hf; cases hf⟩
  have hsame : ∀ p ∈ Session.footprint image r.steps {}, other[p]? = image[p]? := by
    decide +kernel
  obtain ⟨-, hagree, hmore⟩ := unread_bytes_do_not_matter image {} r hfinishes hends
  exact ⟨hfinishes, hends, hsteps, hwritten, (hagree other hsame).1, (hmore #[0x90]).1⟩

end Session

end Machine

end ByteMachine
