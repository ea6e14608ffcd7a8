/-
  ByteMachine.Proofs.Arithmetic — register arithmetic is integer arithmetic modulo 2³².

  A program of moves, sums, differences, products and steps by one is executed twice: on unbounded
  integers, with its literals as they are written, and by a machine, which keeps 32 bits of a
  literal's magnitude in the image and 32 bits of every result in a register.  What a register holds
  is all the time the low 32 bits of the integer (`Values.In`): what is lost of a literal is a
  multiple of 2³², and sums, differences and products do not see multiples of it.

    • `Scanned.width_le` — tokens are no longer than their source,
    • `Computes.step` — one line keeps `Values.In`,
    • `Compiles.runFrom` — so a whole run does, and it ends behind the last line,
    • `arithmetic_is_exact_modulo` — from the source to the registers.
-/
import Mathlib
import ByteMachine.Proofs.Agreement
import ByteMachine.Proofs.Calls

namespace ByteMachine.Assembly

open Machine

/-! ## §1. Arithmetic on integers. -/

/-- The words that compute with a source and a destination. -/
def arithmeticWords : List String := ["movb", "addb", "subb", "mulb"]

/-- The words that take a register one further. -/
def steppingWords : List String := ["incb", "decb"]

/-- A line of arithmetic without its line end: nothing, or one instruction. -/
inductive Arithmetic : List TokenKind → Prop where
  | blank : Arithmetic []
  | binary {word : String} (h : word ∈ arithmeticWords) (src : Operand) (dst : Register) :
      Arithmetic [.mnemonic word, operandToken src, .comma, .register dst]
  | stepping {word : String} (h : word ∈ steppingWords) (reg : Register) :
      Arithmetic [.mnemonic word, .register reg]

/-- An integer for each register. -/
abbrev Values : Type := Register → Int

/-- The integer that a word makes of a destination and a source. -/
def binaryResult (word : String) (current v : Int) : Int :=
  match word with
  | "movb" => v
  | "addb" => current + v
  | "subb" => current - v
  | "mulb" => current * v
  | _ => current

/-- The integer that a word makes of a register. -/
def steppingResult (word : String) (current : Int) : Int :=
  match word with
  | "incb" => current + 1
  | "decb" => current - 1
  | _ => current

namespace Values

/-- The integer that a source stands for: a register's, or a literal as it is written. -/
def source (values : Values) : TokenKind → Int
  | .register reg => values reg
  | .number v => v.toInt
  | _ => 0

/-- The integers behind a line. -/
def exec (values : Values) : List TokenKind → Values
  | [.mnemonic word, src, .comma, .register dst] =>
    Function.update values dst (binaryResult word (values dst) (values.source src))
  | [.mnemonic word, .register reg] =>
    Function.update values reg (steppingResult word (values reg))
  | _ => values

/-- The integers behind all lines; at first they are zeros. -/
def ofLines (lines : List (List TokenKind)) : Values := lines.foldl exec fun _ => 0

/-! ## §2. Registers. -/

/-- The registers hold the low 32 bits of the integers. -/
def In (values : Values) (m : Machine) : Prop :=
  ∀ reg, m.registers.get reg = Int32.ofInt (values reg)

variable {values : Values} {m : Machine}

/-- A register holds the signed representative of its integer. -/
theorem In.toInt_get (h : values.In m) (reg : Register) :
    (m.registers.get reg).toInt = (values reg).bmod (2 ^ 32) := by
  rw [h reg]
  exact Int32.toInt_ofInt

/-- **A source is read as the low 32 bits of what is written**, also where the image has less than
that of the literal. -/
theorem In.value (h : values.In m) (src : Operand) :
    m.value src.reduce = Int32.ofInt (values.source (operandToken src)) := by
  cases src with
  | register reg => exact h reg
  | immediate v =>
    show (Immediate.reduce v).toInt32 = Int32.ofInt v.toInt
    rw [Immediate.toInt32_reduce, Int32.ofInt_int64ToInt]

/-- An integer and the register that holds its low bits are replaced together. -/
theorem In.update (h : values.In m) (reg : Register) (v : Int) (p : Pointer) :
    Values.In (Function.update values reg v) ((m.setRegister reg (Int32.ofInt v)).goto p) := by
  intro read
  show (m.registers.set reg (Int32.ofInt v)).get read = _
  rw [Registers.get_set, Function.update_apply]
  by_cases he : read = reg
  · rw [if_pos he, if_pos he]
  · rw [if_neg he, if_neg he]
    exact h read

end Values

/-! ## §3. Sizes. -/

/-- The least number of characters that a token takes. -/
def TokenKind.width : TokenKind → Nat
  | .mnemonic text => text.length
  | _ => 1

variable {line : Nat} {operand : Bool} {kinds : List TokenKind} {i : Instruction}

/-- A lexeme takes no fewer characters than the width of its token. -/
theorem width_of_lexed {c : Char} {rest left : List Char} {kind : TokenKind}
    (h : Lexed operand c rest (some kind) left) : kind.width + left.length ≤ rest.length + 1 := by
  cases h with
  | newline => exact (Nat.add_comm _ _).le
  | comma => exact (Nat.add_comm _ _).le
  | number h =>
    have := length_of_scanNumber h
    show 1 + left.length ≤ rest.length + 1
    omega
  | label h =>
    have := (List.dropWhile_sublist (l := rest) (!isLineEnd ·)).length_le
    show 1 + _ ≤ rest.length + 1
    omega
  | word hc h =>
    have hsplit := congrArg List.length (List.takeWhile_append_dropWhile (p := (!isDelimiter ·))
      (l := rest))
    rw [List.length_append] at hsplit
    unfold word at h
    split at h
    · cases h
      show (String.ofList _).length + _ ≤ _
      rw [String.length_ofList, List.length_cons]
      omega
    · split at h
      · cases h
        show 1 + _ ≤ _
        omega
      · cases h

/-- **Tokens are no longer than their source.** -/
theorem Scanned.width_le {source : List Char} {tokens : List Token}
    (h : Scanned line operand source tokens) :
    (tokens.map (·.kind.width)).sum ≤ source.length := by
  induction h with
  | done => exact Nat.le_refl 0
  | skip lexed _ ih =>
    exact ih.trans ((suffix_of_lexed lexed).length_le.trans (Nat.le_succ _))
  | @token line operand c rest left kind tokens lexed _ ih =>
    have hwidth := width_of_lexed lexed
    show kind.width + (tokens.map (·.kind.width)).sum ≤ rest.length + 1
    omega

/-! ## §4. One line. -/

/-- The line is the instruction: for the assembler, and for the registers of a machine that reads
the instruction back from an image. -/
structure Computes (kinds : List TokenKind) (i : Instruction) : Prop where
  form : ∃ nodes, Says nodes (.plain i) ∧ kinds = lineTokens nodes
  size_le : i.size ≤ (kinds.map TokenKind.width).sum
  effect : ∀ {values : Values} {m : Machine}, values.In m → ∃ reg v,
    m.effect i.reduce = .assign reg (Int32.ofInt v) ∧
      values.exec kinds = Function.update values reg v

/-- The words that compute are mnemonics of operations that wrap. -/
theorem operation_of_mem_arithmeticWords {word : String} (h : word ∈ arithmeticWords) :
    ∃ op : AluOp, op.mnemonic = word ∧ op ≠ .divide ∧ op ≠ .compare := by
  have hall : arithmeticWords
      = [AluOp.move, .add, .subtract, .multiply].map AluOp.mnemonic := rfl
  rw [hall] at h
  obtain ⟨op, hop, rfl⟩ := List.mem_map.mp h
  refine ⟨op, rfl, fun he => ?_, fun he => ?_⟩
  · rw [he] at hop
    exact absurd hop (by decide)
  · rw [he] at hop
    exact absurd hop (by decide)

theorem computes_alu {op : AluOp} (hdivide : op ≠ .divide) (hcompare : op ≠ .compare)
    (src : Operand) (dst : Register) :
    Computes [.mnemonic op.mnemonic, operandToken src, .comma, .register dst]
      (.alu op src dst) where
  form := ⟨_, .alu op src dst, (lineTokens_binary src dst).symm⟩
  size_le := by
    have hword : op.mnemonic.length = 4 := by cases op <;> rfl
    have hsrc : src.size ≤ Immediate.size ∧ (operandToken src).width = 1 := by
      cases src with
      | register reg => exact ⟨Nat.zero_le _, rfl⟩
      | immediate v => exact ⟨Nat.le_refl _, rfl⟩
    obtain ⟨hsize, hwidth⟩ := hsrc
    show 1 + src.size ≤ op.mnemonic.length + ((operandToken src).width + (1 + (1 + 0)))
    rw [hword, hwidth]
    exact (Nat.add_le_add_left hsize 1).trans (by decide)
  effect := by
    intro values m h
    show ∃ reg v, aluEffect op dst (m.registers.get dst) (m.value src.reduce) = _ ∧ _
    rw [h dst, h.value src]
    -- the word of a sum, a difference or a product is the sum, difference or product of the words
    cases op with
    | move => exact ⟨dst, _, rfl, rfl⟩
    | add =>
      exact ⟨dst, values dst + values.source (operandToken src),
        congrArg _ (Int32.ofInt_add _ _).symm, rfl⟩
    | subtract =>
      exact ⟨dst, values dst - values.source (operandToken src),
        congrArg _ (Int32.ofInt_sub _ _).symm, rfl⟩
    | multiply =>
      exact ⟨dst, values dst * values.source (operandToken src),
        congrArg _ (Int32.ofInt_mul _ _).symm, rfl⟩
    | divide => exact absurd rfl hdivide
    | compare => exact absurd rfl hcompare

theorem computes_increment (reg : Register) :
    Computes [.mnemonic "incb", .register reg] (.increment reg) where
  form := ⟨_, .increment reg, rfl⟩
  size_le := Nat.le_add_left 1 _
  effect := by
    intro values m h
    refine ⟨reg, values reg + 1, ?_, rfl⟩
    show Effect.assign reg (m.registers.get reg + 1) = _
    rw [h reg, Int32.ofInt_add]
    rfl

theorem computes_decrement (reg : Register) :
    Computes [.mnemonic "decb", .register reg] (.decrement reg) where
  form := ⟨_, .decrement reg, rfl⟩
  size_le := Nat.le_add_left 1 _
  effect := by
    intro values m h
    refine ⟨reg, values reg - 1, ?_, rfl⟩
    show Effect.assign reg (m.registers.get reg - 1) = _
    rw [h reg, Int32.ofInt_sub]
    rfl

/-- **A line of arithmetic is empty or an instruction.** -/
theorem exists_computes (h : Arithmetic kinds) : kinds = [] ∨ ∃ i, Computes kinds i := by
  cases h with
  | blank => exact .inl rfl
  | binary h src dst =>
    obtain ⟨op, rfl, hdivide, hcompare⟩ := operation_of_mem_arithmeticWords h
    exact .inr ⟨_, computes_alu hdivide hcompare src dst⟩
  | stepping h reg =>
    rcases List.mem_pair.mp h with rfl | rfl
    · exact .inr ⟨_, computes_increment reg⟩
    · exact .inr ⟨_, computes_decrement reg⟩

section Step

variable {image : Image} {s : Session} {values : Values}

/-- **One line keeps the low bits**: the step completes, prints nothing and goes on behind the
instruction. -/
theorem Computes.step (hc : Computes kinds i) (ha : Addressable image) (hin : values.In s.machine)
    (hi : image.Holds s.machine.pointer.toNat i.encode)
    (hle : s.machine.pointer.toNat + i.size ≤ image.size) :
    ∃ next, s.step image = (next, none) ∧ (values.exec kinds).In next.machine ∧
      next.machine.pointer.toNat = s.machine.pointer.toNat + i.size ∧
      next.machine.halted = s.machine.halted ∧ next.output = s.output := by
  obtain ⟨reg, v, heffect, hexec⟩ := hc.effect hin
  refine ⟨{ s with
      machine := (s.machine.setRegister reg (Int32.ofInt v)).goto
        ((s.machine.pointer.lastByte i.size).forward 1) }, ?_, ?_, ?_, rfl, rfl⟩
  · rw [Session.step_of_decodeAt (Image.decodeAt_encode i hi), heffect]
    rfl
  · rw [hexec]
    exact hin.update reg v _
  · exact Pointer.toNat_behind (hle.trans_lt ha)

end Step

/-! ## §5. All lines. -/

/-- The lines are the instructions; an empty line is none. -/
inductive Compiles : List (List TokenKind) → List Instruction → Prop where
  | nil : Compiles [] []
  | blank {lines : List (List TokenKind)} {is : List Instruction} (rest : Compiles lines is) :
      Compiles ([] :: lines) is
  | line {kinds : List TokenKind} {i : Instruction} {lines : List (List TokenKind)}
      {is : List Instruction} (first : Computes kinds i) (rest : Compiles lines is) :
      Compiles (kinds :: lines) (i :: is)

variable {lines : List (List TokenKind)} {is : List Instruction}

/-- Instructions are no larger than their lines are long. -/
theorem Compiles.sizeAll_le (h : Compiles lines is) :
    Instruction.sizeAll is ≤ (lines.flatten.map TokenKind.width).sum := by
  induction h with
  | nil => exact Nat.le_refl 0
  | blank rest ih => exact ih
  | line first rest ih =>
    rw [Instruction.sizeAll_cons, List.flatten_cons, List.map_append, List.sum_append]
    exact Nat.add_le_add first.size_le ih

/-- **Instructions are no larger than the source of their lines.** -/
theorem Compiles.sizeAll_le_length {source : String} {tokens : List Token}
    (h : Compiles ((tokenLines tokens).map (List.map Token.kind)) is)
    (hs : scan source = .ok tokens) : Instruction.sizeAll is ≤ source.length :=
  calc Instruction.sizeAll is
      ≤ (((tokenLines tokens).map (List.map Token.kind)).flatten.map TokenKind.width).sum :=
        h.sizeAll_le
    _ = ((tokens.filter (·.kind != .newline)).map (·.kind.width)).sum := by
        rw [← List.map_flatten, (tokenLines_spec tokens).2.2, List.map_map]
        rfl
    _ ≤ (tokens.map (·.kind.width)).sum :=
        (List.filter_sublist.map _).sum_le_sum fun _ _ => Nat.zero_le _
    _ ≤ source.length := by
        rw [← String.length_toList]
        exact (scanned_of_scanFrom _ hs).width_le

/-- Instructions are no more than their bytes. -/
theorem length_le_sizeAll (is : List Instruction) : is.length ≤ Instruction.sizeAll is := by
  have hlength := List.length_le_sum_of_one_le (is.map Instruction.size) fun n hn => by
    obtain ⟨i, -, rfl⟩ := List.mem_map.mp hn
    exact i.size_pos
  rwa [List.length_map] at hlength

/-- **Lines of arithmetic are read, as instructions alone.** -/
theorem exists_compiles : ∀ {lines : List (List Token)},
    (∀ line ∈ lines, Arithmetic (line.map Token.kind)) → ∃ lists is,
      lines.mapM lineNodes = .ok lists ∧ Readable lists.flatten ∧
      statements lists.flatten = is.map .plain ∧ Compiles (lines.map (List.map Token.kind)) is := by
  intro lines
  induction lines with
  | nil => exact fun _ => ⟨[], [], rfl, fun _ hm => absurd hm List.not_mem_nil, rfl, .nil⟩
  | cons line lines ih =>
    intro h
    obtain ⟨hline, hlines⟩ := List.forall_mem_cons.mp h
    obtain ⟨lists, is, hlists, hreadable, hstatements, hcompiles⟩ := ih hlines
    rcases exists_computes hline with hblank | ⟨i, hc⟩
    · refine ⟨[] :: lists, is, ?_, hreadable, hstatements, ?_⟩
      · rw [List.mapM_cons, List.map_eq_nil_iff.mp hblank, hlists]
        rfl
      · rw [List.map_cons, hblank]
        exact .blank hcompiles
    · obtain ⟨nodes, hform, hkinds⟩ := hc.form
      have hstatement := Tree.statement?_line (ofLine_iff.mpr hform)
      refine ⟨[.line nodes] :: lists, i :: is, ?_, ?_, ?_, .line hc hcompiles⟩
      · rw [List.mapM_cons, lineNodes_of_says hform hkinds, hlists]
        rfl
      · refine List.forall_mem_cons.mpr ⟨fun hnone => ?_, hreadable⟩
        rw [hstatement] at hnone
        cases hnone
      · show List.filterMap Tree.statement? (.line nodes :: lists.flatten) = _
        rw [List.filterMap_cons_some hstatement, List.map_cons, ← hstatements]
        rfl

section Run

variable {image : Image}

/-- **A run keeps the low bits.**  Where the instructions are the rest of the image, no run fails or
prints, and a run that has a step for each of them ends behind the last. -/
theorem Compiles.runFrom (ha : Addressable image) (h : Compiles lines is) :
    ∀ (limit steps : Nat) {values : Values} {s : Session}, values.In s.machine →
      s.machine.halted = false →
      image.Holds s.machine.pointer.toNat (Instruction.encodeAll is) →
      s.machine.pointer.toNat + Instruction.sizeAll is = image.size →
      (s.runFrom image steps limit).fault = none ∧
      (s.runFrom image steps limit).session.output = s.output ∧
      (is.length ≤ limit → (s.runFrom image steps limit).session.running image = false ∧
        Values.In (lines.foldl Values.exec values)
          (s.runFrom image steps limit).session.machine) := by
  induction h with
  | nil =>
    intro limit steps values s hin hhalted _ hend
    have hstopped : s.running image = false := by
      show (!s.machine.halted && decide (s.machine.pointer.toNat < image.size)) = false
      rw [decide_eq_false (by rw [← hend]; exact Nat.lt_irrefl _), Bool.and_false]
    rw [Session.runFrom_of_not_running hstopped]
    exact ⟨rfl, rfl, fun _ => ⟨hstopped, hin⟩⟩
  | blank rest ih => exact ih
  | @line kinds i lines is first rest ih =>
    intro limit steps values s hin hhalted hholds hend
    cases limit with
    | zero => exact ⟨rfl, rfl, fun hle => absurd hle (Nat.not_succ_le_zero _)⟩
    | succ limit =>
      rw [Instruction.encodeAll_cons, Image.holds_append, Instruction.length_encode] at hholds
      rw [Instruction.sizeAll_cons, ← Nat.add_assoc] at hend
      obtain ⟨next, hstep, hnext, hpointer, hkept, houtput⟩ := first.step ha hin hholds.1
        (hend ▸ Nat.le_add_right _ _)
      have hrunning : s.running image = true := by
        have := i.size_pos
        show (!s.machine.halted && decide (s.machine.pointer.toNat < image.size)) = true
        rw [hhalted, decide_eq_true (by omega)]
        rfl
      rw [Session.runFrom, if_pos hrunning, hstep]
      rw [← hpointer] at hholds hend
      have hrest := ih limit (steps + 1) hnext (hkept.trans hhalted) hholds.2 hend
      rw [houtput] at hrest
      exact ⟨hrest.1, hrest.2.1, fun hle => hrest.2.2 (Nat.le_of_succ_le_succ hle)⟩

end Run

/-! ## §6. From the source to the registers. -/

/-- **Register arithmetic is integer arithmetic modulo 2³².**  A source of moves, sums, differences,
products and steps by one, with any literals, is assembled, and its image is no larger than the
source is long.  Where the image fits into memory, no run of it fails, however many steps it is
given; a run to the end stops behind the last line, prints nothing, and leaves in each register the
signed 32-bit representative of the integer that the lines come to when nothing is cut. -/
theorem arithmetic_is_exact_modulo {source : String} {tokens : List Token}
    (hs : scan source = .ok tokens)
    (ha : ∀ line ∈ tokenLines tokens, Arithmetic (line.map Token.kind)) :
    ∃ image, assemble source = .ok image ∧ image.size ≤ source.length ∧
      (Addressable image → ∀ output : Output,
        (∀ limit, (Session.runFor image limit { output }).fault = none) ∧
        (Session.run image { output }).session.running image = false ∧
        (Session.run image { output }).session.output = output ∧
        let values := Values.ofLines ((tokenLines tokens).map (List.map Token.kind))
        ∀ reg, ((Session.run image { output }).session.machine.registers.get reg).toInt
          = (values reg).bmod (2 ^ 32)) := by
  obtain ⟨lists, is, hlists, hreadable, hstatements, hcompiles⟩ := exists_compiles ha
  obtain ⟨image, himage, hbytes⟩ := assemble_of_plain hreadable hstatements
  have hassemble : assemble source = .ok image := by
    unfold assemble Tree.ofSource
    rw [hs]
    show (Tree.ofTokens tokens >>= Tree.assemble) = _
    rw [ofTokens_iff.mpr ⟨lists, hlists, rfl⟩]
    exact himage
  have hsize : image.size = Instruction.sizeAll is := by
    rw [← Array.length_toList, hbytes, Instruction.length_encodeAll]
  refine ⟨image, hassemble, ?_, fun haddressable output => ?_⟩
  · rw [hsize]
    exact hcompiles.sizeAll_le_length hs
  have hin : Values.In (fun _ => 0) ({ output } : Session).machine := fun reg => by
    cases reg <;> rfl
  have hholds : image.Holds [].length (Instruction.encodeAll is) :=
    Image.holds_of_toList (hbytes.trans (List.append_nil _).symm)
  have hrun := fun limit => hcompiles.runFrom haddressable limit 0 hin rfl hholds
    ((Nat.zero_add _).trans hsize.symm)
  have henough : is.length ≤ Session.stepBound := by
    rw [Addressable, hsize] at haddressable
    exact (length_le_sizeAll is).trans (Nat.le_pred_of_lt haddressable)
  obtain ⟨-, houtput, hend⟩ := hrun Session.stepBound
  obtain ⟨hstopped, hin⟩ := hend henough
  exact ⟨fun limit => (hrun limit).1, hstopped, houtput, hin.toInt_get⟩

/-- The square of a literal of which an immediate keeps a number that is too large for a register,
and a step below zero: on integers a number of 38 digits, in the register 9. -/
theorem arithmetic_is_exact_modulo_square :
    let source := "movb #-9223372036854775805,r0\nmulb r0,r0\ndecb r1"
    ∃ tokens image, scan source = .ok tokens ∧
      (∀ line ∈ tokenLines tokens, Arithmetic (line.map Token.kind)) ∧
      assemble source = .ok image ∧ Addressable image ∧
      (Session.run image {}).fault = none ∧
      (Session.run image {}).session.machine.registers.toList.map Int32.toInt = [9, -1, 0, 0] := by
  intro source
  have hs : scan source = .ok [⟨.mnemonic "movb", 1⟩, ⟨.number (-9223372036854775805), 1⟩,
      ⟨.comma, 1⟩, ⟨.register .r0, 1⟩, ⟨.newline, 1⟩, ⟨.mnemonic "mulb", 2⟩, ⟨.register .r0, 2⟩,
      ⟨.comma, 2⟩, ⟨.register .r0, 2⟩, ⟨.newline, 2⟩, ⟨.mnemonic "decb", 3⟩,
      ⟨.register .r1, 3⟩] := by cbv
  have ha : ∀ line ∈ [[TokenKind.mnemonic "movb", .number (-9223372036854775805), .comma,
      .register .r0], [.mnemonic "mulb", .register .r0, .comma, .register .r0],
      [.mnemonic "decb", .register .r1]], Arithmetic line := by
    refine List.forall_mem_cons.mpr ⟨.binary (by decide) (.immediate _) .r0,
      List.forall_mem_cons.mpr ⟨.binary (by decide) (.register .r0) .r0,
      List.forall_mem_cons.mpr ⟨.stepping (by decide) .r1, fun _ hm => absurd hm List.not_mem_nil⟩⟩⟩
  obtain ⟨image, himage, hsize, hrun⟩ := arithmetic_is_exact_modulo hs fun line hl =>
    ha _ (List.mem_map_of_mem hl)
  have haddressable : Addressable image := hsize.trans_lt (by decide)
  obtain ⟨hfault, -, -, hregisters⟩ := hrun haddressable {}
  refine ⟨_, image, hs, fun line hl => ha _ (List.mem_map_of_mem hl), himage, haddressable,
    hfault _, ?_⟩
  calc (Session.run image {}).session.machine.registers.toList.map Int32.toInt
      = Register.all.map
          fun reg => ((Session.run image {}).session.machine.registers.get reg).toInt := rfl
    _ = [9, -1, 0, 0] := by
        rw [funext hregisters]
        rfl

end ByteMachine.Assembly
