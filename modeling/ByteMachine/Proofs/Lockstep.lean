/-
  ByteMachine.Proofs.Lockstep — the machine does what the source says.

  The reference (`Source.run`) moves from line to line, the machine from offset to offset.  What
  relates them is `Follows`: each register reads as the number that the reference has for it, marks,
  output and halt are equal, and the pointer is at the offset of the current line.

    • `Loaded.decodeAt` — at the offset of a line stands its instruction,
    • `toInt_get_set` — registers and numbers are written together,
    • `exec_matches` — the effect of that instruction is what the line does,
    • `Follows.step` — so one step keeps the relation, and `lockStep_from` all steps do.
-/
import ByteMachine.Proofs.Interpreter
import ByteMachine.Proofs.Meaning
import ByteMachine.Proofs.Rendering
import ByteMachine.Proofs.Steps
import ByteMachine.Proofs.TwoPass

namespace ByteMachine.Source

open Assembly
open Instruction (encodeAll sizeAll)
open Machine (Effect Session)

/-! ## §1. Lines and statements. -/

/-- The lines are what the statements say, one by one. -/
theorem map_ofLine_lines {nodes : List Tree} (h : Readable nodes) :
    (lines nodes).map Statement.ofLine = (statements nodes).map .ok := by
  induction nodes with
  | nil => rfl
  | cons node nodes ih =>
    have hrest : Readable nodes := fun other hm => h other (List.mem_cons_of_mem _ hm)
    have ih := ih hrest
    unfold lines statements at ih ⊢
    rw [List.filterMap_cons, List.filterMap_cons]
    cases hs : node.statement? with
    | none =>
      obtain ⟨name, rfl⟩ := h node List.mem_cons_self hs
      exact ih
    | some s =>
      obtain ⟨line, rfl, hl⟩ := Tree.line_of_statement? hs
      show Statement.ofLine line :: _ = Except.ok s :: _
      rw [hl, ih]

theorem length_lines {nodes : List Tree} (h : Readable nodes) :
    (lines nodes).length = (statements nodes).length := by
  have hm := congrArg List.length (map_ofLine_lines h)
  rwa [List.length_map, List.length_map] at hm

/-- What the line of a number says. -/
theorem says_of_getElem? {nodes : List Tree} (h : Readable nodes) {k : Nat} {line : List Tree}
    (hk : (lines nodes)[k]? = some line) :
    ∃ s, (statements nodes)[k]? = some s ∧ Says line s := by
  have hm := congrArg (fun l => l[k]?) (map_ofLine_lines h)
  change ((lines nodes).map Statement.ofLine)[k]? = ((statements nodes).map .ok)[k]? at hm
  rw [List.getElem?_map, List.getElem?_map, hk] at hm
  obtain ⟨s, hs, he⟩ := Option.map_eq_some_iff.mp hm.symm
  exact ⟨s, hs, ofLine_iff.mp he.symm⟩

/-- The offset of a line: the size of the lines before it. -/
def lineOffset (nodes : List Tree) (k : Nat) : Nat :=
  (((statements nodes).take k).map Statement.size).sum

theorem lineOffset_succ {nodes : List Tree} {k : Nat} {s : Statement}
    (h : (statements nodes)[k]? = some s) :
    lineOffset nodes (k + 1) = lineOffset nodes k + s.size := by
  unfold lineOffset
  rw [List.take_add_one, h, List.map_append, List.sum_append]
  rfl

theorem lineOffset_length (nodes : List Tree) :
    lineOffset nodes (statements nodes).length = codeSize nodes := by
  unfold lineOffset codeSize
  rw [List.take_length]

/-- Some first children end where the line behind them begins. -/
theorem lineOffset_append (before after : List Tree) :
    lineOffset (before ++ after) (statements before).length = codeSize before := by
  unfold lineOffset codeSize
  rw [statements_append, List.take_left]

theorem lineOffset_le (nodes : List Tree) (k : Nat) : lineOffset nodes k ≤ codeSize nodes := by
  have h : lineOffset nodes k + (((statements nodes).drop k).map Statement.size).sum
      = codeSize nodes := by
    unfold lineOffset codeSize
    rw [← List.sum_append, ← List.map_append, List.take_append_drop]
  omega

/-- The line that a name stands for begins where the name does. -/
theorem lineOffset_of_definition {nodes before : List Tree} {name : String} (h : Readable nodes)
    (hb : beforeLast? name nodes = some before) :
    lineOffset nodes (lines before).length = codeSize before
      ∧ (lines before).length ≤ (lines nodes).length := by
  obtain ⟨after, rfl, -⟩ := beforeLast?_split hb
  have hbefore : Readable before := fun node hm => h node (List.mem_append_left _ hm)
  refine ⟨?_, ?_⟩
  · rw [length_lines hbefore]
    exact lineOffset_append before _
  · unfold lines
    rw [List.filterMap_append, List.length_append]
    exact Nat.le_add_right _ _

/-! ## §2. A source and its image. -/

/-- The image holds the lines below a root, and is short enough for every offset to be a word. -/
structure Loaded (nodes : List Tree) (image : Image) : Prop where
  readable : Readable nodes
  program : ∃ is, TwoPass.program nodes = .ok is ∧ image.toList = encodeAll is
  short : image.size < 2 ^ 32

/-- An image that was made of a tree holds its lines. -/
theorem loaded_of_assemble {nodes : List Tree} {image : Image}
    (h : (Tree.root nodes).assemble = .ok image) (hsize : image.size < 2 ^ 32) :
    Loaded nodes image := by
  obtain ⟨is, hp, himage, hr⟩ := Tree.program_of_assemble h hsize
  exact ⟨hr, ⟨is, hp, himage⟩, hsize⟩

/-- An image that was made of a source holds the lines of its tree. -/
theorem loaded_of_source {source : String} {nodes : List Tree} {image : Image}
    (h : assemble source = .ok image) (ht : Tree.ofSource source = .ok (.root nodes))
    (hsize : image.size < 2 ^ 32) : Loaded nodes image := by
  unfold assemble at h
  rw [ht] at h
  exact loaded_of_assemble h hsize

namespace Loaded

variable {nodes : List Tree} {image : Image}

theorem size_image (h : Loaded nodes image) : image.size = codeSize nodes := by
  obtain ⟨is, hp, himage⟩ := h.program
  rw [← Array.length_toList, himage, Instruction.length_encodeAll]
  exact TwoPass.sizeAll_of_resolve hp

/-- **At the offset of a line stands its instruction**, with names replaced and literals reduced. -/
theorem decodeAt (h : Loaded nodes image) {k : Nat} {s : Statement}
    (hk : (statements nodes)[k]? = some s) :
    ∃ i, TwoPass.resolve (TwoPass.offset? nodes) s = .ok i ∧ i.size = s.size
      ∧ image.decodeAt (lineOffset nodes k) = .ok (i.reduce, i.size) := by
  obtain ⟨is, hp, himage⟩ := h.program
  obtain ⟨hlt, hs⟩ := List.getElem?_eq_some_iff.mp hk
  -- the program is cut in front of the line, and so are the bytes
  have hsplit : statements nodes
      = (statements nodes).take k ++ s :: (statements nodes).drop (k + 1) := by
    rw [← hs, ← List.drop_eq_getElem_cons hlt, List.take_append_drop]
  unfold TwoPass.program at hp
  rw [hsplit] at hp
  obtain ⟨first, i, rest, rfl, hi, hf⟩ := TwoPass.program_split hp
  have himage : image.toList = encodeAll first ++ (i.encode ++ encodeAll rest) := by
    rw [himage]
    exact List.flatMap_append
  have hholds := Image.holds_of_toList himage
  rw [Instruction.length_encodeAll, hf] at hholds
  exact ⟨i, hi, TwoPass.size_of_resolve hi, Image.decodeAt_encode i hholds⟩

/-- Behind some first children stands the instruction of the line that follows them. -/
theorem decodeAt_line {before after : List Tree} {line : List Tree} {s : Statement}
    (h : Loaded (before ++ .line line :: after) image) (hs : Statement.ofLine line = .ok s) :
    ∃ i, TwoPass.resolve (TwoPass.offset? (before ++ .line line :: after)) s = .ok i
      ∧ image.decodeAt (codeSize before) = .ok (i.reduce, i.size) := by
  have hk : (statements (before ++ .line line :: after))[(statements before).length]? = some s := by
    have hcons : statements (.line line :: after) = s :: statements after :=
      List.filterMap_cons_some (Tree.statement?_line hs)
    rw [statements_append, hcons, List.getElem?_append_right (Nat.le_refl _), Nat.sub_self]
    rfl
  obtain ⟨i, hi, -, hd⟩ := h.decodeAt hk
  rw [lineOffset_append] at hd
  exact ⟨i, hi, hd⟩

/-- The offset of a line lies inside the image exactly if there is such a line. -/
theorem lineOffset_lt_iff (h : Loaded nodes image) {k : Nat} (hk : k ≤ (lines nodes).length) :
    lineOffset nodes k < image.size ↔ k < (lines nodes).length := by
  rw [h.size_image]
  rw [length_lines h.readable] at hk ⊢
  constructor
  · intro hlt
    rcases Nat.lt_or_eq_of_le hk with hk | rfl
    · exact hk
    · rw [lineOffset_length] at hlt
      omega
  · -- a line has at least one byte, and these are inside the image
    intro hlt
    have hs := lineOffset_succ (List.getElem?_eq_getElem hlt)
    have hle := lineOffset_le nodes (k + 1)
    have hpos : 0 < ((statements nodes)[k]).size := by
      cases (statements nodes)[k] with
      | plain i => exact i.size_pos
      | jump condition label => exact Nat.zero_lt_succ 5
    omega

end Loaded

/-! ## §3. Numbers of 32 bits. -/

/-- A quotient of words is the quotient of the integers, narrowed. -/
theorem ofInt_quotient (a b : Int32) : Int32.ofInt (a.toInt.tdiv b.toInt) = a / b := by
  apply Int32.toInt_inj.mp
  rw [Int32.toInt_ofInt, Int32.toInt_div]

theorem ofInt_onBits (op : BitVec 32 → BitVec 32 → BitVec 32) (a b : Int32) :
    Int32.ofInt (onBits op a.toInt b.toInt) = .ofBitVec (op a.toBitVec b.toBitVec) := by
  show Int32.ofBitVec (.ofInt 32
    (op (.ofInt 32 a.toBitVec.toInt) (.ofInt 32 b.toBitVec.toInt)).toInt) = _
  rw [BitVec.ofInt_toInt, BitVec.ofInt_toInt, BitVec.ofInt_toInt]

/-- The marks of a comparison of words are those of the integers. -/
theorem ofComparison_compare (a b : Int32) :
    Machine.Flags.ofComparison (compare a b)
      = { zero := a.toInt = b.toInt, greater := b.toInt < a.toInt, less := a.toInt < b.toInt } := by
  show Machine.Flags.ofComparison (compareOfLessAndEq a b) = _
  unfold compareOfLessAndEq
  -- three cases: less, equal, and neither
  by_cases hlt : a < b
  · rw [if_pos hlt]
    have hlt := Int32.lt_iff_toInt_lt.mp hlt
    have hgt : ¬ b.toInt < a.toInt := by omega
    simp [Machine.Flags.ofComparison, hlt, hgt, Int.ne_of_lt hlt]
  · rw [if_neg hlt]
    have hle := mt Int32.lt_iff_toInt_lt.mpr hlt
    by_cases he : a = b
    · rw [if_pos he, he]
      simp [Machine.Flags.ofComparison]
    · rw [if_neg he]
      have hne := mt Int32.toInt_inj.mp he
      have hgt : b.toInt < a.toInt := by omega
      simp [Machine.Flags.ofComparison, hle, hne, hgt]

/-! ## §4. What a line does, and its instruction. -/

/-- What an effect of the machine comes to in the source. -/
inductive Matches (nodes : List Tree) (s : State) : Effect → Except Stop State → Prop where
  | assign (reg : Register) (v : Int) :
      Matches nodes s (.assign reg (.ofInt v)) (.ok (s.write reg v))
  | mark (a b : Int32) : Matches nodes s (.mark (compare a b)) (.ok (s.mark a.toInt b.toInt))
  | print (v : Int) : Matches nodes s (.print v) (.ok (s.print v))
  | jump {name : String} {before : List Tree} (h : beforeLast? name nodes = some before) :
      Matches nodes s (.jump (.ofNat (codeSize before)))
        (.ok { s with line := (lines before).length })
  | pass : Matches nodes s .pass (.ok { s with line := s.line + 1 })
  | halt : Matches nodes s .halt (.ok { s with halted := true })
  | divideByZero : Matches nodes s .divideByZero (.error .divisionByZero)

variable {nodes : List Tree} {s : State} {m : Machine}

/-- **Registers and numbers are written together**: what a register loses of a number is what the
source loses of it. -/
theorem toInt_get_set {rs : Machine.Registers} (hr : ∀ reg, (rs.get reg).toInt = s.registers reg)
    (dst : Register) (v : Int) (reg : Register) :
    ((rs.set dst (.ofInt v)).get reg).toInt = (s.write dst v).registers reg := by
  show _ = Function.update s.registers dst (v.bmod (2 ^ 32)) reg
  rw [Machine.Registers.get_set, Function.update_apply]
  split
  · exact Int32.toInt_ofInt
  · exact hr reg

/-- A write of what a register receives. -/
theorem Matches.assign_of_eq {reg : Register} {v : Int} {w : Int32} (h : Int32.ofInt v = w) :
    Matches nodes s (.assign reg w) (.ok (s.write reg v)) :=
  h ▸ .assign reg v

/-- A source operand stands for the value the machine reads, though its literal was reduced. -/
theorem operand?_node (hr : ∀ reg, (m.registers.get reg).toInt = s.registers reg)
    (src : Operand) : s.operand? src.node = some (m.value src.reduce).toInt := by
  cases src with
  | register reg =>
    show some (s.registers reg) = some (m.registers.get reg).toInt
    rw [hr]
  | immediate v =>
    show some (v.toInt.bmod (2 ^ 32)) = some (Immediate.reduce v).toInt32.toInt
    rw [Immediate.toInt32_reduce, Int64.toInt_toInt32]

/-- A print shows what the machine prints, which of a literal is its reduction. -/
theorem shown?_node (hr : ∀ reg, (m.registers.get reg).toInt = s.registers reg) (src : Operand) :
    s.shown? src.node = some (m.printed src.reduce) := by
  cases src with
  | register reg =>
    show some (s.registers reg) = some (m.registers.get reg).toInt
    rw [hr]
  | immediate v =>
    show some (v.toInt.sign * (v.toInt.natAbs % 2 ^ 32 : Nat)) = some (Immediate.reduce v).toInt
    rw [Immediate.toInt_reduce]

theorem matches_alu (hr : ∀ reg, (m.registers.get reg).toInt = s.registers reg) (op : AluOp)
    (v : Int32) (dst : Register) :
    Matches nodes s (Machine.aluEffect op dst (m.registers.get dst) v)
      (combine s op.mnemonic v.toInt dst) := by
  unfold combine
  rw [← hr dst]
  cases op with
  | move => exact .assign_of_eq v.ofInt_toInt
  | add => exact .assign_of_eq (by rw [Int32.ofInt_add, Int32.ofInt_toInt, Int32.ofInt_toInt])
  | subtract => exact .assign_of_eq (by rw [Int32.ofInt_sub, Int32.ofInt_toInt, Int32.ofInt_toInt])
  | multiply => exact .assign_of_eq (by rw [Int32.ofInt_mul, Int32.ofInt_toInt, Int32.ofInt_toInt])
  | divide =>
    show Matches nodes s (if v = 0 then Effect.divideByZero else _)
      (if v.toInt = 0 then .error .divisionByZero else _)
    by_cases hv : v = 0
    · rw [if_pos hv, if_pos (by rw [hv]; rfl)]
      exact .divideByZero
    · have hz : ¬ v.toInt = 0 := fun h => hv (Int32.toInt_inj.mp h)
      rw [if_neg hv, if_neg hz]
      exact .assign_of_eq (ofInt_quotient _ v)
  | compare => exact .mark _ v

theorem matches_bitwise (hr : ∀ reg, (m.registers.get reg).toInt = s.registers reg)
    (op : BitwiseOp) (v : Int32) (dst : Register) :
    Matches nodes s (.assign dst (Machine.bitwiseResult op (m.registers.get dst) v))
      (combine s op.mnemonic v.toInt dst) := by
  unfold combine
  rw [← hr dst]
  cases op with
  | or => exact .assign_of_eq (ofInt_onBits _ _ v)
  | xor => exact .assign_of_eq (ofInt_onBits _ _ v)

/-- A jump word branches as the machine's marks say. -/
theorem exec_jump (condition : JumpCondition) (name : String) :
    exec nodes s [.mnemonic condition.mnemonic, .label name]
      = branch nodes s (s.flags.satisfy condition) name := by
  cases condition <;> rfl

/-- **The effect of a line's instruction is what the line does.** -/
theorem exec_matches (hr : ∀ reg, (m.registers.get reg).toInt = s.registers reg)
    (hf : m.flags = s.flags) {line : List Tree} {statement : Statement}
    (hline : Says line statement) {i : Instruction}
    (hi : TwoPass.resolve (TwoPass.offset? nodes) statement = .ok i) :
    Matches nodes s (m.effect i.reduce) (exec nodes s line) := by
  cases hline with
  | alu op src dst =>
    cases hi
    have he : exec nodes s [.mnemonic op.mnemonic, src.node, .register dst]
        = (s.operand? src.node).elim (.error .meaningless)
            fun v => combine s op.mnemonic v dst := by
      cases op <;> cases src <;> rfl
    rw [he, operand?_node hr]
    exact matches_alu hr op _ dst
  | bitwise op src dst =>
    cases hi
    have he : exec nodes s [.mnemonic op.mnemonic, src.node, .register dst]
        = (s.operand? src.node).elim (.error .meaningless)
            fun v => combine s op.mnemonic v dst := by
      cases op <;> cases src <;> rfl
    rw [he, operand?_node hr]
    exact matches_bitwise hr op _ dst
  | print src =>
    cases hi
    have he : exec nodes s [.mnemonic UnaryOp.print.mnemonic, src.node]
        = (s.shown? src.node).elim (.error .meaningless) fun v => .ok (s.print v) := by
      cases src <;> rfl
    rw [he, shown?_node hr]
    exact .print _
  | increment reg =>
    cases hi
    show Matches nodes s (.assign reg (m.registers.get reg + 1))
      (.ok (s.write reg (s.registers reg + 1)))
    rw [← hr reg]
    exact .assign_of_eq (by rw [Int32.ofInt_add, Int32.ofInt_toInt]; rfl)
  | decrement reg =>
    cases hi
    show Matches nodes s (.assign reg (m.registers.get reg - 1))
      (.ok (s.write reg (s.registers reg + -1)))
    rw [← hr reg]
    exact .assign_of_eq (by rw [← Int.sub_eq_add_neg, Int32.ofInt_sub, Int32.ofInt_toInt]; rfl)
  | jump condition name =>
    obtain ⟨offset, ho, rfl⟩ := TwoPass.jump_of_resolve hi
    obtain ⟨before, hb, rfl⟩ := Option.map_eq_some_iff.mp ho
    rw [exec_jump, branch, lineOf?, hb]
    show Matches nodes s (if m.flags.satisfy condition then .jump _ else .pass) _
    rw [hf]
    by_cases hc : s.flags.satisfy condition = true
    · rw [if_pos hc, if_pos hc]
      exact .jump hb
    · rw [if_neg hc, if_neg hc]
      exact .pass
  | halt =>
    cases hi
    exact .halt

/-! ## §5. One step. -/

/-- The machine and the source have come equally far. -/
structure Follows (nodes : List Tree) (s : State) (v : Session) : Prop where
  registers : ∀ reg, (v.machine.registers.get reg).toInt = s.registers reg
  flags : v.machine.flags = s.flags
  halted : v.machine.halted = s.halted
  printed : v.output.written = s.printed
  unlimited : v.output.room = none
  within : s.line ≤ (lines nodes).length
  pointer : v.machine.pointer.toNat = lineOffset nodes s.line

/-- An output without a limit takes every text in full. -/
theorem fits_of_unlimited {o : Machine.Output} (h : o.room = none) (n : Nat) : o.fits n = true := by
  show decide (n ≤ o.accepts n) = true
  unfold Machine.Output.accepts
  rw [h]
  exact decide_eq_true (Nat.le_refl n)

theorem written_of_unlimited {o : Machine.Output} (h : o.room = none) (text : String) :
    (o.write text).written = o.written ++ text := by
  show o.written ++ (if o.fits text.length then text else _) = _
  rw [if_pos (fits_of_unlimited h _)]

theorem room_of_unlimited {o : Machine.Output} (h : o.room = none) (text : String) :
    (o.write text).room = none := by
  show o.room.map _ = none
  rw [h]
  rfl

namespace Follows

variable {image : Image} {v : Session}

theorem start (nodes : List Tree) : Follows nodes {} {} where
  registers reg := by cases reg <;> rfl
  flags := rfl
  halted := rfl
  printed := rfl
  unlimited := rfl
  within := Nat.zero_le _
  pointer := rfl

/-- An effect that matches what the source does keeps the relation; a division by zero leaves all
but the pointer. -/
theorem apply (h : Follows nodes s v) (hlt : s.line < (lines nodes).length) {last : Machine.Pointer}
    {e : Effect} {outcome : Except Stop State} (hm : Matches nodes s e outcome)
    (hnext : (last.forward 1).toNat = lineOffset nodes (s.line + 1))
    (hjump : ∀ {name before}, beforeLast? name nodes = some before →
      (lines before).length ≤ (lines nodes).length ∧
      (UInt32.ofNat (codeSize before)).toUInt64.toNat = lineOffset nodes (lines before).length)
    (hhalt : e = .halt → last = v.machine.pointer) :
    (∃ t w, outcome = .ok t ∧ v.apply last e = (w, none) ∧ Follows nodes t w)
      ∨ (outcome = .error .divisionByZero
        ∧ v.apply last e = ({ v with machine := v.machine.goto last }, some .divisionByZero)) := by
  cases hm with
  | assign reg x =>
    exact .inl ⟨_, _, rfl, rfl, toInt_get_set h.registers reg x, h.flags, h.halted, h.printed,
      h.unlimited, hlt, hnext⟩
  | mark a b =>
    exact .inl ⟨_, _, rfl, rfl, h.registers, ofComparison_compare a b, h.halted, h.printed,
      h.unlimited, hlt, hnext⟩
  | print x =>
    refine .inl ⟨_, _, rfl, Session.apply_print_of_fits (fits_of_unlimited h.unlimited _),
      h.registers, h.flags, h.halted, ?_, room_of_unlimited h.unlimited _, hlt, hnext⟩
    show (v.output.write _).written = s.printed ++ _
    rw [written_of_unlimited h.unlimited, h.printed]
    rfl
  | jump hb =>
    obtain ⟨hle, hoffset⟩ := hjump hb
    exact .inl ⟨_, _, rfl, rfl, h.registers, h.flags, h.halted, h.printed, h.unlimited, hle,
      hoffset⟩
  | pass =>
    exact .inl ⟨_, _, rfl, rfl, h.registers, h.flags, h.halted, h.printed, h.unlimited, hlt, hnext⟩
  | halt =>
    refine .inl ⟨_, _, rfl, rfl, h.registers, h.flags, rfl, h.printed, h.unlimited, h.within, ?_⟩
    show last.toNat = lineOffset nodes s.line
    rw [hhalt rfl]
    exact h.pointer
  | divideByZero => exact .inr ⟨rfl, rfl⟩

/-- The machine runs as long as the source has a line to go on with. -/
theorem running_iff (hl : Loaded nodes image) (h : Follows nodes s v) :
    v.running image = true ↔ s.halted = false ∧ s.line < (lines nodes).length := by
  show (!v.machine.halted && decide (v.machine.pointer.toNat < image.size)) = true ↔ _
  rw [h.halted, h.pointer, Bool.and_eq_true, decide_eq_true_iff, hl.lineOffset_lt_iff h.within]
  cases s.halted <;> simp

/-- **One step keeps the relation.** -/
theorem step (hl : Loaded nodes image) (h : Follows nodes s v) {line : List Tree}
    (hline : (lines nodes)[s.line]? = some line) :
    (∃ t w, exec nodes s line = .ok t ∧ v.step image = (w, none) ∧ Follows nodes t w)
      ∨ ∃ last, exec nodes s line = .error .divisionByZero
        ∧ v.step image = ({ v with machine := v.machine.goto last }, some .divisionByZero) := by
  have hlt : s.line < (lines nodes).length := (List.getElem?_eq_some_iff.mp hline).1
  obtain ⟨statement, hs, hsays⟩ := says_of_getElem? hl.readable hline
  obtain ⟨i, hi, hsize, hd⟩ := hl.decodeAt hs
  rw [← h.pointer] at hd
  have hshort : codeSize nodes < 2 ^ 32 := hl.size_image ▸ hl.short
  -- the three ways on: to the next line, to the line of a name, and nowhere
  have hnext : ((v.machine.pointer.lastByte i.size).forward 1).toNat
      = lineOffset nodes (s.line + 1) := by
    have hle := lineOffset_le nodes (s.line + 1)
    rw [lineOffset_succ hs, ← hsize, ← h.pointer] at hle ⊢
    apply Machine.Pointer.toNat_behind
    show _ < 2 ^ 64
    omega
  have hjump : ∀ {name before}, beforeLast? name nodes = some before →
      (lines before).length ≤ (lines nodes).length ∧
      (UInt32.ofNat (codeSize before)).toUInt64.toNat
        = lineOffset nodes (lines before).length := by
    intro name before hb
    obtain ⟨hoffset, hle⟩ := lineOffset_of_definition hl.readable hb
    refine ⟨hle, ?_⟩
    have hbefore := codeSize_le_of_beforeLast? hb
    rw [hoffset, UInt32.toNat_toUInt64, UInt32.toNat_ofNat']
    exact Nat.mod_eq_of_lt (by omega)
  have hhalt : v.machine.effect i.reduce = .halt
      → v.machine.pointer.lastByte i.size = v.machine.pointer := by
    intro he
    have hone : i.size = 1 := by
      rw [← Instruction.size_reduce, Machine.effect_eq_halt he]
      rfl
    rw [hone]
    exact Machine.Pointer.lastByte_one _
  rw [Session.step_of_decodeAt hd]
  rcases h.apply hlt (exec_matches h.registers h.flags hsays hi) hnext hjump hhalt with hok | hzero
  · exact .inl hok
  · exact .inr ⟨_, hzero⟩

end Follows

/-! ## §6. Many steps. -/

/-- What a run of the machine and one of the source have in common. -/
structure LockStep (nodes : List Tree) (r : Machine.Run) (q : Run) : Prop where
  registers : ∀ reg, (r.session.machine.registers.get reg).toInt = q.state.registers reg
  flags : r.session.machine.flags = q.state.flags
  halted : r.session.machine.halted = q.state.halted
  printed : r.session.output.written = q.state.printed
  fault : (r.fault = none ∧ q.stop = none)
    ∨ (r.fault = some .divisionByZero ∧ q.stop = some .divisionByZero)
  within : q.state.line ≤ (lines nodes).length
  pointer : r.fault = none → r.session.machine.pointer.toNat = lineOffset nodes q.state.line

theorem Follows.lockStep {v : Session} (h : Follows nodes s v) (steps : Nat) :
    LockStep nodes ⟨v, steps, none⟩ ⟨s, none⟩ :=
  ⟨h.registers, h.flags, h.halted, h.printed, .inl ⟨rfl, rfl⟩, h.within, fun _ => h.pointer⟩

/-- All steps keep the relation. -/
theorem lockStep_from {image : Image} (hl : Loaded nodes image) (limit : Nat) :
    ∀ (steps : Nat) (s : State) (v : Session), Follows nodes s v →
      LockStep nodes (v.runFrom image steps limit) (run nodes limit s) := by
  induction limit with
  | zero => intro steps s v h; exact h.lockStep steps
  | succ limit ih =>
    intro steps s v h
    have hrunning := h.running_iff hl
    rw [Session.runFrom]
    by_cases hr : v.running image = true
    · obtain ⟨hhalted, hlt⟩ := hrunning.mp hr
      have hline := List.getElem?_eq_getElem hlt
      rw [if_pos hr]
      rcases h.step hl hline with ⟨t, w, he, hs, hf⟩ | ⟨last, he, hs⟩
      · rw [run_of_ok hhalted hline he, hs]
        exact ih (steps + 1) t w hf
      · rw [run_of_error hhalted hline he, hs]
        -- the pointer has moved to the last byte of the division, all else is as before
        refine ⟨h.registers, h.flags, h.halted, h.printed, .inr ⟨rfl, rfl⟩, h.within, ?_⟩
        intro hn
        cases hn
    · have hfinished : s.halted = true ∨ (lines nodes).length ≤ s.line := by
        have hnot := mt hrunning.mpr hr
        rw [not_and, Nat.not_lt] at hnot
        by_cases hh : s.halted = true
        · exact .inl hh
        · exact .inr (hnot (Bool.not_eq_true _ ▸ hh))
      rw [if_neg hr, run_of_finished hfinished]
      exact h.lockStep steps

/-- **The machine does what the source says.**  A text that is assembled below 2³² bytes is a list
of lines and labels.  After any number of steps, the machine on the image and the reference on the
lines agree in registers, marks, output and halt; both divided by zero or neither stopped; and
the pointer is at the offset of the current line, which behind the last line is the size of the
image. -/
theorem image_runs_as_source {source : String} {image : Image}
    (h : assemble source = .ok image) (hsize : image.size < 2 ^ 32) :
    ∃ nodes, Tree.ofSource source = .ok (.root nodes) ∧
      lineOffset nodes (lines nodes).length = image.size ∧
      ∀ n, LockStep nodes (Session.runFor image n {}) (run nodes n {}) := by
  obtain ⟨tree, ht, ha⟩ := ok_of_bind h
  cases tree with
  | root nodes =>
    have hl := loaded_of_assemble ha hsize
    refine ⟨nodes, ht, ?_, fun n => lockStep_from hl n 0 {} {} (.start nodes)⟩
    rw [length_lines hl.readable, lineOffset_length, hl.size_image]
  | _ => cases ha

/-- A negative number is printed and halved by a literal of 33 bits until it is zero, then another
such literal is printed, and a division by the register stops both.  What the reference prints and
holds is what the machine does. -/
theorem image_runs_as_source_again :
    let source := "movb #-7, r0\n@a:\nprib r0\ndivb #4294967298, r0\ncmpb #0, r0\njl @a\n" ++
      "prib #4294967297\ndivb r0, r0\n"
    let image : Image := #[0x50, 0xff, 0, 0, 0, 7, 0xb0, 0x60, 0xfe, 0, 0, 0, 2,
      0x64, 0xfe, 0, 0, 0, 0, 0xc0, 0x17, 0, 0, 0, 6, 0xbf, 0xfe, 0, 0, 0, 1, 0x70]
    let once := Session.runFor image 3 {}
    let last := Session.runFor image 15 {}
    assemble source = .ok image ∧ image.size < 2 ^ 32 ∧
      (once.session.machine.registers.get .r0).toInt = -3 ∧
      (last.session.machine.registers.get .r0).toInt = 0 ∧
      last.session.output.written = "-7\n-3\n-1\n1\n" ∧ last.fault = some .divisionByZero := by
  intro source image once last
  let program : List Tree := [.line [.mnemonic "movb", .integer (-7), .register .r0], .label "a",
    .line [.mnemonic "prib", .register .r0],
    .line [.mnemonic "divb", .integer 4294967298, .register .r0],
    .line [.mnemonic "cmpb", .integer 0, .register .r0], .line [.mnemonic "jl", .label "a"],
    .line [.mnemonic "prib", .integer 4294967297],
    .line [.mnemonic "divb", .register .r0, .register .r0]]
  have ht : Tree.ofSource source = .ok (.root program) := by
    have htext : (Tree.root program).text = source := by decide +kernel
    have hname : Name "a" := ⟨by decide, by simp [isLineEnd]⟩
    have hwritten : ∀ node ∈ program, node.Written := by
      simp only [program, List.forall_mem_cons]
      exact ⟨written_of_plain (.alu .move (.immediate (-7)) .r0), .label hname,
        written_of_plain (.print (.register .r0)),
        written_of_plain (.alu .divide (.immediate 4294967298) .r0),
        written_of_plain (.alu .compare (.immediate 0) .r0), written_jump .less hname,
        written_of_plain (.print (.immediate 4294967297)),
        written_of_plain (.alu .divide (.register .r0) .r0), by simp⟩
    rw [← htext, ofSource_text_root hwritten]
    rfl
  have ha : assemble source = .ok image := by
    show (Tree.ofSource source >>= Tree.assemble) = _
    rw [ht]
    rfl
  have hsize : image.size < 2 ^ 32 := by decide
  obtain ⟨nodes, hn, -, hrun⟩ := image_runs_as_source ha hsize
  cases Tree.root.inj (Except.ok.inj (hn.symm.trans ht))
  -- the reference is run on numbers, and the machine is found to agree with it
  have honce : (run program 3 {}).state.registers .r0 = -3 := by decide +kernel
  have hzero : (run program 15 {}).state.registers .r0 = 0 := by decide +kernel
  have hprinted : (run program 15 {}).state.printed = "-7\n-3\n-1\n1\n" := by decide +kernel
  have hstop : (run program 15 {}).stop = some .divisionByZero := by decide +kernel
  have hfault : last.fault = some .divisionByZero := by
    rcases (hrun 15).fault with ⟨-, h⟩ | ⟨h, -⟩
    · rw [hstop] at h
      cases h
    · exact h
  exact ⟨ha, hsize, ((hrun 3).registers .r0).trans honce, ((hrun 15).registers .r0).trans hzero,
    (hrun 15).printed.trans hprinted, hfault⟩

end ByteMachine.Source
