/-
  ByteMachine.Proofs.TwoPass — one pass with patches makes the image of two passes.

  The reference (`TwoPass`) keeps no table, no notes and no half-written bytes: its first pass
  finds the offset of a name by adding up the lines before its last definition, its second writes
  every line once.  The draft writes zeros and comes back to them.

    • `Draft.getElem?_overwrite_outside` — writing over bytes leaves the bytes around them,
    • `Draft.patches_write` — the noted jumps, written in order, close every gap behind a finished
      beginning of the image (the induction is on the lines still open),
    • `onePass_eq_twoPass` — the two images are the same below 2³² bytes, and a sweep of the image
      meets exactly the lines.
-/
import ByteMachine.Proofs.Layout
import ByteMachine.Proofs.Meaning
import ByteMachine.Proofs.Sweep

namespace ByteMachine.Assembly

open Instruction (encodeAll sizeAll)

/-! ## §1. The reference. -/

namespace TwoPass

/-- The offset of a name: the size of all lines before its last definition. -/
def offset? (nodes : List Tree) (name : String) : Option Nat :=
  (beforeLast? name nodes).map codeSize

/-- The instruction of a line, where names stand for offsets. -/
def resolve (offset? : String → Option Nat) : Statement → Except AssemblyError Instruction
  | .plain i => .ok i
  | .jump condition name =>
    match offset? name with
    | some offset => .ok (.jump condition (.ofNat offset))
    | none => .error (.undefinedLabel name)

/-- The instructions of the lines below a root. -/
def program (nodes : List Tree) : Except AssemblyError (List Instruction) :=
  (statements nodes).mapM (resolve (offset? nodes))

/-- The image of the lines below a root. -/
def assemble (nodes : List Tree) : Except AssemblyError Image :=
  return (encodeAll (← program nodes)).toArray

theorem resolve_jump {find : String → Option Nat} {name : String} {offset : Nat}
    (condition : JumpCondition) (h : find name = some offset) :
    resolve find (.jump condition name) = .ok (.jump condition (.ofNat offset)) := by
  rw [resolve, h]

/-- A jump that the reference resolves is a jump under the same condition. -/
theorem jump_of_resolve {find : String → Option Nat} {condition : JumpCondition}
    {name : String} {i : Instruction} (h : resolve find (.jump condition name) = .ok i) :
    ∃ offset, find name = some offset ∧ i = .jump condition (.ofNat offset) := by
  rw [resolve] at h
  cases ho : find name with
  | none => rw [ho] at h; cases h
  | some offset =>
    rw [ho] at h
    cases h
    exact ⟨offset, rfl, rfl⟩

theorem size_of_resolve {find : String → Option Nat} {s : Statement} {i : Instruction}
    (h : resolve find s = .ok i) : i.size = s.size := by
  cases s with
  | plain i => cases h; rfl
  | jump condition name =>
    obtain ⟨offset, -, rfl⟩ := jump_of_resolve h
    rfl

theorem sizeAll_of_resolve {find : String → Option Nat} :
    ∀ {lines : List Statement} {is : List Instruction}, lines.mapM (resolve find) = .ok is →
      sizeAll is = (lines.map Statement.size).sum := by
  intro lines
  induction lines with
  | nil => intro is h; cases h; rfl
  | cons line lines ih =>
    intro is h
    rw [List.mapM_cons] at h
    obtain ⟨i, hi, h⟩ := ok_of_bind h
    obtain ⟨rest, hr, h⟩ := ok_of_bind h
    cases h
    show i.size + sizeAll rest = line.size + (lines.map Statement.size).sum
    rw [size_of_resolve hi, ih hr]

end TwoPass

/-! ## §2. Writing over bytes. -/

namespace Draft

theorem size_overwrite (bytes : List UInt8) :
    ∀ (code : Image) (offset : Nat), (overwrite code offset bytes).size = code.size := by
  induction bytes with
  | nil => intro code offset; rfl
  | cons byte bytes ih =>
    intro code offset
    show (overwrite (code.setIfInBounds offset byte) (offset + 1) bytes).size = _
    rw [ih, Array.size_setIfInBounds]

/-- **Writing over bytes leaves the bytes around them.** -/
theorem getElem?_overwrite_outside (bytes : List UInt8) :
    ∀ (code : Image) (offset k : Nat), k < offset ∨ offset + bytes.length ≤ k →
      (overwrite code offset bytes)[k]? = code[k]? := by
  induction bytes with
  | nil => intro code offset k _; rfl
  | cons byte bytes ih =>
    intro code offset k hk
    rw [List.length_cons] at hk
    show (overwrite (code.setIfInBounds offset byte) (offset + 1) bytes)[k]? = _
    rw [ih _ _ _ (by omega), Array.getElem?_setIfInBounds_ne (by omega)]

/-- Bytes written over as many others take their place. -/
theorem toList_overwrite :
    ∀ {bytes old before after : List UInt8} {code : Image},
      code.toList = before ++ (old ++ after) → bytes.length = old.length →
      (overwrite code before.length bytes).toList = before ++ (bytes ++ after) := by
  intro bytes
  induction bytes with
  | nil =>
    intro old before after code h hl
    rw [List.eq_nil_of_length_eq_zero hl.symm] at h
    exact h
  | cons byte bytes ih =>
    intro old before after code h hl
    cases old with
    | nil => cases hl
    | cons first old =>
      -- the byte written joins what stands before, and one byte less is left to be replaced
      show (overwrite (code.setIfInBounds before.length byte) (before.length + 1) bytes).toList = _
      have hset : (code.setIfInBounds before.length byte).toList
          = (before ++ [byte]) ++ (old ++ after) := by
        rw [Array.toList_setIfInBounds, h]
        simp
      have hlen : (before ++ [byte]).length = before.length + 1 := by simp
      have hrest := ih hset (Nat.succ.inj hl)
      rw [hlen] at hrest
      rw [hrest]
      simp

/-! ## §3. Writing the jumps. -/

/-- What the table of a draft says of a name. -/
theorem Lays.find?_eq {d : Draft} {nodes : List Tree} (h : d.Lays nodes) (name : String) :
    d.labels.find? name = (TwoPass.offset? nodes name).map .ofNat := by
  rw [h.labels, TwoPass.offset?, Option.map_map]
  rfl

/-- A jump is written once its label has an offset. -/
theorem patch_inv {labels : LabelTable} {code next : Image} {jump : PendingJump}
    (h : patch labels code jump = .ok next) :
    ∃ target, labels.find? jump.label = some target
      ∧ next
        = overwrite code jump.offset.toNat (Instruction.jump jump.condition target).encode := by
  rw [patch] at h
  cases ht : labels.find? jump.label with
  | none => rw [ht] at h; cases h
  | some target =>
    rw [ht] at h
    exact ⟨target, rfl, (Except.ok.inj h).symm⟩

/-- A written jump leaves the bytes of all others. -/
theorem patch_frame {labels : LabelTable} {code next : Image} {jump : PendingJump}
    (h : patch labels code jump = .ok next) :
    next.size = code.size ∧ ∀ k, k < jump.offset.toNat
      ∨ jump.offset.toNat + Instruction.jumpSize ≤ k → next[k]? = code[k]? := by
  obtain ⟨target, -, hn⟩ := patch_inv h
  rw [hn]
  exact ⟨size_overwrite _ _ _, fun k hk => getElem?_overwrite_outside _ _ _ _ hk⟩

/-- **The noted jumps, written in order, close every gap.**  What stands before the open lines is
finished and stays; the induction moves one line at a time from the open lines to it. -/
theorem patches_write {labels : LabelTable} {find : String → Option Nat}
    (hfind : ∀ name, labels.find? name = (find name).map .ofNat) :
    ∀ {lines : List Statement} {done : List UInt8} {code image : Image},
      code.toList = done ++ reserveAll lines →
      (∀ jump ∈ jumpsAt done.length lines, jump.1 < 2 ^ 32) →
      ((jumpsAt done.length lines).map noted).foldlM (patch labels) code = .ok image →
      ∃ is, lines.mapM (TwoPass.resolve find) = .ok is ∧ image.toList = done ++ encodeAll is := by
  intro lines
  induction lines with
  | nil =>
    intro done code image hc _ h
    cases h
    exact ⟨[], rfl, hc⟩
  | cons line lines ih =>
    intro done code image hc hreach h
    have hc : code.toList = done ++ (line.reserve ++ reserveAll lines) := hc
    cases line with
    | plain i =>
      -- the line's bytes are final, and join the finished ones
      have hc' : code.toList = (done ++ i.encode) ++ reserveAll lines := by
        rw [hc, List.append_assoc]
        rfl
      have hlen : (done ++ i.encode).length = done.length + i.size := by
        rw [List.length_append, Instruction.length_encode]
      obtain ⟨is, his, himage⟩ := ih hc' (by rw [hlen]; exact hreach) (by rw [hlen]; exact h)
      refine ⟨i :: is, ?_, ?_⟩
      · rw [List.mapM_cons, his]
        rfl
      · rw [himage, List.append_assoc]
        rfl
    | jump condition label =>
      -- the offset that was noted is a word; it is exact below 2³² bytes
      obtain ⟨hfirst, hreach⟩ := List.forall_mem_cons.mp hreach
      have hoff : (UInt32.ofNat done.length).toNat = done.length := by
        rw [UInt32.toNat_ofNat']
        exact Nat.mod_eq_of_lt hfirst
      -- the first of the notes left is the one on this line
      rw [jumpsAt, List.map_cons, List.foldlM_cons] at h
      obtain ⟨next, hn, h⟩ := ok_of_bind h
      obtain ⟨target, ht, hn⟩ := patch_inv hn
      rw [hfind] at ht
      obtain ⟨offset, hl, rfl⟩ := Option.map_eq_some_iff.mp ht
      have hl : find label = some offset := hl
      have hnext : next.toList = done ++ ((Instruction.jump condition (.ofNat offset)).encode
          ++ reserveAll lines) := by
        rw [hn]
        show (overwrite code (UInt32.ofNat done.length).toNat _).toList = _
        rw [hoff]
        exact toList_overwrite hc rfl
      rw [← List.append_assoc] at hnext
      have hlen : (done ++ (Instruction.jump condition (.ofNat offset)).encode).length
          = done.length + Instruction.jumpSize := by
        rw [List.length_append]
        rfl
      obtain ⟨is, his, himage⟩ := ih hnext (by rw [hlen]; exact hreach) (by rw [hlen]; exact h)
      refine ⟨.jump condition (.ofNat offset) :: is, ?_, ?_⟩
      · rw [List.mapM_cons, his, TwoPass.resolve_jump condition hl]
        rfl
      · rw [himage, List.append_assoc]
        rfl

/-- All jumps are written without changing the number of bytes. -/
theorem size_of_patches {labels : LabelTable} :
    ∀ {jumps : List PendingJump} {code image : Image},
      jumps.foldlM (patch labels) code = .ok image → image.size = code.size := by
  intro jumps
  induction jumps with
  | nil => intro code image h; cases h; rfl
  | cons jump jumps ih =>
    intro code image h
    rw [List.foldlM_cons] at h
    obtain ⟨next, hn, h⟩ := ok_of_bind h
    rw [ih h, (patch_frame hn).1]

/-- A finished draft whose jumps stand below 2³² bytes holds its lines, with names at the
reference's offsets. -/
theorem Lays.finish_of_jumps {d : Draft} {nodes : List Tree} {image : Image} (hd : d.Lays nodes)
    (h : d.finish = .ok image) (hreach : ∀ jump ∈ jumpsAt 0 (statements nodes), jump.1 < 2 ^ 32) :
    ∃ is, TwoPass.program nodes = .ok is ∧ image.toList = encodeAll is := by
  unfold Draft.finish at h
  rw [hd.pending] at h
  have hcode : d.code.toList = [] ++ reserveAll (statements nodes) := hd.code
  exact patches_write hd.find?_eq hcode hreach h

/-- In an image below 2³² bytes all jumps do. -/
theorem Lays.finish {d : Draft} {nodes : List Tree} {image : Image} (hd : d.Lays nodes)
    (h : d.finish = .ok image) (hsize : image.size < 2 ^ 32) :
    ∃ is, TwoPass.program nodes = .ok is ∧ image.toList = encodeAll is := by
  rw [size_of_patches h, hd.size_code] at hsize
  exact hd.finish_of_jumps h fun jump hj => Nat.lt_of_le_of_lt
    (Nat.le_trans (Nat.le_add_right _ _) (le_codeSize_of_mem_jumpsAt hj)) hsize

end Draft

/-! ## §4. The image of a tree. -/

/-- An image comes of a finished draft. -/
theorem Tree.draft_of_assemble {tree : Tree} {image : Image} (h : tree.assemble = .ok image) :
    ∃ draft, Draft.ofTree tree = .ok draft ∧ draft.finish = .ok image := by
  unfold Tree.assemble at h
  split at h
  · exact ⟨_, ‹_›, h⟩
  · cases h

/-- The size of an image is that of the lines, wherever the names are. -/
theorem Tree.size_of_assemble {tree : Tree} {image : Image} (h : tree.assemble = .ok image) :
    image.size = codeSize tree.children := by
  obtain ⟨draft, hd, hf⟩ := Tree.draft_of_assemble h
  rw [Draft.size_of_patches hf, (Draft.lays_of_ofTree hd).size_code]

/-- **An image below 2³² bytes is the program of its tree.** -/
theorem Tree.program_of_assemble {tree : Tree} {image : Image} (h : tree.assemble = .ok image)
    (hsize : image.size < 2 ^ 32) :
    ∃ is, TwoPass.program tree.children = .ok is ∧ image.toList = encodeAll is ∧
      Readable tree.children := by
  obtain ⟨draft, hd, hf⟩ := Tree.draft_of_assemble h
  have hlays := Draft.lays_of_ofTree hd
  obtain ⟨is, hp, himage⟩ := hlays.finish hf hsize
  exact ⟨is, hp, himage, hlays.readable⟩

/-- The instructions before a line, and the line itself, in the reference's program. -/
theorem TwoPass.program_split {find : String → Option Nat} {before after : List Statement}
    {s : Statement} {is : List Instruction}
    (h : (before ++ s :: after).mapM (resolve find) = .ok is) :
    ∃ first i rest, is = first ++ i :: rest ∧ resolve find s = .ok i
      ∧ sizeAll first = (before.map Statement.size).sum := by
  rw [List.mapM_append] at h
  obtain ⟨first, hf, h⟩ := ok_of_bind h
  obtain ⟨last, hl, h⟩ := ok_of_bind h
  rw [List.mapM_cons] at hl
  obtain ⟨i, hi, hl⟩ := ok_of_bind hl
  obtain ⟨rest, -, hl⟩ := ok_of_bind hl
  cases h
  cases hl
  exact ⟨first, i, rest, rfl, hi, sizeAll_of_resolve hf⟩

/-- Six zeros are kept open for a jump. -/
theorem Draft.Lays.holds_zeros {d : Draft} {nodes : List Tree} (h : d.Lays nodes)
    {jump : Nat × JumpCondition × String} (hj : jump ∈ jumpsAt 0 (statements nodes)) :
    d.code.Holds jump.1 (List.replicate Instruction.jumpSize 0) := by
  obtain ⟨before, after, hs, ho⟩ := split_of_mem_jumpsAt hj
  have hc : d.code.toList
      = reserveAll before ++ (List.replicate Instruction.jumpSize 0 ++ reserveAll after) := by
    rw [h.code, hs, reserveAll_append]
    rfl
  rw [ho, Nat.zero_add, ← length_reserveAll]
  exact Image.holds_of_toList hc

/-- The reference has a jump where the draft kept it open. -/
theorem TwoPass.holds_jump {nodes : List Tree} {is : List Instruction} {image : Image}
    (hp : program nodes = .ok is) (himage : image.toList = encodeAll is)
    {jump : Nat × JumpCondition × String} (hj : jump ∈ jumpsAt 0 (statements nodes)) :
    ∃ target, image.Holds jump.1 (Instruction.jump jump.2.1 target).encode := by
  obtain ⟨before, after, hs, ho⟩ := split_of_mem_jumpsAt hj
  unfold program at hp
  rw [hs] at hp
  obtain ⟨first, i, rest, hi, hj, hf⟩ := program_split hp
  obtain ⟨offset, -, rfl⟩ := jump_of_resolve hj
  have hc : image.toList = encodeAll first
      ++ ((Instruction.jump jump.2.1 (.ofNat offset)).encode ++ encodeAll rest) := by
    rw [himage, hi]
    exact List.flatMap_append
  refine ⟨.ofNat offset, ?_⟩
  rw [ho, Nat.zero_add, ← hf, ← Instruction.length_encodeAll]
  exact Image.holds_of_toList hc

/-- A line that can be read counts as what it says. -/
theorem Readable.says {nodes line : List Tree} (h : Readable nodes) (hm : .line line ∈ nodes) :
    ∃ s, Says line s ∧ (Tree.line line).statement? = some s := by
  cases hs : (Tree.line line).statement? with
  | none =>
    obtain ⟨name, hlabel⟩ := h _ hm hs
    cases hlabel
  | some s =>
    obtain ⟨other, hline, ho⟩ := Tree.line_of_statement? hs
    cases hline
    exact ⟨s, ofLine_iff.mp ho, rfl⟩

/-- **One pass with patches makes the image of two passes.**  Every child of the root is a label or
a line that counts, as what it says; the image holds the lines in order, each name at the size of
the lines before its last definition; a sweep meets exactly these instructions; and each jump is
written over six zeros of its own and nothing else. -/
theorem onePass_eq_twoPass {tree : Tree} {image : Image} (h : tree.assemble = .ok image)
    (hsize : image.size < 2 ^ 32) :
    ∃ (program : List Instruction) (draft : Draft),
      (∀ node ∈ tree.children, node.statement? = none → ∃ name, node = .label name) ∧
      (∀ line, .line line ∈ tree.children →
        ∃ s, Says line s ∧ (Tree.line line).statement? = some s) ∧
      TwoPass.assemble tree.children = .ok image ∧
      TwoPass.program tree.children = .ok program ∧ image.toList = encodeAll program ∧
      (∀ name offset, TwoPass.offset? tree.children name = some offset → offset ≤ image.size) ∧
      image.size = codeSize tree.children ∧
      image.sweep = (Image.place 0 (program.map Instruction.reduce), none) ∧
      sizeAll program = image.size ∧
      Draft.ofTree tree = .ok draft ∧
      draft.pending.toList = (jumpsAt 0 (statements tree.children)).map noted ∧
      ∀ jump ∈ jumpsAt 0 (statements tree.children),
        (noted jump).offset.toNat = jump.1 ∧
        draft.code.Holds jump.1 (List.replicate Instruction.jumpSize 0) ∧
        ¬ image.Holds jump.1 (List.replicate Instruction.jumpSize 0) ∧
        ∀ code next, Draft.patch draft.labels code (noted jump) = .ok next →
          ∀ k, k < jump.1 ∨ jump.1 + Instruction.jumpSize ≤ k → next[k]? = code[k]? := by
  obtain ⟨draft, hd, hf⟩ := Tree.draft_of_assemble h
  have hlays := Draft.lays_of_ofTree hd
  obtain ⟨program, hp, himage⟩ := hlays.finish hf hsize
  have hsum : sizeAll program = codeSize tree.children := TwoPass.sizeAll_of_resolve hp
  have hlen : image.size = sizeAll program := by
    rw [← Array.length_toList, himage, Instruction.length_encodeAll]
  refine ⟨program, draft, hlays.readable, fun line => hlays.readable.says, ?_, hp, himage, ?_,
    hlen.trans hsum, Image.sweep_encodeAll himage, hlen.symm, hd, hlays.pending, ?_⟩
  · unfold TwoPass.assemble
    rw [hp]
    show Except.ok (encodeAll program).toArray = _
    rw [← himage]
  · intro name offset ho
    obtain ⟨before, hb, rfl⟩ := Option.map_eq_some_iff.mp ho
    rw [hlen, hsum]
    exact codeSize_le_of_beforeLast? hb
  · intro jump hj
    obtain ⟨target, ht⟩ := TwoPass.holds_jump hp himage hj
    have hlt : jump.1 < 2 ^ 32 := Nat.lt_trans (Image.lt_size_of_holds ht) hsize
    have hoff : (noted jump).offset.toNat = jump.1 := by
      show (UInt32.ofNat jump.1).toNat = jump.1
      rw [UInt32.toNat_ofNat']
      exact Nat.mod_eq_of_lt hlt
    refine ⟨hoff, hlays.holds_zeros hj, ?_, ?_⟩
    · intro hz
      -- the first byte of a written jump is its prefix, which is not zero
      have hb : some Opcode.jump.toByte = some (0 : UInt8) := ht.1.symm.trans hz.1
      exact absurd hb (by decide)
    · intro code next hn
      rw [← hoff]
      exact (Draft.patch_frame hn).2

/-- A name defined twice and jumped to from between and behind its definitions: both jumps lead to
the second one, the first of them forward over a name that is defined at the end.  Between them
stand instructions of one, two, six and seven bytes. -/
theorem onePass_eq_twoPass_redefined :
    let nodes : List Tree := [.label "a", .line [.mnemonic "halt"],
      .line [.mnemonic "jmp", .label "a"], .label "a", .line [.mnemonic "incb", .register .r1],
      .line [.mnemonic "jz", .label "b"], .line [.mnemonic "movb", .integer 1, .register .r0],
      .line [.mnemonic "orb", .register .r0, .register .r2],
      .line [.mnemonic "xorb", .integer (-258), .register .r3],
      .line [.mnemonic "jmp", .label "a"], .label "b"]
    let program : List Instruction := [.halt, .jump .always 7, .increment .r1, .jump .zero 35,
      .alu .move (.immediate 1) .r0, .bitwise .or (.register .r0) .r2,
      .bitwise .xor (.immediate (-258)) .r3, .jump .always 7]
    let image : Image := #[0xf4, 0xc0, 0x10, 0, 0, 0, 7, 0x91, 0xc0, 0x13, 0, 0, 0, 35,
      0x50, 0xfe, 0, 0, 0, 1, 0xc1, 0x1c, 0xc1, 0x27, 0xff, 0, 0, 1, 2, 0xc0, 0x10, 0, 0, 0, 7]
    (Tree.root nodes).assemble = .ok image ∧ image.size < 2 ^ 32 ∧
      TwoPass.program nodes = .ok program ∧ TwoPass.assemble nodes = .ok image ∧
      image.size = codeSize nodes ∧ image.sweep = (Image.place 0 program, none) := by
  intro nodes program image
  have h : (Tree.root nodes).assemble = .ok image := by cbv
  have hsize : image.size < 2 ^ 32 := by decide
  have hprogram : TwoPass.program nodes = .ok program := by cbv
  have hreduce : program.map Instruction.reduce = program := by decide +kernel
  obtain ⟨_, draft, -, -, htwo, hp, -, -, hlen, hsweep, -⟩ := onePass_eq_twoPass h hsize
  cases hp.symm.trans hprogram
  rw [hreduce] at hsweep
  exact ⟨h, hsize, hprogram, htwo, hlen, hsweep⟩

end ByteMachine.Assembly
