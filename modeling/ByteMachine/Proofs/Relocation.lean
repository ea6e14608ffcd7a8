/-
  ByteMachine.Proofs.Relocation — one program behind another.

  The lines of a program do not know what stands before them, except through its labels: behind
  `n` bytes every label is `n` bytes further on.  So the image of one list of children behind
  another is the first image followed by the second one with `n` added to the targets of its jumps.
  The targets are found by a sweep of the second image and by nothing else: bytes that look like a
  jump but belong to the literal of another instruction are left as they are, and the bytes around
  a target are not written again.

    • `toList_relocate` — relocating an image of instructions relocates the instructions,
    • `TwoPass.offset?_append_left`, `TwoPass.offset?_append_right` — the offsets of names in two
      lists of children, one behind the other,
    • `TwoPass.program_append` — the program of the two is that of the first, and that of the second
      relocated,
    • `concatenation_relocates` — so is the image, and what a relocation changes.
-/
import ByteMachine.Proofs.Agreement
import ByteMachine.Proofs.Closed

namespace ByteMachine

open Instruction (encodeAll sizeAll)

/-! ## §1. Relocated images. -/

namespace Instruction

/-- The instruction with its target further on, if it is a jump. -/
def relocate (distance : Nat) : Instruction → Instruction
  | .jump condition target => .jump condition (.ofNat (target.toNat + distance))
  | i => i

@[simp] theorem size_relocate (distance : Nat) (i : Instruction) :
    (i.relocate distance).size = i.size := by
  cases i <;> rfl

end Instruction

namespace Image

/-- The bytes with the target of an instruction that was read further on, if it is a jump. -/
def retarget (distance : Nat) (code : Image) (p : Placed) : Image :=
  match p.instruction with
  | .jump _ target =>
    Assembly.Draft.overwrite code (p.offset + 2) (Word.bytes (.ofNat (target.toNat + distance)))
  | _ => code

/-- The image with the targets of all jumps that a sweep reads further on. -/
def relocate (distance : Nat) (image : Image) : Image :=
  image.sweep.1.foldl (retarget distance) image

variable {distance : Nat} {image code : Image} {is : List Instruction}

theorem size_retarget (distance : Nat) (code : Image) (p : Placed) :
    (code.retarget distance p).size = code.size := by
  unfold retarget
  split
  · exact Assembly.Draft.size_overwrite _ _ _
  · rfl

/-- **A relocation leaves all bytes but the targets of jumps.** -/
theorem getElem?_retargets {k : Nat} : ∀ {placed : List Placed} (code : Image),
    (∀ p ∈ placed, ∀ condition target, p.instruction = .jump condition target →
      k < p.offset + 2 ∨ p.offset + 6 ≤ k) →
      (placed.foldl (retarget distance) code)[k]? = code[k]? := by
  intro placed
  induction placed with
  | nil =>
    intro code _
    rfl
  | cons p placed ih =>
    intro code h
    obtain ⟨hp, hplaced⟩ := List.forall_mem_cons.mp h
    rw [List.foldl_cons, ih _ hplaced]
    unfold retarget
    split
    · have hk := hp _ _ ‹_›
      rw [Assembly.Draft.getElem?_overwrite_outside _ _ _ _ (by simp; omega)]
    · rfl

/-- An instruction that stands in the bytes is relocated, and nothing around it. -/
theorem toList_retarget {i : Instruction} {before after : List UInt8} {n : Nat}
    (h : code.toList = before ++ (i.encode ++ after)) :
    (code.retarget distance ⟨before.length, i.reduce, n⟩).toList
      = before ++ ((i.relocate distance).encode ++ after) := by
  cases i with
  | jump condition target =>
    -- the prefix and the condition are not written over
    have hsplit : code.toList = (before ++ [Opcode.jump.toByte, condition.code])
        ++ (Word.bytes target ++ after) := by
      rw [h, List.append_assoc]
      rfl
    have hlength : (before ++ [Opcode.jump.toByte, condition.code]).length
        = before.length + 2 := by simp
    show (Assembly.Draft.overwrite code (before.length + 2) _).toList = _
    rw [← hlength, Assembly.Draft.toList_overwrite hsplit (by simp), List.append_assoc]
    rfl
  | _ => exact h

/-- Relocating instructions one behind the other, where those before are done.  The instructions are
named as they are read, with their literals reduced; the bytes keep what was written. -/
theorem toList_retargets : ∀ {is : List Instruction} {before : List UInt8} {code : Image},
    code.toList = before ++ encodeAll is →
      ((place before.length (is.map Instruction.reduce)).foldl (retarget distance) code).toList
        = before ++ encodeAll (is.map (Instruction.relocate distance)) := by
  intro is
  induction is with
  | nil =>
    intro before code h
    exact h
  | cons i is ih =>
    intro before code h
    have hnext : (retarget distance code ⟨before.length, i.reduce, i.reduce.size⟩).toList
        = before ++ ((i.relocate distance).encode ++ encodeAll is) := toList_retarget h
    rw [← List.append_assoc] at hnext
    have hlength : (before ++ (i.relocate distance).encode).length
        = before.length + i.reduce.size := by
      simp [Instruction.length_encode]
    have hrest := ih hnext
    rw [hlength, List.append_assoc] at hrest
    exact hrest

/-- **Relocating an image of instructions relocates the instructions.** -/
theorem toList_relocate (h : image.toList = encodeAll is) :
    (image.relocate distance).toList = encodeAll (is.map (Instruction.relocate distance)) := by
  have hcode : image.toList = [] ++ encodeAll is := h
  unfold relocate
  rw [sweep_encodeAll h]
  exact toList_retargets hcode

theorem size_relocate (distance : Nat) (image : Image) :
    (image.relocate distance).size = image.size := by
  have hfold : ∀ (placed : List Placed) (code : Image),
      (placed.foldl (retarget distance) code).size = code.size := by
    intro placed
    induction placed with
    | nil =>
      intro code
      rfl
    | cons p placed ih =>
      intro code
      rw [List.foldl_cons, ih, size_retarget]
  exact hfold image.sweep.1 image

/-- A jump of a sweep is one of the instructions, and stands behind those before it. -/
theorem split_of_mem_sweep (h : image.toList = encodeAll is) {p : Placed}
    (hp : p ∈ image.sweep.1) {condition : JumpCondition} {target : UInt32}
    (hjump : p.instruction = .jump condition target) :
    ∃ before after, is = before ++ .jump condition target :: after
      ∧ p.offset = sizeAll before := by
  rw [sweep_encodeAll h] at hp
  obtain ⟨first, rest, hsplit, hoffset⟩ := split_of_mem_place hp
  obtain ⟨before, others, rfl, rfl, hothers⟩ := List.map_eq_append_iff.mp hsplit
  obtain ⟨i, after, rfl, hi, -⟩ := List.map_eq_cons_iff.mp hothers
  obtain rfl := Instruction.eq_jump_of_reduce (hi.trans hjump)
  refine ⟨before, after, rfl, ?_⟩
  rw [hoffset, Instruction.sizeAll_reduce, Nat.zero_add]

/-- The target of a jump stands two bytes behind the instructions before it. -/
theorem holds_target {before after : List Instruction} {condition : JumpCondition}
    {target : UInt32} (h : image.toList = encodeAll (before ++ .jump condition target :: after)) :
    image.Holds (sizeAll before + 2) (Word.bytes target) := by
  -- before the target stand the instructions before, the prefix and the condition
  have hbytes : image.toList
      = (encodeAll before ++ [Opcode.jump.toByte, condition.code])
        ++ (Word.bytes target ++ encodeAll after) := by
    rw [h]
    simp [encodeAll, Instruction.encode]
  have hlength : (encodeAll before ++ [Opcode.jump.toByte, condition.code]).length
      = sizeAll before + 2 := by
    simp [Instruction.length_encodeAll]
  rw [← hlength]
  exact holds_of_toList hbytes

/-- **In a relocated image of instructions, the target of a jump is further on.** -/
theorem holds_relocate {before after : List Instruction} {condition : JumpCondition}
    {target : UInt32} (h : image.toList = encodeAll (before ++ .jump condition target :: after)) :
    (image.relocate distance).Holds (sizeAll before + 2)
      (Word.bytes (.ofNat (target.toNat + distance))) := by
  have hcode : (image.relocate distance).toList = _ := toList_relocate h
  rw [List.map_append, List.map_cons] at hcode
  have hholds := holds_target hcode
  rwa [Instruction.sizeAll_map (Instruction.size_relocate distance)] at hholds

end Image

/-! ## §2. Names in two lists of children. -/

namespace Assembly

variable {a b : List Tree} {name : String}

namespace TwoPass

/-- A name that the second list does not define is where the first one has it. -/
theorem offset?_append_left (h : .label name ∉ b) : offset? (a ++ b) name = offset? a name := by
  have hnone : beforeLast? name b = none := by
    by_contra hsome
    obtain ⟨before, hbefore⟩ := Option.ne_none_iff_exists'.mp hsome
    exact h (exists_beforeLast?_iff.mp ⟨before, hbefore⟩)
  unfold offset?
  rw [beforeLast?_append, hnone]
  rfl

/-- A name that the second list defines is behind the first one, as far as the second one has it. -/
theorem offset?_append_right {offset : Nat} (h : offset? b name = some offset) :
    offset? (a ++ b) name = some (offset + codeSize a) := by
  obtain ⟨before, hbefore, rfl⟩ := Option.map_eq_some_iff.mp h
  unfold offset?
  rw [beforeLast?_append, hbefore]
  show some (codeSize (a ++ before)) = _
  rw [codeSize_append, Nat.add_comm]

theorem mem_of_offset? {offset : Nat} (h : offset? a name = some offset) : .label name ∈ a := by
  obtain ⟨before, hbefore, -⟩ := Option.map_eq_some_iff.mp h
  exact exists_beforeLast?_iff.mp ⟨before, hbefore⟩

/-- **The program of two lists of children** is that of the first, and that of the second with its
jumps moved behind the first. -/
theorem program_append {is js : List Instruction}
    (hnames : ∀ name, .label name ∈ a → .label name ∉ b)
    (ha : program a = .ok is) (hb : program b = .ok js) :
    program (a ++ b) = .ok (is ++ js.map (Instruction.relocate (codeSize a))) := by
  have hfirst : (statements a).mapM (resolve (offset? (a ++ b))) = .ok is := by
    refine mapM_ok_imp ?_ ha
    intro s hs i hi
    cases s with
    | plain j => exact hi
    | jump condition name =>
      obtain ⟨offset, ho, rfl⟩ := jump_of_resolve hi
      have hnot := hnames name (mem_of_offset? ho)
      exact resolve_jump condition ((offset?_append_left hnot).trans ho)
  have hsecond : (statements b).mapM (resolve (offset? (a ++ b)))
      = .ok (js.map (Instruction.relocate (codeSize a))) := by
    refine mapM_ok_map ?_ hb
    intro s hs i hi
    cases s with
    | plain j =>
      cases hi
      -- a line that is no jump to a name is no jump
      cases i with
      | jump condition target => exact absurd rfl (plain_ne_jump hs condition target)
      | _ => rfl
    | jump condition name =>
      obtain ⟨offset, ho, rfl⟩ := jump_of_resolve hi
      rw [resolve_jump condition (offset?_append_right ho)]
      -- both targets are the offset in the two lists, as a word
      have htarget : UInt32.ofNat ((UInt32.ofNat offset).toNat + codeSize a)
          = .ofNat (offset + codeSize a) := by
        apply UInt32.toNat_inj.mp
        simp [UInt32.toNat_ofNat']
      show _ = Except.ok (Instruction.jump condition
        (UInt32.ofNat ((UInt32.ofNat offset).toNat + codeSize a)))
      rw [htarget]
  unfold program
  rw [statements_append, List.mapM_append, hfirst, hsecond]
  rfl

end TwoPass

/-! ## §3. Images of two lists of children. -/

/-- **One list of children behind another has an image** if each of the two has one: every name that
is jumped to is defined in the list of the jump. -/
theorem exists_image_append {first second : Image} (ha : (Tree.root a).assemble = .ok first)
    (hb : (Tree.root b).assemble = .ok second) :
    ∃ image, (Tree.root (a ++ b)).assemble = .ok image := by
  obtain ⟨nodes, hnodes, hra, hja⟩ := exists_image_iff.mp ⟨first, ha⟩
  cases hnodes
  obtain ⟨nodes, hnodes, hrb, hjb⟩ := exists_image_iff.mp ⟨second, hb⟩
  cases hnodes
  refine exists_image_iff.mpr ⟨a ++ b, rfl, ?_, ?_⟩
  · intro node hn
    cases List.mem_append.mp hn with
    | inl hn => exact hra node hn
    | inr hn => exact hrb node hn
  · intro name hn
    have hsplit : jumpNames (a ++ b) = jumpNames a ++ jumpNames b := by
      unfold jumpNames
      rw [statements_append, List.filterMap_append]
    rw [hsplit] at hn
    cases List.mem_append.mp hn with
    | inl hn => exact List.mem_append_left _ (hja name hn)
    | inr hn => exact List.mem_append_right _ (hjb name hn)

/-- Below 2³² bytes no jump of an image leads behind its end. -/
theorem target_le_size {image : Image} {nodes : List Tree} {is : List Instruction}
    (hp : TwoPass.program nodes = .ok is) (hcode : image.size = codeSize nodes)
    (hsize : image.size < 2 ^ 32) {condition : JumpCondition} {target : UInt32}
    (h : .jump condition target ∈ is) : target.toNat ≤ image.size := by
  obtain ⟨name, before, hb, rfl⟩ := target_of_program hp h
  have hle := codeSize_le_of_beforeLast? hb
  rw [UInt32.toNat_ofNat', Nat.mod_eq_of_lt (by omega)]
  omega

/-- **One program behind another is relocated.**  If two lists of children have images that are
shorter than 2³² bytes together, and no name is defined in both lists, then the children of the
first list followed by those of the second have the first image followed by the second one
relocated.  A relocation keeps the number of bytes; a sweep of the second image meets no fault; of
each jump in this sweep the target is further on by the size of the first image, without a
carry; and no other byte is changed. -/
theorem concatenation_relocates {first second : Image}
    (ha : (Tree.root a).assemble = .ok first) (hb : (Tree.root b).assemble = .ok second)
    (hnames : ∀ name, .label name ∈ a → .label name ∉ b)
    (hsize : first.size + second.size < 2 ^ 32) :
    (Tree.root (a ++ b)).assemble = .ok (first ++ second.relocate first.size) ∧
    (second.relocate first.size).size = second.size ∧
    second.sweep.2 = none ∧
    (∀ p ∈ second.sweep.1, ∀ condition target, p.instruction = .jump condition target →
      ∃ moved : UInt32, moved.toNat = target.toNat + first.size ∧
        second.Holds (p.offset + 2) (Word.bytes target) ∧
        (second.relocate first.size).Holds (p.offset + 2) (Word.bytes moved)) ∧
    ∀ k, (∀ p ∈ second.sweep.1, ∀ condition target, p.instruction = .jump condition target →
      k < p.offset + 2 ∨ p.offset + 6 ≤ k) → (second.relocate first.size)[k]? = second[k]? := by
  obtain ⟨is, hpa, hfirst, -⟩ := Tree.program_of_assemble ha (by omega)
  obtain ⟨js, hpb, hsecond, -⟩ := Tree.program_of_assemble hb (by omega)
  have hsizea : first.size = codeSize a := Tree.size_of_assemble ha
  have hsizeb : second.size = codeSize b := Tree.size_of_assemble hb
  refine ⟨?_, Image.size_relocate _ _, ?_, ?_, fun k => Image.getElem?_retargets second⟩
  · obtain ⟨image, himage⟩ := exists_image_append ha hb
    have hsizes : image.size = codeSize (a ++ b) := Tree.size_of_assemble himage
    rw [codeSize_append] at hsizes
    -- the image is short enough to be a program, and this is the program of the two lists
    obtain ⟨ks, hp, hks, -⟩ := Tree.program_of_assemble himage (by omega)
    have happend := TwoPass.program_append hnames hpa hpb
    obtain rfl := Except.ok.inj (hp.symm.trans happend)
    have hbytes : image = first ++ second.relocate first.size := by
      apply Array.toList_inj.mp
      rw [hks, Array.toList_append, hfirst, Image.toList_relocate hsecond, hsizea]
      exact List.flatMap_append
    rw [himage, hbytes]
  · rw [Image.sweep_encodeAll hsecond]
  · intro p hp condition target hjump
    obtain ⟨before, after, rfl, hoffset⟩ := Image.split_of_mem_sweep hsecond hp hjump
    have hle := target_le_size hpb hsizeb (by omega) (List.mem_append_right _ List.mem_cons_self)
    refine ⟨.ofNat (target.toNat + first.size), ?_, ?_, ?_⟩
    · rw [UInt32.toNat_ofNat']
      exact Nat.mod_eq_of_lt (by omega)
    · rw [hoffset]
      exact Image.holds_target hsecond
    · rw [hoffset]
      exact Image.holds_relocate hsecond

/-- A loop of seven bytes in front of a literal that holds the bytes `c0 10 00 00` of a jump, and a
jump to the end: only the target of the latter is moved, from 12 to 19. -/
theorem concatenation_relocates_literal :
    let front : List Tree := [.label "a", .line [.mnemonic "incb", .register .r0],
      .line [.mnemonic "jmp", .label "a"]]
    let back : List Tree := [.line [.mnemonic "prib", .integer 0xc0100000],
      .line [.mnemonic "jz", .label "b"], .label "b"]
    let first : Image := #[0x90, 0xc0, 0x10, 0, 0, 0, 0]
    let second : Image := #[0xbf, 0xfe, 0xc0, 0x10, 0, 0, 0xc0, 0x13, 0, 0, 0, 12]
    (Tree.root front).assemble = .ok first ∧ (Tree.root back).assemble = .ok second ∧
      (∀ name, .label name ∈ front → .label name ∉ back) ∧
      first.size + second.size < 2 ^ 32 ∧
      second.relocate first.size = #[0xbf, 0xfe, 0xc0, 0x10, 0, 0, 0xc0, 0x13, 0, 0, 0, 19] := by
  intro front back first second
  have hfront : (Tree.root front).assemble = .ok first := by cbv
  have hback : (Tree.root back).assemble = .ok second := by cbv
  have hnames : ∀ name, .label name ∈ front → .label name ∉ back := by
    intro name hfront hback
    obtain rfl : name = "a" := by simpa [front] using hfront
    simp [back] at hback
  have hsize : first.size + second.size < 2 ^ 32 := by decide
  have hall := (concatenation_relocates hfront hback hnames hsize).1
  have hboth : (Tree.root (front ++ back)).assemble = .ok (first ++
      #[0xbf, 0xfe, 0xc0, 0x10, 0, 0, 0xc0, 0x13, 0, 0, 0, 19]) := by cbv
  rw [hboth] at hall
  exact ⟨hfront, hback, hnames, hsize, (Array.append_right_inj first).mp (Except.ok.inj hall.symm)⟩

end Assembly

end ByteMachine
