/-
  ByteMachine.Proofs.Closed — images that never go wrong in reading.

  An image is closed if a sweep reads it to the end and every jump in it lands on an instruction
  of the sweep or behind the image.  The invariant of every run is that the pointer stands on such
  an instruction or behind the image (`OnBoundary`): the instruction behind another is the
  sweep's next, a jump's target is allowed, and a `halt` stays where it is.

    • `onBoundary_step` — one completed step keeps the invariant,
    • `onBoundary_of_reaches` — so do all,
    • `closed_of_tree` — assembled images are closed: a name stands for the size of the lines before
      one of its definitions, and that is where the next line begins,
    • `closed_never_misreads` — so only a division by zero or the output can fail.
-/
import ByteMachine.Proofs.Meaning
import ByteMachine.Proofs.Steps
import ByteMachine.Proofs.TwoPass

namespace ByteMachine

/-! ## §1. Closed images. -/

namespace Image

/-- The offsets at which a sweep reads an instruction. -/
def boundaries (image : Image) : List Nat := image.sweep.1.map Placed.offset

/-- A sweep reads the image to its end, and no jump leads between two instructions. -/
structure Closed (image : Image) : Prop where
  complete : image.sweep.2 = none
  jumps : ∀ placed ∈ image.sweep.1, ∀ condition target,
    placed.instruction = .jump condition target →
      target.toNat ∈ image.boundaries ∨ image.size ≤ target.toNat

/-- The sweep of a closed image covers every byte. -/
theorem Closed.tiles {image : Image} (h : image.Closed) : image.Tiles 0 image.sweep.1 :=
  tiles_of_complete image 0 (Nat.zero_le _) h.complete

end Image

/-! ## §2. Runs of a closed image. -/

namespace Machine

open Image

/-- The machine stands on an instruction of the sweep, or behind the image. -/
def OnBoundary (image : Image) (m : Machine) : Prop :=
  m.pointer.toNat ∈ image.boundaries ∨ image.size ≤ m.pointer.toNat

variable {image : Image}

theorem onBoundary_start (hc : image.Closed) : OnBoundary image {} :=
  hc.tiles.start.imp_right fun h => Nat.le_of_eq h.symm

/-- A machine that can read an instruction reads one of the sweep. -/
theorem placed_of_decodeAt (hc : image.Closed) {m : Machine} (hb : OnBoundary image m)
    {i : Instruction} {n : Nat} (hd : image.decodeAt m.pointer.toNat = .ok (i, n)) :
    ⟨m.pointer.toNat, i, n⟩ ∈ image.sweep.1 := by
  have hle := le_size_of_decodeAt hd
  have hpos := decodeAt_pos hd
  rcases hb with hm | hm
  · -- the sweep has read an instruction at the pointer, and reading is a function
    obtain ⟨placed, hp, ho⟩ := List.mem_map.mp hm
    have hq := hc.tiles.decodeAt placed hp
    rw [ho, hd] at hq
    cases placed
    cases hq
    cases ho
    exact hp
  · -- behind the image nothing can be read
    omega

/-- **One completed step keeps the pointer on a boundary.** -/
theorem onBoundary_step (hc : image.Closed) (ha : Addressable image) {s t : Session}
    (hb : OnBoundary image s.machine) (h : s.step image = (t, none)) :
    OnBoundary image t.machine := by
  obtain ⟨i, n, hd, hp⟩ := Session.pointer_of_step h
  have hmem := placed_of_decodeAt hc hb hd
  have hle := le_size_of_decodeAt hd
  unfold OnBoundary
  rcases hp with ⟨condition, target, hi, -, ht⟩ | ⟨-, ht⟩ | ht
  · -- a jump that is taken
    rw [ht]
    exact hc.jumps _ hmem condition target hi
  · -- a halt
    rw [ht]
    exact hb
  · -- all others move on by the size they were read with
    have hto : t.machine.pointer.toNat = s.machine.pointer.toNat + n := by
      rw [ht]
      exact Pointer.toNat_behind (Nat.lt_of_le_of_lt hle ha)
    rw [hto]
    exact (hc.tiles.next _ hmem).imp_right fun h => Nat.le_of_eq h.symm

/-- **All steps keep the pointer on a boundary.** -/
theorem onBoundary_of_reaches (hc : image.Closed) (ha : Addressable image) {output : Output}
    {s : Session} (h : Session.Reaches image { output } s) : OnBoundary image s.machine :=
  h.keeps (P := fun s => OnBoundary image s.machine)
    (fun hb hstep => onBoundary_step hc ha hb hstep) (onBoundary_start hc)

/-- A running machine on a boundary stands on an instruction that can be read. -/
theorem decodeAt_of_running (hc : image.Closed) {m : Machine} (hb : OnBoundary image m)
    (hr : m.running image = true) :
    m.pointer.toNat ∈ image.boundaries
      ∧ ∃ i n, image.decodeAt m.pointer.toNat = .ok (i, n) := by
  have hlt : m.pointer.toNat < image.size := by
    unfold running at hr
    simpa using (Bool.and_eq_true_iff.mp hr).2
  rcases hb with hm | hm
  · refine ⟨hm, ?_⟩
    obtain ⟨placed, hp, ho⟩ := List.mem_map.mp hm
    rw [← ho]
    exact ⟨_, _, hc.tiles.decodeAt placed hp⟩
  · omega

end Machine

/-! ## §3. Assembled images. -/

namespace Assembly

open Instruction (sizeAll reduce)

/-- No line means a jump to a fixed offset. -/
theorem plain_ne_jump {nodes : List Tree} {i : Instruction} (h : .plain i ∈ statements nodes)
    (condition : JumpCondition) (target : UInt32) : i ≠ .jump condition target := by
  obtain ⟨node, -, hs⟩ := List.mem_filterMap.mp h
  obtain ⟨line, -, hl⟩ := Tree.line_of_statement? hs
  intro hi
  subst hi
  cases ofLine_iff.mp hl

/-- The target of a jump is the size of the lines before a definition. -/
theorem target_of_program {nodes : List Tree} {is : List Instruction}
    (hp : TwoPass.program nodes = .ok is) {condition : JumpCondition} {target : UInt32}
    (h : .jump condition target ∈ is) :
    ∃ name before, beforeLast? name nodes = some before
      ∧ target = .ofNat (codeSize before) := by
  obtain ⟨line, hl, hr⟩ := mem_of_mapM hp h
  cases line with
  | plain i =>
    cases hr
    exact absurd rfl (plain_ne_jump hl condition target)
  | jump condition' name =>
    obtain ⟨offset, ho, he⟩ := TwoPass.jump_of_resolve hr
    cases he
    obtain ⟨before, hb, rfl⟩ := Option.map_eq_some_iff.mp ho
    exact ⟨name, before, hb, rfl⟩

/-- Where the lines before a definition end, the next line begins, or there is none. -/
theorem boundary_of_definition {nodes before : List Tree} {name : String}
    {is : List Instruction} (hp : TwoPass.program nodes = .ok is)
    (hb : beforeLast? name nodes = some before) :
    codeSize before ∈ (Image.place 0 (is.map reduce)).map Image.Placed.offset
      ∨ codeSize before = sizeAll is := by
  obtain ⟨after, hs, -⟩ := beforeLast?_split hb
  unfold TwoPass.program at hp
  rw [hs, statements_append, List.mapM_append] at hp
  obtain ⟨first, hf, hp⟩ := ok_of_bind hp
  obtain ⟨rest, hr, hp⟩ := ok_of_bind hp
  cases hp
  have hsum : sizeAll first = codeSize before := TwoPass.sizeAll_of_resolve hf
  -- no line behind the definition: the name stands for the end of the image
  cases rest with
  | nil =>
    right
    rw [List.append_nil, hsum]
  | cons i rest =>
    left
    rw [List.map_append, Image.place_append, List.map_append, Nat.zero_add,
      Instruction.sizeAll_reduce, hsum]
    exact List.mem_append_right _ List.mem_cons_self

/-- **An assembled tree below 2³² bytes is closed.** -/
theorem closed_of_tree {tree : Tree} {image : Image} (h : tree.assemble = .ok image)
    (hsize : image.size < 2 ^ 32) : image.Closed := by
  obtain ⟨is, hp, himage, -⟩ := Tree.program_of_assemble h hsize
  have hcode := Tree.size_of_assemble h
  have hsweep := Image.sweep_encodeAll himage
  have hlen : image.size = sizeAll is := hcode.trans (TwoPass.sizeAll_of_resolve hp).symm
  refine ⟨by rw [hsweep], ?_⟩
  intro placed hm condition target hi
  unfold Image.boundaries
  rw [hsweep] at hm ⊢
  have hj : Instruction.jump condition target ∈ is.map reduce :=
    hi ▸ Image.instruction_mem_of_place hm
  obtain ⟨i, hmem, hred⟩ := List.mem_map.mp hj
  obtain ⟨name, before, hb, ht⟩ :=
    target_of_program hp (Instruction.eq_jump_of_reduce hred ▸ hmem)
  have hle := boundary_of_definition hp hb
  -- a word keeps the offset, because the whole image is shorter than a word can count
  have hto : target.toNat = codeSize before := by
    rw [ht, UInt32.toNat_ofNat']
    apply Nat.mod_eq_of_lt
    have : codeSize before ≤ codeSize tree.children := codeSize_le_of_beforeLast? hb
    omega
  rw [hto, hlen]
  exact hle.imp_right fun h => Nat.le_of_eq h.symm

end Assembly

/-! ## §4. Safety. -/

open Machine in
/-- **A closed image never goes wrong in reading, and every assembled image is closed.**  As long
as no step has failed, a running machine stands on an instruction of the sweep; a step it takes
there, and so a run of any length, fails by a division by zero or by the output alone. -/
theorem closed_never_misreads :
    (∀ image : Image, image.Closed → Addressable image → ∀ output : Output,
      (∀ s, Session.Reaches image { output } s → s.running image = true →
        s.machine.pointer.toNat ∈ image.boundaries ∧
        ∀ fault, (s.step image).2 = some fault → fault = .divisionByZero ∨ fault = .output) ∧
      ∀ n,
        ((Session.runFor image n { output }).fault = none →
          (Session.runFor image n { output }).session.running image = true →
          (Session.runFor image n { output }).session.machine.pointer.toNat ∈ image.boundaries) ∧
        ∀ fault, (Session.runFor image n { output }).fault = some fault →
          fault = .divisionByZero ∨ fault = .output) ∧
    ∀ source image, Assembly.assemble source = .ok image → image.size < 2 ^ 32 →
      image.Closed := by
  constructor
  · intro image hc ha output
    have hstep : ∀ s, Session.Reaches image { output } s → s.running image = true →
        s.machine.pointer.toNat ∈ image.boundaries ∧
        ∀ fault, (s.step image).2 = some fault → fault = .divisionByZero ∨ fault = .output := by
      intro s hs hr
      obtain ⟨hm, i, k, hd⟩ := decodeAt_of_running hc (onBoundary_of_reaches hc ha hs) hr
      exact ⟨hm, fun fault hf => Session.fault_of_step hd hf⟩
    refine ⟨hstep, fun n => ?_⟩
    obtain ⟨s, hs, hrun⟩ : ∃ s, Session.Reaches image { output } s ∧ (_ ∨ _) :=
      Session.runFrom_reaches n 0 { output }
    change (Session.runFor image n { output } = _ ∨ ∃ fault, _) at hrun
    rcases hrun with hrun | ⟨fault, hf, hr, hlast⟩
    · rw [hrun]
      refine ⟨fun _ hr => (hstep s hs hr).1, ?_⟩
      intro fault hf
      cases hf
    · change (Session.runFor image n { output }).fault = some fault at hf
      rw [hf]
      refine ⟨?_, ?_⟩
      · intro hn
        cases hn
      · intro other ho
        cases ho
        exact (hstep s hs hr).2 fault (congrArg Prod.snd hlast)
  · intro source image h hsize
    obtain ⟨tree, -, ht⟩ := ok_of_bind h
    exact Assembly.closed_of_tree ht hsize

/-- A loop over two instructions: its image is closed, and whatever its steps reach while it runs
is one of the offsets 0 and 1. -/
theorem closed_never_misreads_loop :
    Assembly.assemble "@a:\nincb r0\njmp @a\n" = .ok #[0x90, 0xc0, 0x10, 0, 0, 0, 0] ∧
    Image.Closed #[0x90, 0xc0, 0x10, 0, 0, 0, 0] ∧
    Machine.Addressable #[0x90, 0xc0, 0x10, 0, 0, 0, 0] ∧
    ∀ n fault, (Machine.Session.runFor #[0x90, 0xc0, 0x10, 0, 0, 0, 0] n {}).fault = some fault →
      fault = .divisionByZero ∨ fault = .output := by
  have ha : Assembly.assemble "@a:\nincb r0\njmp @a\n"
      = .ok #[0x90, 0xc0, 0x10, 0, 0, 0, 0] := by cbv
  have hc := closed_never_misreads.2 _ _ ha (by decide)
  have hs : Machine.Addressable #[0x90, 0xc0, 0x10, 0, 0, 0, 0] := by
    show 7 < UInt64.size
    decide
  exact ⟨ha, hc, hs, fun n => ((closed_never_misreads.1 _ hc hs {}).2 n).2⟩

end ByteMachine
