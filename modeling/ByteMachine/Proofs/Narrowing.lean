/-
  ByteMachine.Proofs.Narrowing — offsets as 32-bit words, in images of any size.

  A draft keeps the offset of a label or of a jump as a word and never asks whether it fits.  Below
  2³² bytes an offset is kept as it is.  From there on it is reduced modulo 2³²: jumps lead to
  another place, or they are written over other lines while their own bytes stay open.  No tree is
  refused for that.

  `Draft.Records` says what a draft keeps and where it writes, for any way to round an offset.
  Every draft rounds to the remainder modulo 2³²; the question is when that is no rounding at all.

    • `Draft.Lays.records_words` — a draft records every offset modulo 2³²,
    • `Draft.Lays.records_exactly_iff` — which is the offset itself exactly if all labels and jumps
      are in reach,
    • `Draft.Lays.last_jump_stays_open` — of the jumps out of reach the last is never written,
    • `Draft.Lays.holdsExactly_iff` — so the image is right exactly if all jumps are in reach, and
      all that they lead to,
    • `exists_image_behindHalts` — and a tree out of reach has an image like any other.
-/
import ByteMachine.Proofs.Agreement

namespace ByteMachine.Assembly

open Instruction (encodeAll)

variable {nodes : List Tree} {tree : Tree} {image : Image}

/-! ## §1. What is in reach of a word. -/

/-- Every label stands below 2³² bytes. -/
def LabelsInReach (nodes : List Tree) : Prop :=
  ∀ before name after, nodes = before ++ Tree.label name :: after → codeSize before < 2 ^ 32

/-- Every jump starts below 2³² bytes. -/
def JumpsInReach (nodes : List Tree) : Prop :=
  ∀ jump ∈ jumpsAt 0 (statements nodes), jump.1 < 2 ^ 32

/-- Every name that is jumped to is defined last below 2³² bytes. -/
def TargetsInReach (nodes : List Tree) : Prop :=
  ∀ name ∈ jumpNames nodes, ∀ offset, TwoPass.offset? nodes name = some offset → offset < 2 ^ 32

/-- The offset of a name is that of a label. -/
theorem TwoPass.split_of_offset? {name : String} {offset : Nat}
    (h : TwoPass.offset? nodes name = some offset) :
    ∃ before after, nodes = before ++ Tree.label name :: after ∧ offset = codeSize before := by
  obtain ⟨before, hb, rfl⟩ := Option.map_eq_some_iff.mp h
  obtain ⟨after, hs, -⟩ := beforeLast?_split hb
  exact ⟨before, after, hs, rfl⟩

/-- What jumps lead to is a label. -/
theorem LabelsInReach.targets (h : LabelsInReach nodes) : TargetsInReach nodes := by
  intro name _ offset ho
  obtain ⟨before, after, hs, rfl⟩ := TwoPass.split_of_offset? ho
  exact h before name after hs

/-- Jumps follow each other with room for their bytes. -/
theorem pairwise_jumpsAt (lines : List Statement) : ∀ offset : Nat,
    (jumpsAt offset lines).Pairwise fun a b => a.1 + Instruction.jumpSize ≤ b.1 := by
  induction lines with
  | nil => intro offset; exact .nil
  | cons line lines ih =>
    intro offset
    cases line with
    | plain i => exact ih (offset + i.size)
    | jump condition label =>
      refine List.pairwise_cons.mpr ⟨fun later hl => ?_, ih _⟩
      obtain ⟨before, after, -, ho⟩ := split_of_mem_jumpsAt hl
      rw [ho]
      exact Nat.le_add_right _ _

/-- The last jump stands behind the bytes of all others. -/
theorem le_last_jump {lines : List Statement} {before : List (Nat × JumpCondition × String)}
    {last : Nat × JumpCondition × String} (hs : jumpsAt 0 lines = before ++ [last]) :
    ∀ jump ∈ before, jump.1 + Instruction.jumpSize ≤ last.1 := by
  have horder := pairwise_jumpsAt lines 0
  rw [hs] at horder
  exact fun jump hj => (List.pairwise_append.mp horder).2.2 jump hj last List.mem_cons_self

/-- A jump is noted modulo 2³². -/
theorem toNat_offset_noted (jump : Nat × JumpCondition × String) :
    (noted jump).offset.toNat = jump.1 % 2 ^ 32 :=
  UInt32.toNat_ofNat'

/-! ## §2. What is recorded. -/

namespace Draft

/-- What the draft of some children keeps of their offsets, and where it writes their jumps, if an
offset is rounded like this. -/
structure Records (round : Nat → Nat) (d : Draft) (nodes : List Tree) : Prop where
  /-- A label that is met takes the number of bytes so far. -/
  labels : ∀ before name after, nodes = before ++ Tree.label name :: after →
    ∃ laid offset, ofTree (.root before) = .ok laid ∧
      (laid.define name).labels.find? name = some offset ∧ offset.toNat = round laid.code.size
  /-- In the end a name has the offset of its last definition. -/
  targets : ∀ name,
    (d.labels.find? name).map UInt32.toNat = (TwoPass.offset? nodes name).map round
  /-- A jump is noted at the number of bytes before it. -/
  jumps : d.pending.toList.map (fun jump => jump.offset.toNat)
    = (jumpsAt 0 (statements nodes)).map fun jump => round jump.1
  /-- A jump is written at that place, and nothing else is. -/
  writes : ∀ jump ∈ jumpsAt 0 (statements nodes), ∀ code next,
    patch d.labels code (noted jump) = .ok next →
      next.size = code.size ∧
      (∀ k, k < round jump.1 ∨ round jump.1 + Instruction.jumpSize ≤ k → next[k]? = code[k]?) ∧
      (round jump.1 + Instruction.jumpSize ≤ code.size →
        ∃ target, d.labels.find? jump.2.2 = some target ∧
          next.Holds (round jump.1) (Instruction.jump jump.2.1 target).encode)

/-- Bytes written where there is room for them stand there. -/
theorem holds_overwrite {code : Image} {offset : Nat} {bytes : List UInt8}
    (h : offset + bytes.length ≤ code.size) :
    (overwrite code offset bytes).Holds offset bytes := by
  have hsize : code.toList.length = code.size := Array.length_toList
  have hsplit : code.toList = code.toList.take offset
      ++ ((code.toList.drop offset).take bytes.length
        ++ (code.toList.drop offset).drop bytes.length) := by
    rw [List.take_append_drop, List.take_append_drop]
  have hbefore : (code.toList.take offset).length = offset := by
    rw [List.length_take]
    omega
  have hold : bytes.length = ((code.toList.drop offset).take bytes.length).length := by
    rw [List.length_take, List.length_drop]
    omega
  have hafter := Image.holds_of_toList (toList_overwrite hsplit hold)
  rwa [hbefore] at hafter

namespace Lays

variable {d : Draft}

/-- The first children of a root are laid out as well. -/
theorem exists_laid (h : d.Lays nodes) {before after : List Tree} (hs : nodes = before ++ after) :
    ∃ laid, ofTree (.root before) = .ok laid :=
  exists_draft_iff.mpr ⟨before, rfl, fun node hn => h.readable node (by rw [hs]; simp [hn])⟩

/-- **A draft records every offset modulo 2³².** -/
theorem records_words (h : d.Lays nodes) : d.Records (· % 2 ^ 32) nodes where
  labels before name after hs := by
    obtain ⟨laid, hl⟩ := h.exists_laid hs
    refine ⟨laid, laid.offset, hl, ?_, UInt32.toNat_ofNat'⟩
    show (laid.labels.define name laid.offset).find? name = _
    rw [LabelTable.find?_define, if_pos rfl]
  targets name := by
    have hwords : UInt32.toNat ∘ UInt32.ofNat = (· % 2 ^ 32) :=
      funext fun _ => UInt32.toNat_ofNat'
    rw [h.find?_eq, Option.map_map, hwords]
  jumps := by
    rw [h.pending, List.map_map]
    exact List.map_congr_left fun jump _ => toNat_offset_noted jump
  writes jump _ code next hn := by
    obtain ⟨hsize, hframe⟩ := patch_frame hn
    obtain ⟨target, ht, hnext⟩ := patch_inv hn
    rw [toNat_offset_noted] at hframe hnext
    refine ⟨hsize, hframe, fun hroom => ⟨target, ht, ?_⟩⟩
    rw [hnext]
    exact holds_overwrite hroom

end Lays

/-- Two ways to round that agree on the labels and jumps record the same. -/
theorem Records.congr {d : Draft} {round other : Nat → Nat} (h : d.Records round nodes)
    (hlabels : ∀ before name after, nodes = before ++ Tree.label name :: after →
      round (codeSize before) = other (codeSize before))
    (hjumps : ∀ jump ∈ jumpsAt 0 (statements nodes), round jump.1 = other jump.1) :
    d.Records other nodes where
  labels before name after hs := by
    obtain ⟨laid, offset, hl, hf, ho⟩ := h.labels before name after hs
    refine ⟨laid, offset, hl, hf, ?_⟩
    have hsize : laid.code.size = codeSize before := (lays_of_ofTree hl).size_code
    rw [ho, hsize, hlabels before name after hs]
  targets name := by
    rw [h.targets]
    cases ho : TwoPass.offset? nodes name with
    | none => rfl
    | some offset =>
      obtain ⟨before, after, hs, rfl⟩ := TwoPass.split_of_offset? ho
      exact congrArg some (hlabels before name after hs)
  jumps := by
    rw [h.jumps]
    exact List.map_congr_left hjumps
  writes jump hj := by
    rw [← hjumps jump hj]
    exact h.writes jump hj

/-- **A draft records offsets as they are exactly if all labels and jumps are in reach.** -/
theorem Lays.records_exactly_iff {d : Draft} (h : d.Lays nodes) :
    d.Records id nodes ↔ LabelsInReach nodes ∧ JumpsInReach nodes := by
  constructor
  · intro hr
    constructor
    · intro before name after hs
      obtain ⟨laid, offset, hl, -, ho⟩ := hr.labels before name after hs
      have hsize : laid.code.size = codeSize before := (lays_of_ofTree hl).size_code
      rw [← hsize, ← show offset.toNat = laid.code.size from ho]
      exact offset.toNat_lt
    · intro jump hj
      have hmem : jump.1 ∈ d.pending.toList.map fun jump => jump.offset.toNat := by
        rw [hr.jumps]
        exact List.mem_map.mpr ⟨jump, hj, rfl⟩
      obtain ⟨pending, -, ho⟩ := List.mem_map.mp hmem
      rw [← ho]
      exact pending.offset.toNat_lt
  · rintro ⟨hlabels, hjumps⟩
    exact h.records_words.congr
      (fun before name after hs => Nat.mod_eq_of_lt (hlabels before name after hs))
      (fun jump hj => Nat.mod_eq_of_lt (hjumps jump hj))

/-! ## §3. Jumps out of reach. -/

/-- What no jump is written over stays. -/
theorem getElem?_of_patches {labels : LabelTable} {k : Nat} :
    ∀ {jumps : List PendingJump} {code image : Image},
      jumps.foldlM (patch labels) code = .ok image →
      (∀ jump ∈ jumps, k < jump.offset.toNat ∨ jump.offset.toNat + Instruction.jumpSize ≤ k) →
      image[k]? = code[k]? := by
  intro jumps
  induction jumps with
  | nil => intro code image h _; cases h; rfl
  | cons jump jumps ih =>
    intro code image h hk
    obtain ⟨hjump, hjumps⟩ := List.forall_mem_cons.mp hk
    rw [List.foldlM_cons] at h
    obtain ⟨next, hn, h⟩ := ok_of_bind h
    rw [ih h hjumps, (patch_frame hn).2 k hjump]

namespace Lays

variable {d : Draft}

/-- **If the last jump is out of reach, its bytes stay open**: it is written further to the front,
and so are all others. -/
theorem last_jump_stays_open (hd : d.Lays nodes) (h : d.finish = .ok image)
    {before : List (Nat × JumpCondition × String)} {jump : Nat × JumpCondition × String}
    (hs : jumpsAt 0 (statements nodes) = before ++ [jump]) (hfar : 2 ^ 32 ≤ jump.1) :
    image.Holds jump.1 (List.replicate Instruction.jumpSize 0) := by
  have hclear : ∀ other ∈ jumpsAt 0 (statements nodes),
      other.1 % 2 ^ 32 + Instruction.jumpSize ≤ jump.1 := by
    intro other ho
    have hmod : other.1 % 2 ^ 32 ≤ other.1 := Nat.mod_le _ _
    have hroom : Instruction.jumpSize = 6 := rfl
    rw [hs] at ho
    rcases List.mem_append.mp ho with ho | ho
    · have hends := le_last_jump hs other ho
      omega
    · rw [List.mem_singleton.mp ho]
      omega
  have hzeros : d.code.Holds jump.1 (List.replicate Instruction.jumpSize 0) :=
    hd.holds_zeros (by rw [hs]; simp)
  unfold Draft.finish at h
  rw [hd.pending] at h
  refine hzeros.congr fun k hk => getElem?_of_patches h fun pending hp => ?_
  obtain ⟨other, ho, rfl⟩ := List.mem_map.mp hp
  rw [toNat_offset_noted]
  exact .inr (Nat.le_trans (hclear other ho) hk)

end Lays

end Draft

/-! ## §4. Images that are right. -/

namespace TwoPass

/-- The offset of a name, if a jump can hold it. -/
def within? (nodes : List Tree) (name : String) : Option Nat :=
  (offset? nodes name).filter fun offset => decide (offset < 2 ^ 32)

theorem within?_eq_some_iff {name : String} {offset : Nat} :
    within? nodes name = some offset ↔ offset? nodes name = some offset ∧ offset < 2 ^ 32 := by
  rw [within?, Option.filter_eq_some_iff, decide_eq_true_iff]

/-- A line that is resolved within reach is resolved. -/
theorem resolve_of_within? {s : Statement} {i : Instruction}
    (h : resolve (within? nodes) s = .ok i) : resolve (offset? nodes) s = .ok i := by
  cases s with
  | plain i => exact h
  | jump condition name =>
    obtain ⟨offset, ho, rfl⟩ := jump_of_resolve h
    exact resolve_jump condition (within?_eq_some_iff.mp ho).1

end TwoPass

/-- The image holds the lines in order, with names at their offsets as they are.  There is no such
image if a jump leads out of reach. -/
def HoldsExactly (nodes : List Tree) (image : Image) : Prop :=
  ∃ program, (statements nodes).mapM (TwoPass.resolve (TwoPass.within? nodes)) = .ok program ∧
    image.toList = encodeAll program

/-- Such an image is that of the reference. -/
theorem HoldsExactly.program (h : HoldsExactly nodes image) :
    ∃ program, TwoPass.program nodes = .ok program ∧ image.toList = encodeAll program := by
  obtain ⟨program, hp, himage⟩ := h
  exact ⟨program, mapM_ok_imp (fun _ _ _ hi => TwoPass.resolve_of_within? hi) hp, himage⟩

/-- In such an image a jump leads to an offset within reach. -/
theorem HoldsExactly.targets (h : HoldsExactly nodes image) : TargetsInReach nodes := by
  intro name hn offset ho
  obtain ⟨program, hp, -⟩ := h
  obtain ⟨s, hs, ht⟩ := List.mem_filterMap.mp hn
  cases s with
  | plain i => cases ht
  | jump condition other =>
    cases ht
    obtain ⟨i, hi⟩ := exists_mapM_iff.mp ⟨program, hp⟩ _ hs
    obtain ⟨found, hf, -⟩ := TwoPass.jump_of_resolve hi
    obtain ⟨hf, hlt⟩ := TwoPass.within?_eq_some_iff.mp hf
    rw [ho] at hf
    cases hf
    exact hlt

namespace Draft.Lays

variable {d : Draft}

/-- In such an image all jumps are in reach: the last one out of reach would be missing. -/
theorem jumpsInReach_of_holdsExactly (hd : d.Lays nodes) (h : d.finish = .ok image)
    (he : HoldsExactly nodes image) : JumpsInReach nodes := by
  intro jump hj
  by_contra hfar
  obtain ⟨program, hp, himage⟩ := he.program
  rcases List.eq_nil_or_concat (jumpsAt 0 (statements nodes)) with hnil | ⟨before, last, hs⟩
  · rw [hnil] at hj
    cases hj
  · rw [List.concat_eq_append] at hs
    have hmem : last ∈ jumpsAt 0 (statements nodes) := by rw [hs]; simp
    have hlast : 2 ^ 32 ≤ last.1 := by
      rw [hs] at hj
      rcases List.mem_append.mp hj with hj | hj
      · have hends := le_last_jump hs jump hj
        omega
      · rw [← List.mem_singleton.mp hj]
        omega
    -- its first byte is the prefix of a jump in the one image, and a zero in the other
    have hzero := (hd.last_jump_stays_open h hs hlast).1
    obtain ⟨target, hbytes⟩ := TwoPass.holds_jump hp himage hmem
    have hb : some Opcode.jump.toByte = some (0 : UInt8) := hbytes.1.symm.trans hzero
    exact absurd hb (by decide)

/-- **The image is right exactly if all jumps are in reach, and all that they lead to.** -/
theorem holdsExactly_iff (hd : d.Lays nodes) (h : d.finish = .ok image) :
    HoldsExactly nodes image ↔ JumpsInReach nodes ∧ TargetsInReach nodes := by
  constructor
  · exact fun he => ⟨hd.jumpsInReach_of_holdsExactly h he, he.targets⟩
  · rintro ⟨hjumps, htargets⟩
    obtain ⟨program, hp, himage⟩ := hd.finish_of_jumps h hjumps
    refine ⟨program, mapM_ok_imp (fun s hs i hi => ?_) hp, himage⟩
    cases s with
    | plain _ => exact hi
    | jump condition name =>
      obtain ⟨offset, ho, rfl⟩ := TwoPass.jump_of_resolve hi
      have hname : name ∈ jumpNames nodes := List.mem_filterMap.mpr ⟨_, hs, rfl⟩
      exact TwoPass.resolve_jump condition
        (TwoPass.within?_eq_some_iff.mpr ⟨ho, htargets name hname offset ho⟩)

end Draft.Lays

/-! ## §5. Trees of any size, and a loop at any offset. -/

/-- Some children behind so many halts. -/
def behindHalts (n : Nat) (nodes : List Tree) : List Tree :=
  List.replicate n (Tree.line [.mnemonic haltMnemonic]) ++ nodes

theorem statements_behindHalts (n : Nat) (nodes : List Tree) :
    statements (behindHalts n nodes)
      = (List.replicate n Instruction.halt).map .plain ++ statements nodes := by
  rw [behindHalts, statements_append, List.map_replicate]
  congr 1
  exact List.filterMap_replicate_of_some rfl

/-- A halt is one byte. -/
theorem codeSize_halts (n : Nat) :
    codeSize (List.replicate n (.line [.mnemonic haltMnemonic])) = n := by
  have hs := statements_behindHalts n []
  rw [behindHalts, List.append_nil] at hs
  unfold codeSize
  rw [hs, List.map_append, List.map_map, List.map_replicate, List.sum_append, List.sum_replicate]
  exact Nat.mul_one n

theorem codeSize_behindHalts (n : Nat) (nodes : List Tree) :
    codeSize (behindHalts n nodes) = n + codeSize nodes := by
  rw [behindHalts, codeSize_append, codeSize_halts]

/-- **No tree is refused for its size**: behind any number of halts it has an image as well. -/
theorem exists_image_behindHalts (h : (Tree.root nodes).assemble = .ok image) (n : Nat) :
    ∃ longer, (Tree.root (behindHalts n nodes)).assemble = .ok longer ∧
      longer.size = n + image.size := by
  obtain ⟨others, hothers, hr, hall⟩ := exists_image_iff.mp ⟨image, h⟩
  cases hothers
  have hnames : jumpNames (behindHalts n nodes) = jumpNames nodes := by
    unfold jumpNames
    rw [statements_behindHalts, List.filterMap_append, List.filterMap_map]
    exact congrArg (· ++ _) (List.filterMap_eq_nil_iff.mpr fun _ _ => rfl)
  obtain ⟨longer, hl⟩ : ∃ longer, (Tree.root (behindHalts n nodes)).assemble = .ok longer := by
    refine exists_image_iff.mpr ⟨_, rfl, fun node hn hnone => ?_, fun name hn => ?_⟩
    · rcases List.mem_append.mp hn with hn | hn
      · rw [List.eq_of_mem_replicate hn] at hnone
        cases hnone
      · exact hr node hn hnone
    · rw [hnames] at hn
      exact List.mem_append_right _ (hall name hn)
  refine ⟨longer, hl, ?_⟩
  rw [Tree.size_of_assemble hl, Tree.size_of_assemble h]
  exact codeSize_behindHalts n nodes

/-- A label and a jump to it. -/
def loop : List Tree := [.label "a", .line [.mnemonic "jmp", .label "a"]]

/-- Behind halts, label and jump of the loop stand at the number of halts. -/
theorem jumpsAt_loop (n : Nat) :
    jumpsAt 0 (statements (behindHalts n loop)) = [(n, .always, "a")] := by
  rw [statements_behindHalts, jumpsAt_append, jumpsAt_plain, List.map_map, List.map_replicate,
    List.sum_replicate]
  show [(0 + n * 1, _, _)] = _
  rw [Nat.zero_add, Nat.mul_one]

theorem offset?_loop (n : Nat) : TwoPass.offset? (behindHalts n loop) "a" = some n := by
  rw [TwoPass.offset?, behindHalts, beforeLast?_append]
  show some (codeSize (_ ++ [])) = some n
  rw [List.append_nil, codeSize_halts]

theorem jumpsInReach_loop_iff (n : Nat) : JumpsInReach (behindHalts n loop) ↔ n < 2 ^ 32 := by
  rw [JumpsInReach, jumpsAt_loop, List.forall_mem_singleton]

theorem labelsInReach_loop_iff (n : Nat) : LabelsInReach (behindHalts n loop) ↔ n < 2 ^ 32 := by
  constructor
  · intro h
    have hn := h (List.replicate n (.line [.mnemonic haltMnemonic])) "a" _ rfl
    rwa [codeSize_halts] at hn
  · intro hn before name after hs
    -- the jump at the end stands behind every label
    have hback : (List.replicate n (Tree.line [.mnemonic haltMnemonic]) ++ [Tree.label "a"])
        ++ [Tree.line [.mnemonic "jmp", .label "a"]] = before ++ Tree.label name :: after := by
      rw [← hs]
      simp [behindHalts, loop]
    rcases List.eq_nil_or_concat after with rfl | ⟨rest, last, rfl⟩
    · cases (List.append_inj' hback rfl).2
    · have hsplit : before ++ Tree.label name :: rest.concat last
          = (before ++ Tree.label name :: rest) ++ [last] := by
        simp
      have hsize := congrArg codeSize (List.append_inj' (hback.trans hsplit) rfl).1
      rw [codeSize_append, codeSize_append, codeSize_halts] at hsize
      have hlabel : codeSize [.label "a"] = 0 := rfl
      omega

theorem exists_image_loop (n : Nat) :
    ∃ image, (Tree.root (behindHalts n loop)).assemble = .ok image ∧ image.size = n + 6 := by
  have h : (Tree.root loop).assemble = .ok #[0xc0, 0x10, 0, 0, 0, 0] := by cbv
  exact exists_image_behindHalts h n

/-- The jump of the loop is written at the number of halts modulo 2³², and leads there. -/
theorem holds_loop {n : Nat} (h : (Tree.root (behindHalts n loop)).assemble = .ok image) :
    image.Holds (n % 2 ^ 32) (Instruction.jump .always (.ofNat n)).encode := by
  obtain ⟨draft, hd, hf⟩ := Tree.draft_of_assemble h
  have hlays : draft.Lays (behindHalts n loop) := Draft.lays_of_ofTree hd
  have htarget : draft.labels.find? "a" = some (.ofNat n) := by
    rw [hlays.find?_eq, offset?_loop]
    rfl
  have hpatch : Draft.patch draft.labels draft.code (noted (n, .always, "a")) = .ok image := by
    unfold Draft.finish at hf
    rw [hlays.pending, jumpsAt_loop] at hf
    obtain ⟨next, hn, hf⟩ := ok_of_bind hf
    cases hf
    exact hn
  have hroom : n % 2 ^ 32 + Instruction.jumpSize ≤ draft.code.size := by
    rw [hlays.size_code, codeSize_behindHalts]
    exact Nat.add_le_add_right (Nat.mod_le n _) _
  obtain ⟨-, -, hwritten⟩ := hlays.records_words.writes _
    (by rw [jumpsAt_loop]; exact List.mem_cons_self) _ _ hpatch
  obtain ⟨target, ht, hbytes⟩ := hwritten hroom
  rw [htarget] at ht
  cases ht
  exact hbytes

/-! ## §6. The reach of a word. -/

/-- **Offsets are exact exactly within the reach of a word.**  Of a tree with an image, of whatever
size, every offset is recorded modulo 2³², and the jumps are written there.  That is the number of
bytes before, for all labels and jumps, exactly if all of them are in reach; and the image is that
of the lines exactly if all jumps are, and the labels that they lead to.  If the last jump is not,
its bytes are zeros in the image.  The same tree has an image behind any number of halts. -/
theorem offsets_are_exact_iff (h : tree.assemble = .ok image) :
    ∃ draft, Draft.ofTree tree = .ok draft ∧ draft.finish = .ok image ∧
      draft.Records (· % 2 ^ 32) tree.children ∧
      (draft.Records id tree.children ↔
        LabelsInReach tree.children ∧ JumpsInReach tree.children) ∧
      (HoldsExactly tree.children image ↔
        JumpsInReach tree.children ∧ TargetsInReach tree.children) ∧
      (∀ before jump, jumpsAt 0 (statements tree.children) = before ++ [jump] →
        2 ^ 32 ≤ jump.1 → image.Holds jump.1 (List.replicate Instruction.jumpSize 0)) ∧
      ∀ n, ∃ longer, (Tree.root (behindHalts n tree.children)).assemble = .ok longer ∧
        longer.size = n + image.size := by
  obtain ⟨draft, hd, hf⟩ := Tree.draft_of_assemble h
  have hlays := Draft.lays_of_ofTree hd
  refine ⟨draft, hd, hf, hlays.records_words, hlays.records_exactly_iff,
    hlays.holdsExactly_iff hf, fun _ _ hs hfar => hlays.last_jump_stays_open hf hs hfar, ?_⟩
  obtain ⟨nodes, rfl, -⟩ := exists_image_iff.mp ⟨image, h⟩
  exact exists_image_behindHalts h

/-- The loop stands at the last offset that is in reach, and ends out of reach: nothing is lost. -/
theorem offsets_are_exact_iff_last_word :
    let nodes := behindHalts (2 ^ 32 - 1) loop
    ∃ image draft, (Tree.root nodes).assemble = .ok image ∧ image.size = 2 ^ 32 + 5 ∧
      Draft.ofTree (.root nodes) = .ok draft ∧ draft.Records id nodes ∧
      HoldsExactly nodes image := by
  intro nodes
  obtain ⟨image, h, hsize⟩ := exists_image_loop (2 ^ 32 - 1)
  have hlabels : LabelsInReach nodes := (labelsInReach_loop_iff _).mpr (by decide)
  have hjumps : JumpsInReach nodes := (jumpsInReach_loop_iff _).mpr (by decide)
  obtain ⟨draft, hd, -, -, hrecords, hexact, -⟩ := offsets_are_exact_iff h
  exact ⟨image, draft, h, hsize, hd, hrecords.mpr ⟨hlabels, hjumps⟩,
    hexact.mpr ⟨hjumps, hlabels.targets⟩⟩

/-- One halt more, and the loop is out of reach.  The tree is accepted: its label is recorded at the
first byte of the image, and so is its jump, which takes the place of the first six halts and leads
to itself, while its own bytes are zeros. -/
theorem not_all_offsets_are_exact :
    let nodes := behindHalts (2 ^ 32) loop
    ∃ image draft, (Tree.root nodes).assemble = .ok image ∧
      Draft.ofTree (.root nodes) = .ok draft ∧
      ¬ LabelsInReach nodes ∧ ¬ JumpsInReach nodes ∧
      ¬ draft.Records id nodes ∧ ¬ HoldsExactly nodes image ∧
      draft.labels.find? "a" = some 0 ∧ draft.pending.toList = [⟨0, .always, "a"⟩] ∧
      image.decodeAt 0 = .ok (.jump .always 0, 6) ∧
      image.Holds (2 ^ 32) [0, 0, 0, 0, 0, 0] := by
  intro nodes
  obtain ⟨image, h, -⟩ := exists_image_loop (2 ^ 32)
  obtain ⟨draft, hd, hf⟩ := Tree.draft_of_assemble h
  have hlays : draft.Lays nodes := Draft.lays_of_ofTree hd
  have hlabels : ¬ LabelsInReach nodes := fun hl => by
    exact absurd ((labelsInReach_loop_iff _).mp hl) (Nat.lt_irrefl _)
  have hjumps : ¬ JumpsInReach nodes := fun hj => by
    exact absurd ((jumpsInReach_loop_iff _).mp hj) (Nat.lt_irrefl _)
  have hword : UInt32.ofNat (2 ^ 32) = 0 := by decide
  refine ⟨image, draft, h, hd, hlabels, hjumps, ?_, ?_, ?_, ?_, ?_, ?_⟩
  · exact fun hr => hlabels (hlays.records_exactly_iff.mp hr).1
  · exact fun he => hjumps ((hlays.holdsExactly_iff hf).mp he).1
  · rw [hlays.find?_eq, offset?_loop, Option.map_some, hword]
  · rw [hlays.pending, jumpsAt_loop]
    show [(⟨.ofNat (2 ^ 32), .always, "a"⟩ : PendingJump)] = _
    rw [hword]
  · have hfirst := holds_loop h
    rw [Nat.mod_self, hword] at hfirst
    exact Image.decodeAt_encode _ hfirst
  · have hlast : jumpsAt 0 (statements nodes) = [] ++ [(2 ^ 32, .always, "a")] := jumpsAt_loop _
    exact hlays.last_jump_stays_open hf hlast (Nat.le_refl _)

end ByteMachine.Assembly
