/-
  ByteMachine.Proofs.Sweep — reading an image from end to end.

  `Image.Tiles` says that instructions are read one behind the other up to exactly the end of the
  image.  A sweep without a fault finds such a tiling, and there is no other.

    • `sweepFrom_of_tiles` and `tiles_of_complete` — sweeping and tiling agree,
    • `Tiles.next` — behind a tile stands a tile or the end of the image,
    • `sweep_encodeAll` — encoded instructions, and nothing else, are swept as they were written.
-/
import ByteMachine.Proofs.ReadBack

namespace ByteMachine

/-! ## §1. Instructions one behind the other. -/

namespace Instruction

/-- The bytes of instructions one behind the other. -/
def encodeAll (is : List Instruction) : List UInt8 := is.flatMap encode

/-- The number of bytes of instructions one behind the other. -/
def sizeAll (is : List Instruction) : Nat := (is.map size).sum

@[simp] theorem encodeAll_cons (i : Instruction) (is : List Instruction) :
    encodeAll (i :: is) = i.encode ++ encodeAll is := rfl

@[simp] theorem sizeAll_cons (i : Instruction) (is : List Instruction) :
    sizeAll (i :: is) = i.size + sizeAll is := rfl

/-- Instructions of the same sizes have the same size together. -/
theorem sizeAll_map {f : Instruction → Instruction} (h : ∀ i, (f i).size = i.size)
    (is : List Instruction) : sizeAll (is.map f) = sizeAll is := by
  induction is with
  | nil => rfl
  | cons i is ih => rw [List.map_cons, sizeAll_cons, sizeAll_cons, h, ih]

theorem sizeAll_reduce (is : List Instruction) : sizeAll (is.map reduce) = sizeAll is :=
  sizeAll_map size_reduce is

theorem length_encodeAll (is : List Instruction) : (encodeAll is).length = sizeAll is := by
  induction is with
  | nil => rfl
  | cons i is ih => rw [encodeAll_cons, List.length_append, length_encode, ih, sizeAll_cons]

end Instruction

namespace Image

open Instruction

/-- Where instructions stand that begin at an offset. -/
def place (offset : Nat) : List Instruction → List Placed
  | [] => []
  | i :: is => ⟨offset, i, i.size⟩ :: place (offset + i.size) is

theorem place_append (before after : List Instruction) :
    ∀ offset : Nat, place offset (before ++ after)
      = place offset before ++ place (offset + sizeAll before) after := by
  induction before with
  | nil => intro offset; rfl
  | cons i before ih =>
    intro offset
    show _ :: place (offset + i.size) (before ++ after) = _
    rw [ih, sizeAll_cons, ← Nat.add_assoc]
    rfl

/-- What is placed is one of the instructions, behind those before it. -/
theorem split_of_mem_place {p : Placed} :
    ∀ {is : List Instruction} {offset : Nat}, p ∈ place offset is →
      ∃ before after, is = before ++ p.instruction :: after
        ∧ p.offset = offset + sizeAll before := by
  intro is
  induction is with
  | nil => intro offset h; cases h
  | cons i is ih =>
    intro offset h
    rcases List.mem_cons.mp h with rfl | h
    · exact ⟨[], is, rfl, rfl⟩
    · obtain ⟨before, after, hs, ho⟩ := ih h
      refine ⟨i :: before, after, by rw [hs]; rfl, ?_⟩
      rw [ho, sizeAll_cons, Nat.add_assoc]

theorem instruction_mem_of_place {p : Placed} {is : List Instruction} {offset : Nat}
    (h : p ∈ place offset is) : p.instruction ∈ is := by
  obtain ⟨before, after, hs, -⟩ := split_of_mem_place h
  rw [hs]
  exact List.mem_append_right _ List.mem_cons_self

/-! ## §2. One step of a sweep. -/

variable {image : Image} {offset : Nat}

theorem sweepFrom_of_le (h : image.size ≤ offset) : image.sweepFrom offset = ([], none) := by
  rw [sweepFrom, dif_neg (by omega)]

theorem sweepFrom_of_decodeAt {i : Instruction} {n : Nat}
    (h : image.decodeAt offset = .ok (i, n)) :
    image.sweepFrom offset
      = (⟨offset, i, n⟩ :: (image.sweepFrom (offset + n)).1, (image.sweepFrom (offset + n)).2) := by
  -- what is read has at least one byte and ends inside the image, so the sweep is not at its end
  have hle := le_size_of_decodeAt h
  have hpos := decodeAt_pos h
  rw [sweepFrom, dif_pos (by omega)]
  split
  · rename_i hd
    rw [h] at hd
    cases hd
    rfl
  · rename_i hd
    rw [h] at hd
    cases hd

theorem sweepFrom_of_error {e : DecodeError} (hlt : offset < image.size)
    (h : image.decodeAt offset = .error e) : image.sweepFrom offset = ([], some e) := by
  rw [sweepFrom, dif_pos hlt]
  split
  · rename_i hd
    rw [h] at hd
    cases hd
  · rename_i hd
    rw [h] at hd
    cases hd
    rfl

/-! ## §3. Tilings. -/

/-- Instructions read one behind the other from an offset up to exactly the end of the image. -/
inductive Tiles (image : Image) : (offset : Nat) → List Placed → Prop where
  | done : Tiles image image.size []
  | tile {offset : Nat} {i : Instruction} {n : Nat} {rest : List Placed}
      (head : image.decodeAt offset = .ok (i, n)) (tail : Tiles image (offset + n) rest) :
      Tiles image offset (⟨offset, i, n⟩ :: rest)

theorem sweepFrom_of_tiles {placed : List Placed} (h : image.Tiles offset placed) :
    image.sweepFrom offset = (placed, none) := by
  induction h with
  | done => exact sweepFrom_of_le (Nat.le_refl _)
  | tile head _ ih => rw [sweepFrom_of_decodeAt head, ih]

/-- **A sweep that meets no fault tiles the image.** -/
theorem tiles_of_complete (image : Image) (offset : Nat) (hle : offset ≤ image.size)
    (h : (image.sweepFrom offset).2 = none) : image.Tiles offset (image.sweepFrom offset).1 := by
  by_cases hlt : offset < image.size
  · cases hd : image.decodeAt offset with
    | error e =>
      rw [sweepFrom_of_error hlt hd] at h
      cases h
    | ok read =>
      obtain ⟨i, n⟩ := read
      have hpos := decodeAt_pos hd
      rw [sweepFrom_of_decodeAt hd] at h ⊢
      exact .tile hd (tiles_of_complete image (offset + n) (le_size_of_decodeAt hd) h)
  · obtain rfl : offset = image.size := by omega
    rw [sweepFrom_of_le (Nat.le_refl _)]
    exact .done
termination_by image.size - offset

namespace Tiles

/-- A tile is read where it stands, with the size it was given. -/
theorem decodeAt {placed : List Placed} (h : image.Tiles offset placed) :
    ∀ p ∈ placed, image.decodeAt p.offset = .ok (p.instruction, p.size) := by
  induction h with
  | done => intro p hp; cases hp
  | tile head _ ih =>
    intro p hp
    rcases List.mem_cons.mp hp with rfl | hp
    · exact head
    · exact ih p hp

/-- Where a tiling begins stands its first tile, or the end of the image. -/
theorem start {placed : List Placed} (h : image.Tiles offset placed) :
    offset ∈ placed.map Placed.offset ∨ offset = image.size := by
  cases h with
  | done => exact .inr rfl
  | tile _ _ => exact .inl List.mem_cons_self

/-- **Behind a tile stands a tile, or the end of the image.** -/
theorem next {placed : List Placed} (h : image.Tiles offset placed) :
    ∀ p ∈ placed, p.offset + p.size ∈ placed.map Placed.offset
      ∨ p.offset + p.size = image.size := by
  induction h with
  | done => intro p hp; cases hp
  | tile _ tail ih =>
    intro p hp
    rcases List.mem_cons.mp hp with rfl | hp
    · exact tail.start.imp_left (List.mem_cons_of_mem _)
    · exact (ih p hp).imp_left (List.mem_cons_of_mem _)

/-- The sizes of the tiles add up to the rest of the image. -/
theorem sum_size {placed : List Placed} (h : image.Tiles offset placed) :
    offset + (placed.map Placed.size).sum = image.size := by
  induction h with
  | done => rfl
  | @tile offset i n rest _ _ ih =>
    show offset + (n + (rest.map Placed.size).sum) = image.size
    omega

end Tiles

/-! ## §4. Sweeping what was written. -/

/-- Encoded instructions that end with the image tile the rest of it. -/
theorem tiles_encodeAll (is : List Instruction) :
    ∀ {offset : Nat}, image.Holds offset (encodeAll is) → offset + sizeAll is = image.size →
      image.Tiles offset (place offset (is.map reduce)) := by
  induction is with
  | nil =>
    intro offset _ hs
    obtain rfl : offset = image.size := hs
    exact .done
  | cons i is ih =>
    intro offset h hs
    rw [encodeAll_cons] at h
    rw [sizeAll_cons] at hs
    obtain ⟨hi, his⟩ := holds_append.mp h
    rw [length_encode] at his
    have hd := decodeAt_encode i hi
    rw [← size_reduce] at hd his hs
    exact .tile hd (ih his (by omega))

/-- **An image of encoded instructions is swept as they were written**, literals reduced. -/
theorem sweep_encodeAll {is : List Instruction} (h : image.toList = encodeAll is) :
    image.sweep = (place 0 (is.map reduce), none) := by
  have hsplit : image.toList = [] ++ (encodeAll is ++ []) := by
    rw [h, List.append_nil, List.nil_append]
  have hh : image.Holds 0 (encodeAll is) := holds_of_toList hsplit
  have hs : 0 + sizeAll is = image.size := by
    rw [← length_encodeAll, ← h, Array.length_toList]
    omega
  exact sweepFrom_of_tiles (tiles_encodeAll is hh hs)

end Image

end ByteMachine
