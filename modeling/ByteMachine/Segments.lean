/-
  ByteMachine.Segments — a list cut at its separators.

  The separators are dropped, and there is one more segment than separators: a separator at an end,
  or two side by side, leave an empty segment.

  Main statements: `flatten_segments` and `length_segments`.
-/

namespace ByteMachine

/-- Puts an item in front of the segments of what follows it. -/
def pushSegment {α : Type} (isSeparator : α → Bool) (item : α) : List (List α) → List (List α)
  | [] => [[item]]
  | segment :: rest =>
    if isSeparator item then [] :: segment :: rest else (item :: segment) :: rest

/-- The segments between the separators. -/
def segments {α : Type} (isSeparator : α → Bool) (items : List α) : List (List α) :=
  items.foldr (pushSegment isSeparator) [[]]

variable {α : Type} (isSeparator : α → Bool)

theorem segments_ne_nil (items : List α) : segments isSeparator items ≠ [] := by
  cases items with
  | nil => simp [segments]
  | cons item rest =>
    show pushSegment isSeparator item (segments isSeparator rest) ≠ []
    unfold pushSegment
    split
    · simp
    · split <;> simp

/-- Nothing but the separators is lost. -/
theorem flatten_segments (items : List α) :
    (segments isSeparator items).flatten = items.filter (!isSeparator ·) := by
  induction items with
  | nil => rfl
  | cons item rest ih =>
    show (pushSegment isSeparator item (segments isSeparator rest)).flatten = _
    obtain ⟨segment, more, hs⟩ := List.exists_cons_of_ne_nil (segments_ne_nil isSeparator rest)
    rw [hs, List.flatten_cons] at ih
    cases hsep : isSeparator item with
    | true => simp [hs, pushSegment, hsep, ih]
    | false => simp [hs, pushSegment, hsep, ih]

/-- There is one more segment than separators. -/
theorem length_segments (items : List α) :
    (segments isSeparator items).length = items.countP isSeparator + 1 := by
  induction items with
  | nil => rfl
  | cons item rest ih =>
    show (pushSegment isSeparator item (segments isSeparator rest)).length = _
    obtain ⟨segment, more, hs⟩ := List.exists_cons_of_ne_nil (segments_ne_nil isSeparator rest)
    rw [hs] at ih
    cases hsep : isSeparator item with
    | true => simp [hs, pushSegment, hsep, ← ih]
    | false => simp [hs, pushSegment, hsep, ← ih]

end ByteMachine
