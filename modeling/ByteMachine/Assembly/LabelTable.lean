/-
  ByteMachine.Assembly.LabelTable — the offsets of the labels defined so far.

  Each name is held once, with the offset of its latest definition.

  Main statement: `find?_define` — a definition decides its own name and leaves the others.
-/

namespace ByteMachine.Assembly

/-- Names and offsets, latest definition first. -/
structure LabelTable where
  entries : List (String × UInt32) := []
  /-- No name is held twice. -/
  nodup : (entries.map Prod.fst).Nodup := by exact List.nodup_nil

namespace LabelTable

/-- Without the entry of a name, the names are still distinct and that one is not among them. -/
theorem nodup_cons_filter {entries : List (String × UInt32)} (name : String) (offset : UInt32)
    (h : (entries.map Prod.fst).Nodup) :
    (((name, offset) :: entries.filter (·.1 != name)).map Prod.fst).Nodup := by
  rw [List.map_cons, List.nodup_cons]
  refine ⟨fun hm => ?_, h.sublist (List.Sublist.map _ List.filter_sublist)⟩
  obtain ⟨entry, he, hn⟩ := List.mem_map.mp hm
  simpa [hn] using (List.mem_filter.mp he).2

/-- Records a name at an offset, in place of an earlier definition. -/
def define (t : LabelTable) (name : String) (offset : UInt32) : LabelTable where
  entries := (name, offset) :: t.entries.filter (·.1 != name)
  nodup := nodup_cons_filter name offset t.nodup

/-- The offset of a name. -/
def find? (t : LabelTable) (name : String) : Option UInt32 := t.entries.lookup name

/-- The number of names held. -/
def size (t : LabelTable) : Nat := t.entries.length

/-- The entries in the order of their names. -/
def sorted (t : LabelTable) : List (String × UInt32) :=
  t.entries.mergeSort fun a b => decide (a.1 ≤ b.1)

theorem lookup_filter_ne (entries : List (String × UInt32)) {name other : String}
    (h : other ≠ name) : (entries.filter (·.1 != name)).lookup other = entries.lookup other := by
  induction entries with
  | nil => rfl
  | cons entry rest ih =>
    obtain ⟨key, offset⟩ := entry
    by_cases hn : key = name
    · have ho : (other == key) = false := by simpa [hn] using h
      simp [hn, ih, List.lookup_cons, hn ▸ ho]
    · simp [hn, ih, List.lookup_cons]

/-- A definition decides its own name and leaves all others. -/
theorem find?_define (t : LabelTable) (name other : String) (offset : UInt32) :
    (t.define name offset).find? other = if other = name then some offset else t.find? other := by
  by_cases h : other = name
  · simp [define, find?, h]
  · have hb : (other == name) = false := by simpa using h
    simp only [define, find?, List.lookup_cons, hb, lookup_filter_ne t.entries h, if_neg h]

end LabelTable

end ByteMachine.Assembly
