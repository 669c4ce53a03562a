/-
Keys that differ in some of their fields only.

That two keys are the same except in some fields is said byte by byte, as whoever compares them
sees it (`AgreeOutside`); what is needed of it is that the other fields are read the same.  The two
are one statement because the fields of a table leave no byte out and share none: every byte of a
key lies in a field (`exists_contains`) and in no other (`contains_inj`).  Both inductions are on
the table, with the offset at which it begins held general.
-/
import PointSharing.Proofs.Layout

namespace PointSharing

/-- The byte at an offset belongs to the field that lies there. -/
def Span.Contains (span : Span) (i : Nat) : Prop := span.start ≤ i ∧ i < span.stop

namespace Layout

/-- Two keys have the same bytes except in some fields. -/
def AgreeOutside (layout : Layout) (changed : List Field) (key key' : Bytes) : Prop :=
  ∀ i, (∀ field ∈ changed, ¬ (layout.span field).Contains i) → key[i]? = key'[i]?

/-! ### Every byte lies in one field -/

theorem le_of_contains {fields : List (Field × Nat)} {field : Field} {offset i : Nat}
    (h : (spanFrom field offset fields).Contains i) : offset ≤ i := by
  induction fields generalizing offset with
  | nil => exact h.1
  | cons entry fields ih =>
      rw [spanFrom] at h
      by_cases hfield : entry.1 = field
      · rw [if_pos hfield] at h
        exact h.1
      · rw [if_neg hfield] at h
        have hrest := ih h
        omega

/-- No byte lies in two fields. -/
theorem contains_inj {fields : List (Field × Nat)} {field other : Field} {offset i : Nat}
    (h : (spanFrom field offset fields).Contains i)
    (hother : (spanFrom other offset fields).Contains i) : field = other := by
  induction fields generalizing offset with
  | nil =>
      have hempty : offset ≤ i ∧ i < offset := h
      omega
  | cons entry fields ih =>
      rw [spanFrom] at h hother
      by_cases hfield : entry.1 = field <;> by_cases hentry : entry.1 = other
      · exact hfield.symm.trans hentry
      · rw [if_pos hfield] at h
        rw [if_neg hentry] at hother
        exact absurd h.2 (Nat.not_lt.mpr (le_of_contains hother))
      · rw [if_neg hfield] at h
        rw [if_pos hentry] at hother
        exact absurd hother.2 (Nat.not_lt.mpr (le_of_contains h))
      · rw [if_neg hfield] at h
        rw [if_neg hentry] at hother
        exact ih h hother

/-- Every byte lies in some field. -/
theorem exists_contains {fields : List (Field × Nat)} (hnodup : (fields.map Prod.fst).Nodup)
    {offset i : Nat} (hle : offset ≤ i) (hlt : i < offset + size ⟨fields⟩) :
    ∃ field ∈ fields.map Prod.fst, (spanFrom field offset fields).Contains i := by
  induction fields generalizing offset with
  | nil =>
      have hempty : i < offset := hlt
      omega
  | cons entry fields ih =>
      rw [List.map_cons, List.nodup_cons] at hnodup
      rw [size_cons] at hlt
      by_cases hfirst : i < offset + entry.2
      · refine ⟨entry.1, by simp, ?_⟩
        rw [spanFrom, if_pos rfl]
        exact ⟨hle, hfirst⟩
      · have hnext : offset + entry.2 ≤ i := Nat.not_lt.mp hfirst
        obtain ⟨field, hmem, hcontains⟩ := ih hnodup.2 hnext (by omega)
        have hne : entry.1 ≠ field := by
          intro heq
          exact hnodup.1 (heq ▸ hmem)
        refine ⟨field, by simp [hmem], ?_⟩
        rw [spanFrom, if_neg hne]
        exact hcontains

/-! ### Agreeing byte by byte and field by field -/

/-- A byte of a field is read at its place in the field. -/
theorem getElem?_read {layout : Layout} {field : Field} {i : Nat}
    (h : (layout.span field).Contains i) (key : Bytes) :
    (layout.read key field)[i - (layout.span field).start]? = key[i]? := by
  obtain ⟨hle, hlt⟩ := h
  rw [read, List.getElem?_take, if_pos (by omega), List.getElem?_drop, Nat.add_sub_cancel' hle]

theorem AgreeOutside.read_eq {layout : Layout} {changed : List Field} {key key' : Bytes}
    (h : layout.AgreeOutside changed key key') {field : Field} (hfield : field ∉ changed) :
    layout.read key field = layout.read key' field := by
  apply List.ext_getElem?
  intro j
  simp only [read, List.getElem?_take, List.getElem?_drop]
  by_cases hj : j < (layout.span field).stop - (layout.span field).start
  · rw [if_pos hj, if_pos hj]
    refine h _ ?_
    intro other hother hcontains
    have hin : (layout.span field).Contains ((layout.span field).start + j) :=
      ⟨Nat.le_add_right _ _, by omega⟩
    exact hfield (contains_inj hin hcontains ▸ hother)
  · rw [if_neg hj, if_neg hj]

/-- **Keys of the right length agree outside of some fields exactly if all other fields are read the
same.** -/
theorem agreeOutside_iff {layout : Layout} (hnodup : (layout.fields.map Prod.fst).Nodup)
    {changed : List Field} {key key' : Bytes} (hkey : key.length = layout.size)
    (hkey' : key'.length = layout.size) :
    layout.AgreeOutside changed key key' ↔
      ∀ field ∈ layout.fields.map Prod.fst, field ∉ changed →
        layout.read key field = layout.read key' field := by
  constructor
  · intro h field _ hfield
    exact h.read_eq hfield
  · intro h i hi
    by_cases hlt : i < layout.size
    · obtain ⟨field, hmem, hcontains⟩ :=
        exists_contains hnodup (Nat.zero_le i) (by rwa [Nat.zero_add])
      have hfield : field ∉ changed := fun hchanged => hi field hchanged hcontains
      rw [← getElem?_read hcontains key, h field hmem hfield, getElem?_read hcontains key']
    · rw [List.getElem?_eq_none (by omega), List.getElem?_eq_none (by omega)]

/-- Keys that are put together from the same content, except in some fields, agree outside of
these. -/
theorem agreeOutside_build {layout : Layout} (hnodup : (layout.fields.map Prod.fst).Nodup)
    {changed : List Field} {content content' : Field → Bytes} (h : layout.Fits content)
    (h' : layout.Fits content')
    (hcontent : ∀ field ∈ layout.fields.map Prod.fst, field ∉ changed →
      content field = content' field) :
    layout.AgreeOutside changed (layout.build content) (layout.build content') := by
  refine (agreeOutside_iff hnodup (length_build h) (length_build h')).mpr ?_
  intro field hmem hfield
  rw [read_build h hmem, read_build h' hmem, hcontent field hmem hfield]

end Layout

end PointSharing
