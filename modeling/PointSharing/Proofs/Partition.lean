/-
The fields of a key are a partition of its bytes, and so they are independent of each other.

A table lists its fields and their lengths, and where a field lies is found by adding up the
lengths before it.  As long as no field is listed twice, that leaves no byte out and gives none
away twice: this is by induction on the table, with the offset at which it begins held general.
What a single write does is read off the spans (`read_write`): the field that is written has the
new content and every other field, which has no byte in common with it, the old.  A sequence of
writes is then an induction on the sequence, with the key that it begins with held general.
-/
import PointSharing.Proofs.Differences
import PointSharing.Proofs.KeySize

namespace PointSharing

/-- The number of bytes that lie in a span. -/
def Span.length (span : Span) : Nat := span.stop - span.start

/-- Spans that follow each other without gaps from one offset to another. -/
def Consecutive : (start stop : Nat) → List Span → Prop
  | start, stop, [] => start = stop
  | start, stop, span :: spans =>
    span.start = start ∧ span.start ≤ span.stop ∧ Consecutive span.stop stop spans

namespace Layout

/-- The spans of a table share the bytes of a key among themselves. -/
structure Partitions (layout : Layout) : Prop where
  /-- The fields follow each other, in the order of the table, from the first byte to the last. -/
  consecutive : Consecutive 0 layout.size (layout.fields.map fun entry => layout.span entry.1)
  /-- Each field is as long as the table says. -/
  length_span : ∀ entry ∈ layout.fields, (layout.span entry.1).length = entry.2
  /-- Every byte lies in a field, and in no other. -/
  existsUnique : ∀ i, i < layout.size → ∃! field, (layout.span field).Contains i
  /-- The fields that a key has are those of the table. -/
  has_iff : ∀ field, layout.has field = true ↔ field ∈ layout.fields.map Prod.fst
  /-- A field that a key does not have is empty and at the end. -/
  missing : ∀ field, layout.has field = false → layout.span field = ⟨layout.size, layout.size⟩

/-- The key into which fields are written one after the other. -/
def writeAll (layout : Layout) (key : Bytes) (writes : List (Field × Bytes)) : Bytes :=
  writes.foldl (fun key entry => layout.write key entry.1 entry.2) key

/-- Every write is of a whole field. -/
def Whole (layout : Layout) (writes : List (Field × Bytes)) : Prop :=
  ∀ entry ∈ writes, entry.2.length = (layout.span entry.1).length

/-- What was written last into a field, if anything. -/
def lastWritten (field : Field) (writes : List (Field × Bytes)) : Option Bytes :=
  writes.reverse.lookup field

/-- No write changes another field or the length of a key. -/
structure Independent (layout : Layout) : Prop where
  /-- A key remains one of this layout. -/
  check : ∀ writes, layout.Whole writes →
    layout.check (layout.writeAll layout.blank writes) = .ok ()
  /-- A field has what was written last into it, and is zero if nothing was. -/
  read : ∀ writes, layout.Whole writes → ∀ field,
    layout.read (layout.writeAll layout.blank writes) field
      = (lastWritten field writes).getD (Bytes.zeros (layout.span field).length)
  /-- The bytes outside of the field that is written stay as they are. -/
  outside : ∀ key field content, layout.check key = .ok () → layout.Whole [(field, content)] →
    layout.AgreeOutside [field] key (layout.write key field content)

/-! ### Where fields lie -/

theorem start_le_stop (field : Field) (offset : Nat) (fields : List (Field × Nat)) :
    (spanFrom field offset fields).start ≤ (spanFrom field offset fields).stop := by
  induction fields generalizing offset with
  | nil => exact Nat.le_refl _
  | cons entry fields ih =>
      rw [spanFrom]
      by_cases hfield : entry.1 = field
      · rw [if_pos hfield]
        exact Nat.le_add_right _ _
      · rw [if_neg hfield]
        exact ih _

theorem stop_le (field : Field) (offset : Nat) (fields : List (Field × Nat)) :
    (spanFrom field offset fields).stop ≤ offset + size ⟨fields⟩ := by
  induction fields generalizing offset with
  | nil => exact Nat.le_refl _
  | cons entry fields ih =>
      rw [spanFrom, size_cons]
      by_cases hfield : entry.1 = field
      · rw [if_pos hfield]
        show offset + entry.2 ≤ _
        omega
      · rw [if_neg hfield]
        have hrest := ih (offset + entry.2)
        omega

theorem spanFrom_eq_end {field : Field} {fields : List (Field × Nat)}
    (h : field ∉ fields.map Prod.fst) (offset : Nat) :
    spanFrom field offset fields = ⟨offset + size ⟨fields⟩, offset + size ⟨fields⟩⟩ := by
  induction fields generalizing offset with
  | nil => rfl
  | cons entry fields ih =>
      rw [List.map_cons, List.mem_cons, not_or] at h
      rw [spanFrom, if_neg fun heq => h.1 heq.symm, ih h.2, size_cons, Nat.add_assoc]

theorem consecutive_spansFrom {fields : List (Field × Nat)}
    (hnodup : (fields.map Prod.fst).Nodup) (offset : Nat) :
    Consecutive offset (offset + size ⟨fields⟩) ((spansFrom offset fields).map Prod.snd) := by
  induction fields generalizing offset with
  | nil => rfl
  | cons entry fields ih =>
      rw [spansFrom_cons hnodup, List.map_cons, size_cons, ← Nat.add_assoc]
      rw [List.map_cons, List.nodup_cons] at hnodup
      exact ⟨rfl, Nat.le_add_right _ _, ih hnodup.2 _⟩

theorem has_eq_true_iff {layout : Layout} {field : Field} :
    layout.has field = true ↔ field ∈ layout.fields.map Prod.fst := by
  rw [has, List.any_eq_true, List.mem_map]
  constructor
  · rintro ⟨entry, hentry, heq⟩
    exact ⟨entry, hentry, beq_iff_eq.mp heq⟩
  · rintro ⟨entry, hentry, heq⟩
    exact ⟨entry, hentry, beq_iff_eq.mpr heq⟩

variable {layout : Layout}

/-- A table that lists no field twice shares the bytes of a key among its fields. -/
theorem partitions_of_nodup (hnodup : (layout.fields.map Prod.fst).Nodup) :
    layout.Partitions where
  consecutive := by
    have h := consecutive_spansFrom hnodup 0
    rw [Nat.zero_add, spansFrom, List.map_map] at h
    exact h
  length_span := by
    intro entry hentry
    obtain ⟨start, hspan, -⟩ := exists_spanFrom hnodup hentry 0
    rw [span, hspan, Span.length]
    exact Nat.add_sub_cancel_left _ _
  existsUnique := by
    intro i hi
    obtain ⟨field, -, hcontains⟩ :=
      exists_contains hnodup (Nat.zero_le i) (by rwa [Nat.zero_add])
    exact ⟨field, hcontains, fun other hother => contains_inj hother hcontains⟩
  has_iff := fun field => has_eq_true_iff
  missing := by
    intro field hfield
    have hmem : field ∉ layout.fields.map Prod.fst := by
      intro hmem
      rw [has_eq_true_iff.mpr hmem] at hfield
      exact absurd hfield (by decide)
    rw [span, spanFrom_eq_end hmem, Nat.zero_add]

/-! ### What a write does -/

theorem span_le (field : Field) :
    (layout.span field).start ≤ (layout.span field).stop ∧
      (layout.span field).stop ≤ layout.size := by
  have hstop := stop_le field 0 layout.fields
  rw [Nat.zero_add] at hstop
  exact ⟨start_le_stop field 0 layout.fields, hstop⟩

theorem read_blank (field : Field) :
    layout.read layout.blank field = Bytes.zeros (layout.span field).length := by
  have hle := layout.span_le field
  rw [read, blank, Bytes.zeros, List.drop_replicate, List.take_replicate, Nat.min_eq_left]
  · rfl
  · omega

section

variable {key : Bytes} {field : Field} {content : Bytes} (hkey : key.length = layout.size)
  (hcontent : content.length = (layout.span field).length)

include hkey hcontent

theorem length_write : (layout.write key field content).length = layout.size := by
  have hle := layout.span_le field
  rw [Span.length] at hcontent
  simp only [write, List.length_append, List.length_take, List.length_drop]
  omega

theorem read_write_self : layout.read (layout.write key field content) field = content := by
  have hle := layout.span_le field
  have hbefore : (key.take (layout.span field).start).length = (layout.span field).start :=
    List.length_take_of_le (by omega)
  rw [read, write, List.append_assoc, List.drop_left' hbefore, ← Span.length,
    List.take_left' hcontent]

/-- A byte that lies outside of the field that is written stays as it is. -/
theorem getElem?_write {i : Nat} (h : ¬ (layout.span field).Contains i) :
    (layout.write key field content)[i]? = key[i]? := by
  have hle := layout.span_le field
  have hbefore : (key.take (layout.span field).start).length = (layout.span field).start :=
    List.length_take_of_le (by omega)
  rw [Span.length] at hcontent
  by_cases hi : i < (layout.span field).start
  · rw [write, List.append_assoc, List.getElem?_append_left (by omega), List.getElem?_take,
      if_pos hi]
  · have hstop : (layout.span field).stop ≤ i := by
      by_contra hlt
      exact h ⟨by omega, by omega⟩
    have hlength : (key.take (layout.span field).start ++ content).length
        = (layout.span field).stop := by
      rw [List.length_append]
      omega
    rw [write, List.getElem?_append_right (by omega), hlength, List.getElem?_drop,
      Nat.add_sub_cancel' hstop]

theorem agreeOutside_write :
    layout.AgreeOutside [field] key (layout.write key field content) := by
  intro i hi
  exact (getElem?_write hkey hcontent (hi field (by simp))).symm

/-- The field that is written has the new content, every other field the old. -/
theorem read_write (other : Field) : layout.read (layout.write key field content) other
    = if field = other then content else layout.read key other := by
  by_cases h : field = other
  · rw [if_pos h, ← h]
    exact read_write_self hkey hcontent
  · rw [if_neg h]
    refine ((agreeOutside_write hkey hcontent).read_eq ?_).symm
    intro hmem
    exact h (List.mem_singleton.mp hmem).symm

end

/-! ### Sequences of writes -/

theorem lastWritten_cons (field : Field) (entry : Field × Bytes)
    (writes : List (Field × Bytes)) :
    lastWritten field (entry :: writes)
      = (lastWritten field writes).or (if entry.1 = field then some entry.2 else none) := by
  obtain ⟨written, content⟩ := entry
  rw [lastWritten, List.reverse_cons, List.lookup_append, ← lastWritten]
  congr 1
  by_cases h : written = field
  · rw [if_pos h, ← h]
    exact List.lookup_cons_self
  · have hne : (field == written) = false := beq_false_of_ne fun heq => h heq.symm
    rw [if_neg h, List.lookup_cons, hne]
    rfl

/-- After any writes of whole fields a key is as long as before, and every field is read as it was
last written. -/
theorem writeAll_spec {writes : List (Field × Bytes)} (h : layout.Whole writes) {key : Bytes}
    (hkey : key.length = layout.size) :
    (layout.writeAll key writes).length = layout.size ∧
      ∀ field, layout.read (layout.writeAll key writes) field
        = (lastWritten field writes).getD (layout.read key field) := by
  induction writes generalizing key with
  | nil => exact ⟨hkey, fun field => rfl⟩
  | cons entry writes ih =>
      have hentry : entry.2.length = (layout.span entry.1).length := h entry (by simp)
      have hrest : layout.Whole writes := fun other hother => h other (by simp [hother])
      obtain ⟨hlength, hread⟩ := ih hrest (length_write hkey hentry)
      refine ⟨hlength, ?_⟩
      intro field
      rw [lastWritten_cons, Option.getD_or]
      refine (hread field).trans ?_
      rw [read_write hkey hentry]
      congr 1
      split <;> rfl

theorem independent (layout : Layout) : layout.Independent where
  check := by
    intro writes h
    exact check_eq_ok_iff.mpr (writeAll_spec h layout.length_blank).1
  read := by
    intro writes h field
    rw [(writeAll_spec h layout.length_blank).2 field, read_blank]
  outside := by
    intro key field content hkey h
    exact agreeOutside_write (check_eq_ok_iff.mp hkey) (h _ (List.mem_singleton.mpr rfl))

/-! ### The kinds of keys -/

/-- **The fields of every kind of key are a partition of its bytes and independent of each other**,
whatever sizes are declared. -/
theorem partitions_of_ok :
    (∀ (n d : Nat) (verifiable : Bool) (layout : Layout), point n d verifiable = .ok layout →
      layout = pointTable n d verifiable ∧ layout.Partitions ∧ layout.Independent) ∧
    (∀ (n t d : Nat) (verifiable : Bool) (layout : Layout),
      multiPoint n t d verifiable = .ok layout →
      layout = multiPointTable n t d verifiable ∧ layout.Partitions ∧ layout.Independent) ∧
    ∀ (n t d : Nat) (layout : Layout), compressed n t d = .ok layout →
      layout = compressedTable n t d ∧ layout.Partitions ∧ layout.Independent := by
  refine ⟨?_, ?_, ?_⟩
  · intro n d verifiable layout h
    obtain rfl := point_eq_ok h
    exact ⟨rfl, partitions_of_nodup (nodup_pointTable n d verifiable), independent _⟩
  · intro n t d verifiable layout h
    obtain rfl := multiPoint_eq_ok h
    exact ⟨rfl, partitions_of_nodup (nodup_multiPointTable n t d verifiable), independent _⟩
  · intro n t d layout h
    obtain rfl := compressed_eq_ok h
    exact ⟨rfl, partitions_of_nodup (nodup_compressedTable n t d), independent _⟩

/-- A key with all fields, one in which most fields are empty and one that is written to. -/
theorem partitions_of_ok_small_tables :
    (∃ layout, point 4 10 true = .ok layout ∧ layout.Partitions ∧ layout.Independent ∧
      layout.span .levelCorrections = ⟨18, 90⟩ ∧ layout.span .payload = ⟨90, 100⟩) ∧
    (∃ layout, multiPoint 0 0 0 false = .ok layout ∧ layout.Partitions ∧ layout.Independent ∧
      layout.span .payload = ⟨19, 19⟩ ∧ layout.span .proofCorrection = ⟨19, 19⟩) ∧
    ∃ layout, compressed 4 2 3 = .ok layout ∧ layout.Partitions ∧
      let key := layout.writeAll layout.blank
        [(.rangeSize, [4]), (.payload, [1, 2, 3, 4, 5, 6]), (.rangeSize, [5])]
      layout.check key = .ok () ∧ layout.read key .rangeSize = [5] ∧
        layout.read key .rangePoints = [0] := by
  obtain ⟨hpoint, hpoints, hcompressed⟩ := partitions_of_ok
  obtain ⟨-, hparts, hindependent⟩ := hpoint 4 10 true (pointTable 4 10 true) rfl
  obtain ⟨-, hpartsEmpty, hindependentEmpty⟩ :=
    hpoints 0 0 0 false (multiPointTable 0 0 0 false) rfl
  obtain ⟨-, hpartsWritten, hwritten⟩ := hcompressed 4 2 3 (compressedTable 4 2 3) rfl
  refine ⟨⟨_, rfl, hparts, hindependent, by decide, by decide⟩,
    ⟨_, rfl, hpartsEmpty, hindependentEmpty, by decide, by decide⟩, _, rfl, hpartsWritten, ?_⟩
  have hwhole : (compressedTable 4 2 3).Whole
      [(.rangeSize, [4]), (.payload, [1, 2, 3, 4, 5, 6]), (.rangeSize, [5])] := by
    unfold Whole
    decide
  exact ⟨hwritten.check _ hwhole, (hwritten.read _ hwhole .rangeSize).trans rfl,
    (hwritten.read _ hwhole .rangePoints).trans rfl⟩

end Layout

end PointSharing
