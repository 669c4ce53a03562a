/-
The size of a key is exact, or the key is refused.

A size is put together from factors that a caller chooses, and whoever adds and multiplies them in
64 bits has to look at every product and at every sum on the way.  Here it is shown that looking at
all of them is the same as looking at the whole: a product or a sum that is too large stays too
large, because what comes after it is added or is a factor of at least one.  The only factor that
can be zero is the number of points, and without points the products before it decide alone.

The sums are those of `layOut`, which places one field after the other and checks each offset; it
is compared with the table by induction on the fields, with the offset held general.
-/
import PointSharing.Proofs.Layout

namespace PointSharing

/-- The sum of two sizes, if it is a size. -/
def checkedAdd (a b : Nat) : Option Nat :=
  if a + b ≤ maxSize then some (a + b) else none

namespace Layout

/-! ### Sums on the way -/

/-- Places fields from an offset on; nothing if a length is missing or an offset is too large. -/
def layOut (offset : Nat) : List (Field × Option Nat) → Option (List (Field × Span) × Nat)
  | [] => some ([], offset)
  | (field, length) :: fields => do
    let length ← length
    let next ← checkedAdd offset length
    let (spans, total) ← layOut next fields
    return ((field, ⟨offset, next⟩) :: spans, total)

/-- The fields of a table and where they lie if the table begins at an offset. -/
def spansFrom (offset : Nat) (fields : List (Field × Nat)) : List (Field × Span) :=
  fields.map fun entry => (entry.1, spanFrom entry.1 offset fields)

theorem spansFrom_cons {entry : Field × Nat} {fields : List (Field × Nat)}
    (hnodup : ((entry :: fields).map Prod.fst).Nodup) (offset : Nat) :
    spansFrom offset (entry :: fields)
      = (entry.1, ⟨offset, offset + entry.2⟩) :: spansFrom (offset + entry.2) fields := by
  rw [List.map_cons, List.nodup_cons] at hnodup
  rw [spansFrom, List.map_cons, spanFrom, if_pos rfl]
  congr 1
  refine List.map_congr_left ?_
  intro other hother
  have hne : entry.1 ≠ other.1 := by
    intro heq
    exact hnodup.1 (heq ▸ List.mem_map_of_mem hother)
  rw [spanFrom, if_neg hne]

/-- The lengths of a table, if all of them are sizes. -/
def lengths (fields : List (Field × Option Nat)) : Option (List (Field × Nat)) :=
  fields.mapM fun entry => entry.2.map (entry.1, ·)

theorem lengths_cons (field : Field) (length : Option Nat) (fields : List (Field × Option Nat)) :
    lengths ((field, length) :: fields)
      = length.bind fun n => (lengths fields).map ((field, n) :: ·) := by
  rw [lengths, List.mapM_cons]
  cases length <;> cases hrest : lengths fields <;> (rw [lengths] at hrest; simp [hrest])

theorem map_fst_of_lengths {checked : List (Field × Option Nat)} {fields : List (Field × Nat)}
    (h : lengths checked = some fields) : fields.map Prod.fst = checked.map Prod.fst := by
  induction checked generalizing fields with
  | nil =>
      obtain rfl := Option.some.inj h
      rfl
  | cons entry checked ih =>
      obtain ⟨field, length⟩ := entry
      rw [lengths_cons, Option.bind_eq_some_iff] at h
      obtain ⟨n, -, h⟩ := h
      obtain ⟨rest, hrest, rfl⟩ := Option.map_eq_some_iff.mp h
      rw [List.map_cons, List.map_cons, ih hrest]

theorem lengths_eq_none {checked : List (Field × Option Nat)} {field : Field}
    (h : (field, none) ∈ checked) : lengths checked = none := by
  induction checked with
  | nil => cases h
  | cons entry checked ih =>
      obtain ⟨first, length⟩ := entry
      rw [lengths_cons]
      rcases List.mem_cons.mp h with heq | hrest
      · obtain ⟨-, rfl⟩ := Prod.mk.inj heq
        rfl
      · rw [ih hrest]
        cases length <;> rfl

/-- A table is not made if one of its lengths is too large. -/
theorem ofLengths_eq_error {checked : List (Field × Option Nat)} {field : Field}
    (h : (field, none) ∈ checked) (dataSize : Nat) :
    ofLengths dataSize checked = .error (.inputSize maxSize dataSize) := by
  rw [ofLengths, ← lengths, lengths_eq_none h]

/-- Placing the fields with every offset checked fails exactly if a length is missing or the last
offset is too large. -/
theorem layOut_eq {checked : List (Field × Option Nat)} (hnodup : (checked.map Prod.fst).Nodup)
    {offset : Nat} (hoffset : offset ≤ maxSize) :
    layOut offset checked = (lengths checked).bind fun fields =>
      if offset + size ⟨fields⟩ ≤ maxSize
        then some (spansFrom offset fields, offset + size ⟨fields⟩) else none := by
  induction checked generalizing offset with
  | nil =>
      have hnil : offset + size ⟨[]⟩ ≤ maxSize := hoffset
      rw [lengths, List.mapM_nil, layOut]
      exact (if_pos hnil).symm
  | cons entry checked ih =>
      obtain ⟨field, length⟩ := entry
      rw [List.map_cons, List.nodup_cons] at hnodup
      rw [layOut, lengths_cons]
      cases length with
      | none => rfl
      | some n =>
          have hstep (fields : List (Field × Nat)) :
              offset + size ⟨(field, n) :: fields⟩ = offset + n + size ⟨fields⟩ := by
            rw [size_cons, Nat.add_assoc]
          by_cases hnext : offset + n ≤ maxSize
          · simp only [checkedAdd, if_pos hnext, Option.bind_eq_bind, Option.bind_some,
              ih hnodup.2 hnext]
            cases hfields : lengths checked with
            | none => rfl
            | some fields =>
                have hcons : (((field, n) :: fields).map Prod.fst).Nodup := by
                  rw [List.map_cons, map_fst_of_lengths hfields]
                  exact List.nodup_cons.mpr hnodup
                simp only [Option.map_some, Option.bind_some, hstep, spansFrom_cons hcons]
                split <;> rfl
          · simp only [checkedAdd, if_neg hnext, Option.bind_eq_bind, Option.bind_some,
              Option.bind_none]
            cases lengths checked with
            | none => rfl
            | some fields =>
                simp only [Option.map_some, Option.bind_some, hstep]
                rw [if_neg (by omega)]

/-- **A table is made exactly if no offset is too large on the way**, and its fields then lie where
they have been placed one after the other. -/
theorem ofLengths_eq_layOut {checked : List (Field × Option Nat)}
    (hnodup : (checked.map Prod.fst).Nodup) (dataSize : Nat) :
    (ofLengths dataSize checked).map (fun layout => (spansFrom 0 layout.fields, layout.size))
      = match layOut 0 checked with
        | some laid => .ok laid
        | none => .error (.inputSize maxSize dataSize) := by
  rw [layOut_eq hnodup (Nat.zero_le _), ofLengths, ← lengths]
  cases lengths checked with
  | none => rfl
  | some fields =>
      simp only [Option.bind_some, Nat.zero_add]
      by_cases hsize : size ⟨fields⟩ ≤ maxSize
      · rw [if_pos hsize, if_pos hsize]
        rfl
      · rw [if_neg hsize, if_neg hsize]
        rfl

/-! ### Products on the way -/

/-- A last factor of zero leaves the products before it to be checked. -/
theorem product_append_zero (factors : List Nat) :
    product (factors ++ [0]) = (product factors).map fun _ => 0 := by
  rw [product, List.foldlM_append]
  cases hproduct : product factors with
  | none =>
      rw [product] at hproduct
      rw [hproduct]
      rfl
  | some n =>
      rw [product] at hproduct
      rw [hproduct]
      rfl

theorem product_singleton (a : Nat) : product [a] = if a ≤ maxSize then some a else none := by
  rw [product, List.foldlM_cons, checkedMul, Nat.one_mul]
  split <;> rfl

theorem product_levels_zero (n : Nat) :
    product [signCorrectionSize, n, 0]
      = if signCorrectionSize * n ≤ maxSize then some 0 else none := by
  have h := product_append_zero [signCorrectionSize, n]
  rw [product_pair (.inl (by decide))] at h
  refine h.trans ?_
  split <;> rfl

theorem product_payload_zero (d : Nat) :
    product [d, 0] = if d ≤ maxSize then some 0 else none := by
  have h := product_append_zero [d]
  rw [product_singleton] at h
  refine h.trans ?_
  split <;> rfl

/-- Without points, the products before the number of points are still checked. -/
theorem multiPoint_zero (n d : Nat) (verifiable : Bool) :
    multiPoint n 0 d verifiable = if signCorrectionSize * n ≤ maxSize ∧ d ≤ maxSize
      then .ok (multiPointTable n 0 d verifiable) else .error (.inputSize maxSize d) := by
  rw [multiPoint, product_levels_zero, product_payload_zero]
  by_cases h : signCorrectionSize * n ≤ maxSize ∧ d ≤ maxSize
  · rw [if_pos h, if_pos h.1, if_pos h.2]
    cases verifiable <;> rfl
  · rw [if_neg h]
    rcases not_and_or.mp h with hlevels | hpayload
    · rw [if_neg hlevels]
      exact ofLengths_eq_error (show (Field.levelCorrections, none) ∈ _ by simp) d
    · rw [if_neg hpayload]
      exact ofLengths_eq_error (show (Field.payload, none) ∈ _ by simp) d

theorem compressed_zero (n d : Nat) :
    compressed n 0 d = if signCorrectionSize * n ≤ maxSize ∧ d ≤ maxSize
      then .ok (compressedTable n 0 d) else .error (.inputSize maxSize d) := by
  rw [compressed, product_levels_zero, product_payload_zero]
  by_cases h : signCorrectionSize * n ≤ maxSize ∧ d ≤ maxSize
  · rw [if_pos h, if_pos h.1, if_pos h.2]
    rfl
  · rw [if_neg h]
    rcases not_and_or.mp h with hlevels | hpayload
    · rw [if_neg hlevels]
      exact ofLengths_eq_error (show (Field.levelCorrections, none) ∈ _ by simp) d
    · rw [if_neg hpayload]
      exact ofLengths_eq_error (show (Field.payload, none) ∈ _ by simp) d

/-! ### The tables that are made -/

theorem ok_of_ite {p : Prop} [Decidable p] {layout table : Layout} {e : Error}
    (h : (if p then Except.ok table else .error e) = .ok layout) : layout = table := by
  by_cases hp : p
  · rw [if_pos hp] at h
    exact (Except.ok.inj h).symm
  · rw [if_neg hp] at h
    cases h

theorem point_eq_ok {n d : Nat} {verifiable : Bool} {layout : Layout}
    (h : point n d verifiable = .ok layout) : layout = pointTable n d verifiable :=
  ok_of_ite ((point_eq n d verifiable).symm.trans h)

theorem multiPoint_eq_ok {n t d : Nat} {verifiable : Bool} {layout : Layout}
    (h : multiPoint n t d verifiable = .ok layout) : layout = multiPointTable n t d verifiable := by
  rcases Nat.eq_zero_or_pos t with rfl | ht
  · exact ok_of_ite ((multiPoint_zero n d verifiable).symm.trans h)
  · exact ok_of_ite ((multiPoint_eq ht n d verifiable).symm.trans h)

theorem compressed_eq_ok {n t d : Nat} {layout : Layout} (h : compressed n t d = .ok layout) :
    layout = compressedTable n t d := by
  rcases Nat.eq_zero_or_pos t with rfl | ht
  · exact ok_of_ite ((compressed_zero n d).symm.trans h)
  · exact ok_of_ite ((compressed_eq ht n d).symm.trans h)

/-! ### Exact sizes -/

/-- A size as it is, or the refusal of a key that could not be addressed. -/
def exactSize (size dataSize : Nat) : Except Error Nat :=
  if size ≤ maxSize then .ok size else .error (.inputSize maxSize dataSize)

theorem map_size_ite {p : Prop} [Decidable p] (layout : Layout) (e : Error) :
    (if p then Except.ok layout else .error e).map size
      = if p then .ok layout.size else .error e := by
  split <;> rfl

/-- **The size of a key is exact**, for whatever sizes a caller declares: it is the number of bytes
that the declared sizes add up to, and if that number cannot be addressed there is no key.  Without
points nothing but the size of a level has to be addressed. -/
theorem size_eq_exactSize :
    (∀ (n d : Nat) (verifiable : Bool), (point n d verifiable).map size
      = exactSize (18 * n + 18 + d + if verifiable then 64 else 0) d) ∧
    (∀ (n t d : Nat) (verifiable : Bool), 1 ≤ t → (multiPoint n t d verifiable).map size
      = exactSize (24 * n * t + 19 + d * t + if verifiable then 64 * t else 0) d) ∧
    (∀ n t d : Nat, 1 ≤ t →
      (compressed n t d).map size = exactSize (34 + 24 * n * t + d * t) d) ∧
    (∀ (n d : Nat) (verifiable : Bool), d ≤ maxSize → (multiPoint n 0 d verifiable).map size
      = if 24 * n ≤ maxSize then .ok 19 else .error (.inputSize maxSize d)) ∧
    ∀ n d : Nat, d ≤ maxSize → (compressed n 0 d).map size
      = if 24 * n ≤ maxSize then .ok 34 else .error (.inputSize maxSize d) := by
  refine ⟨?_, ?_, ?_, ?_, ?_⟩
  · intro n d verifiable
    rw [point_eq, map_size_ite, size_pointTable]
    rfl
  · intro n t d verifiable ht
    rw [multiPoint_eq ht, map_size_ite, size_multiPointTable]
    rfl
  · intro n t d ht
    have hsize : (compressedTable n t d).size = 34 + 24 * n * t + d * t := by
      rw [size_compressedTable, signCorrectionSize]
      omega
    rw [compressed_eq ht, map_size_ite, hsize]
    rfl
  · intro n d verifiable hd
    have hempty : (multiPointTable n 0 d verifiable).size = 19 := by cases verifiable <;> rfl
    rw [multiPoint_zero, map_size_ite, hempty]
    exact if_congr (and_iff_left hd) rfl rfl
  · intro n d hd
    rw [compressed_zero, map_size_ite]
    exact if_congr (and_iff_left hd) rfl rfl

/-- The largest payload that a key can hold, one byte more, and keys without points. -/
theorem size_eq_exactSize_at_limit :
    (point 64 (maxSize - 1170) false).map size = .ok maxSize ∧
    (point 64 (maxSize - 1169) false).map size = .error (.inputSize maxSize (maxSize - 1169)) ∧
    (multiPoint 16 32 10 true).map size = .ok 14675 ∧
    (compressed 16 32 10).map size = .ok 12642 ∧
    (multiPoint maxSize 0 maxSize true).map size = .error (.inputSize maxSize maxSize) ∧
    (compressed 0 0 maxSize).map size = .ok 34 := by
  obtain ⟨hpoint, hpoints, hcompressed, hnone, hnoneCompressed⟩ := size_eq_exactSize
  refine ⟨(hpoint 64 _ false).trans ?_, (hpoint 64 _ false).trans ?_,
    (hpoints 16 32 10 true (by decide)).trans ?_, (hcompressed 16 32 10 (by decide)).trans ?_,
    (hnone maxSize maxSize true (Nat.le_refl _)).trans ?_,
    (hnoneCompressed 0 maxSize (Nat.le_refl _)).trans ?_⟩ <;> rfl

end Layout

end PointSharing
