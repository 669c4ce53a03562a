/-
What is written into the fields of a key is read back from them, and a key is what its fields
put together are.

A key is the concatenation of its fields, so a field begins where the lengths before it add
up to, and `spanFrom` adds up those same lengths.  Both inductions are on the table with the
bytes before it held general: the offset is then the length of those bytes.  The first
direction holds for every content of the right lengths, the second for every key of the right
length whose table names no field twice.  Together they say that a key of a table with one more
field at the end begins with a key of the shorter table, in which the same fields are read.

The tables of the kinds of keys are also given here without the checks on sizes.  Each
constructor either returns its table or refuses, and it refuses exactly if the key as a
whole could not be addressed: a product that is too large on the way can only be made
smaller again by a factor of zero, which the number of points never is.
-/
import Mathlib.Data.List.Forall2
import PointSharing.Layout

namespace PointSharing

namespace Layout

/-! ### Reading what was built -/

/-- The content of every field of the table has the length that the table asks for. -/
def Fits (layout : Layout) (content : Field → Bytes) : Prop :=
  ∀ entry ∈ layout.fields, (content entry.1).length = entry.2

theorem length_build {layout : Layout} {content : Field → Bytes} (h : layout.Fits content) :
    (layout.build content).length = layout.size := by
  obtain ⟨fields⟩ := layout
  unfold build size
  induction fields with
  | nil => rfl
  | cons entry fields ih =>
      rw [List.flatMap_cons, List.length_append, List.foldr_cons, h entry (by simp),
        ih fun e he => h e (by simp [he])]

theorem read_spanFrom {fields : List (Field × Nat)} {content : Field → Bytes} {field : Field}
    (h : ∀ entry ∈ fields, (content entry.1).length = entry.2)
    (hmem : field ∈ fields.map Prod.fst) (before : Bytes) :
    let span := spanFrom field before.length fields
    ((before ++ fields.flatMap fun entry => content entry.1).drop span.start).take
      (span.stop - span.start) = content field := by
  induction fields generalizing before with
  | nil => simp at hmem
  | cons entry fields ih =>
      have hlen : (content entry.1).length = entry.2 := h entry (by simp)
      rw [List.flatMap_cons]
      by_cases hfield : entry.1 = field
      · simp only [spanFrom, if_pos hfield]
        rw [List.drop_left, Nat.add_sub_cancel_left, ← hfield, List.take_left' hlen]
      · have hrest : field ∈ fields.map Prod.fst := by
          rcases List.mem_cons.mp hmem with heq | hmem
          · exact absurd heq.symm hfield
          · exact hmem
        have := ih (fun e he => h e (by simp [he])) hrest (before ++ content entry.1)
        rw [List.length_append, hlen, List.append_assoc] at this
        simp only [spanFrom, if_neg hfield]
        exact this

theorem read_build {layout : Layout} {content : Field → Bytes} {field : Field}
    (h : layout.Fits content) (hmem : field ∈ layout.fields.map Prod.fst) :
    layout.read (layout.build content) field = content field :=
  read_spanFrom h hmem []

theorem spanFrom_missing {field : Field} {fields : List (Field × Nat)}
    (h : field ∉ fields.map Prod.fst) (offset : Nat) :
    (spanFrom field offset fields).stop = (spanFrom field offset fields).start := by
  induction fields generalizing offset with
  | nil => rfl
  | cons entry fields ih =>
      rw [List.map_cons, List.mem_cons, not_or] at h
      rw [spanFrom, if_neg fun heq => h.1 heq.symm]
      exact ih h.2 _

theorem read_missing {layout : Layout} {field : Field}
    (h : field ∉ layout.fields.map Prod.fst) (key : Bytes) : layout.read key field = [] := by
  rw [read, span, spanFrom_missing h, Nat.sub_self, List.take_zero]

/-! ### Putting together what was read -/

theorem size_cons (entry : Field × Nat) (fields : List (Field × Nat)) :
    size ⟨entry :: fields⟩ = entry.2 + size ⟨fields⟩ := rfl

/-- A field of the table lies inside the key and is as long as the table says. -/
theorem exists_spanFrom {fields : List (Field × Nat)} (hnodup : (fields.map Prod.fst).Nodup)
    {entry : Field × Nat} (hmem : entry ∈ fields) (offset : Nat) :
    ∃ start, spanFrom entry.1 offset fields = ⟨start, start + entry.2⟩ ∧
      start + entry.2 ≤ offset + size ⟨fields⟩ := by
  induction fields generalizing offset with
  | nil => simp at hmem
  | cons first fields ih =>
      rw [List.map_cons, List.nodup_cons] at hnodup
      obtain ⟨hfirst, hnodup⟩ := hnodup
      rw [size_cons]
      rcases List.mem_cons.mp hmem with rfl | hmem
      · refine ⟨offset, if_pos rfl, ?_⟩
        omega
      · have hne : first.1 ≠ entry.1 := by
          intro heq
          exact hfirst (heq ▸ List.mem_map_of_mem hmem)
        obtain ⟨start, hspan, hle⟩ := ih hnodup hmem (offset + first.2)
        refine ⟨start, ?_, by omega⟩
        rw [spanFrom, if_neg hne, hspan]

/-- Every field of a key of the right length has the length that the table asks for. -/
theorem fits_read {layout : Layout} {key : Bytes} (hnodup : (layout.fields.map Prod.fst).Nodup)
    (h : key.length = layout.size) : layout.Fits (layout.read key) := by
  intro entry hentry
  obtain ⟨start, hspan, hle⟩ := exists_spanFrom hnodup hentry 0
  have hend : start + entry.2 ≤ key.length := by
    rw [h]
    exact Nat.zero_add layout.size ▸ hle
  simp only [read, span, hspan, List.length_take, List.length_drop]
  omega

theorem flatMap_spanFrom {fields : List (Field × Nat)} (hnodup : (fields.map Prod.fst).Nodup)
    (before rest : Bytes) (h : rest.length = size ⟨fields⟩) :
    (fields.flatMap fun entry =>
      let span := spanFrom entry.1 before.length fields
      ((before ++ rest).drop span.start).take (span.stop - span.start)) = rest := by
  induction fields generalizing before rest with
  | nil => exact (List.length_eq_zero_iff.mp h).symm
  | cons first fields ih =>
      rw [List.map_cons, List.nodup_cons] at hnodup
      obtain ⟨hfirst, hnodup⟩ := hnodup
      rw [size_cons] at h
      have hlength : (before ++ rest.take first.2).length = before.length + first.2 := by
        simp only [List.length_append, List.length_take]
        omega
      have hjoin : before ++ rest.take first.2 ++ rest.drop first.2 = before ++ rest := by
        rw [List.append_assoc, List.take_append_drop]
      have hrest := ih hnodup (before ++ rest.take first.2) (rest.drop first.2)
        (by rw [List.length_drop]; omega)
      rw [hlength, hjoin] at hrest
      rw [List.flatMap_cons]
      simp only [spanFrom, if_pos]
      rw [List.drop_left, Nat.add_sub_cancel_left]
      refine Eq.trans ?_ (List.take_append_drop first.2 rest)
      congr 1
      refine Eq.trans (List.flatMap_congr ?_) hrest
      intro entry hentry
      have hne : first.1 ≠ entry.1 := by
        intro heq
        exact hfirst (heq ▸ List.mem_map_of_mem hentry)
      rw [if_neg hne]

/-- A key of the right length is put together again from its fields. -/
theorem build_read {layout : Layout} {key : Bytes} (hnodup : (layout.fields.map Prod.fst).Nodup)
    (h : key.length = layout.size) : layout.build (layout.read key) = key :=
  flatMap_spanFrom hnodup [] key h

theorem build_congr {layout : Layout} {content content' : Field → Bytes}
    (h : ∀ field ∈ layout.fields.map Prod.fst, content field = content' field) :
    layout.build content = layout.build content' := by
  refine List.flatMap_congr ?_
  intro entry hentry
  exact h entry.1 (List.mem_map_of_mem hentry)

/-! ### One more field at the end -/

section

variable {layout extended : Layout} {entry : Field × Nat}
  (hfields : extended.fields = layout.fields ++ [entry])

include hfields

theorem size_of_fields_append : extended.size = layout.size + entry.2 := by
  rw [size, hfields, List.foldr_append, size]
  simp only [List.foldr_cons, List.foldr_nil, Nat.add_zero]
  induction layout.fields with
  | nil => simp
  | cons first fields ih => simp only [List.foldr_cons, ih, Nat.add_assoc]

theorem build_of_fields_append (content : Field → Bytes) :
    extended.build content = layout.build content ++ content entry.1 := by
  rw [build, hfields, List.flatMap_append, List.flatMap_cons, List.flatMap_nil, List.append_nil]
  rfl

variable {key : Bytes} (hnodup : (extended.fields.map Prod.fst).Nodup)
  (hlength : key.length = extended.size)

include hnodup hlength

theorem fits_read_of_fields_append : layout.Fits (extended.read key) := by
  intro field hfield
  exact fits_read hnodup hlength field (hfields ▸ List.mem_append_left _ hfield)

/-- The beginning of a key is put together from the same fields as the key, less the last. -/
theorem take_size_eq_build : key.take layout.size = layout.build (extended.read key) := by
  have hfits := fits_read_of_fields_append hfields hnodup hlength
  calc key.take layout.size
      = (extended.build (extended.read key)).take layout.size := by
        rw [build_read hnodup hlength]
    _ = (layout.build (extended.read key) ++ extended.read key entry.1).take layout.size := by
        rw [build_of_fields_append hfields]
    _ = layout.build (extended.read key) := List.take_left' (length_build hfits)

theorem length_take_size : (key.take layout.size).length = layout.size := by
  rw [take_size_eq_build hfields hnodup hlength]
  exact length_build (fits_read_of_fields_append hfields hnodup hlength)

theorem read_take {field : Field} (hmem : field ∈ layout.fields.map Prod.fst) :
    layout.read (key.take layout.size) field = extended.read key field := by
  rw [take_size_eq_build hfields hnodup hlength]
  exact read_build (fits_read_of_fields_append hfields hnodup hlength) hmem

theorem header_take {field : Field} (hmem : field ∈ layout.fields.map Prod.fst) :
    layout.header (key.take layout.size) field = extended.header key field := by
  rw [header, header, read_take hfields hnodup hlength hmem]

end

/-! ### Checks and headers -/

theorem check_eq_ok_iff {layout : Layout} {key : Bytes} :
    layout.check key = .ok () ↔ key.length = layout.size := by
  unfold check
  by_cases h : key.length = layout.size <;> simp [h]

theorem checkHeader_eq_ok_iff {layout : Layout} {key : Bytes} {field : Field} {n : Nat} :
    layout.checkHeader key field n = .ok () ↔ layout.header key field = n := by
  unfold checkHeader
  by_cases h : layout.header key field = n <;> simp [h]

/-- A field of one byte is found where it lies. -/
theorem header_eq_getD {layout : Layout} {field : Field} {start : Nat}
    (h : layout.span field = ⟨start, start + 1⟩) (key : Bytes) :
    layout.header key field = (key.getD start 0).toNat := by
  rw [header, read, h, Nat.add_sub_cancel_left, List.headD_eq_head?_getD, List.head?_take,
    if_neg (by decide), List.head?_drop, List.getD_eq_getElem?_getD]

/-- A field of one byte is the byte of the number that is read from it. -/
theorem read_eq_of_header {layout : Layout} {key : Bytes} {field : Field}
    (hnodup : (layout.fields.map Prod.fst).Nodup) (h : key.length = layout.size)
    (hmem : (field, 1) ∈ layout.fields) :
    layout.read key field = [UInt8.ofNat (layout.header key field)] := by
  obtain ⟨byte, hread⟩ := List.length_eq_one_iff.mp (fits_read hnodup h (field, 1) hmem)
  rw [header, hread, List.headD_cons, UInt8.ofNat_toNat]

/-- What is written into a header field is the number that is read from it. -/
theorem header_build {layout : Layout} {content : Field → Bytes} {n : Nat} (field : Field)
    (h : layout.Fits content) (hmem : field ∈ layout.fields.map Prod.fst)
    (hcontent : content field = [UInt8.ofNat n]) (hn : n < 256) :
    layout.header (layout.build content) field = n := by
  rw [header, read_build h hmem, hcontent, List.headD_cons, UInt8.toNat_ofNat',
    Nat.mod_eq_of_lt hn]

/-! ### Products of sizes -/

theorem product_pair {a b : Nat} (h : a ≤ maxSize ∨ 0 < b) :
    product [a, b] = if a * b ≤ maxSize then some (a * b) else none := by
  simp only [product, List.foldlM_cons, List.foldlM_nil, checkedMul, Nat.one_mul,
    Option.bind_eq_bind]
  by_cases ha : a ≤ maxSize
  · rw [if_pos ha, Option.bind_some]
    split <;> rfl
  · have hle : a ≤ a * b := Nat.le_mul_of_pos_right a (h.resolve_left ha)
    rw [if_neg ha, if_neg (by omega)]
    rfl

theorem product_triple {a b c : Nat} (ha : a ≤ maxSize) (hc : 0 < c) :
    product [a, b, c] = if a * b * c ≤ maxSize then some (a * b * c) else none := by
  simp only [product, List.foldlM_cons, List.foldlM_nil, checkedMul, Nat.one_mul, if_pos ha,
    Option.bind_eq_bind, Option.bind_some]
  by_cases hab : a * b ≤ maxSize
  · rw [if_pos hab, Option.bind_some]
    split <;> rfl
  · have hle : a * b ≤ a * b * c := Nat.le_mul_of_pos_right _ hc
    rw [if_neg hab, if_neg (by omega)]
    rfl

/-! ### The tables -/

/-- A length as it comes out of checked arithmetic: missing only if it could not be addressed. -/
def Checked (entry : Field × Nat) (checked : Field × Option Nat) : Prop :=
  checked.1 = entry.1 ∧ (checked.2 = some entry.2 ∨ checked.2 = none ∧ maxSize < entry.2)

theorem Checked.some (field : Field) (n : Nat) : Checked (field, n) (field, some n) :=
  ⟨rfl, .inl rfl⟩

theorem Checked.ite (field : Field) (n : Nat) :
    Checked (field, n) (field, if n ≤ maxSize then Option.some n else none) := by
  refine ⟨rfl, ?_⟩
  by_cases h : n ≤ maxSize
  · exact .inl (if_pos h)
  · exact .inr ⟨if_neg h, by omega⟩

/-- A missing length is one that the sum could not have been a size with. -/
theorem mapM_checked {fields : List (Field × Nat)} {lengths : List (Field × Option Nat)}
    (h : List.Forall₂ Checked fields lengths) :
    lengths.mapM (fun entry : Field × Option Nat => entry.2.map (entry.1, ·)) = .some fields ∨
      lengths.mapM (fun entry : Field × Option Nat => entry.2.map (entry.1, ·)) = none ∧
        maxSize < size ⟨fields⟩ := by
  induction h with
  | nil => exact .inl rfl
  | @cons entry checked fields lengths hentry _ ih =>
      obtain ⟨field, length⟩ := checked
      obtain ⟨rfl, hlength⟩ := hentry
      have hsize := size_cons entry fields
      rw [List.mapM_cons]
      rcases hlength with rfl | ⟨rfl, hlarge⟩
      · rcases ih with ih | ⟨ih, hlarge⟩
        · exact .inl (by rw [ih]; rfl)
        · exact .inr ⟨by rw [ih]; rfl, by omega⟩
      · exact .inr ⟨rfl, by omega⟩

theorem ofLengths_eq {fields : List (Field × Nat)} {lengths : List (Field × Option Nat)}
    (h : List.Forall₂ Checked fields lengths) (dataSize : Nat) :
    ofLengths dataSize lengths = if size ⟨fields⟩ ≤ maxSize then .ok ⟨fields⟩
      else .error (.inputSize maxSize dataSize) := by
  unfold ofLengths
  rcases mapM_checked h with hsome | ⟨hnone, hlarge⟩
  · rw [hsome]
  · rw [hnone, if_neg (by omega)]

/-- The fields of single point keys. -/
def pointTable (rangeSize dataSize : Nat) (verifiable : Bool) : Layout where
  fields :=
    [(.rangeSize, 1),
      (.rootSeed, blockSize),
      (.rootBit, 1),
      (.levelCorrections, bitCorrectionSize * rangeSize),
      (.payload, dataSize)]
    ++ if verifiable then [(.proofCorrection, tagSize)] else []

theorem size_pointTable (n d : Nat) (verifiable : Bool) :
    (pointTable n d verifiable).size
      = bitCorrectionSize * n + 18 + d + if verifiable then tagSize else 0 := by
  cases verifiable <;> simp [pointTable, size, blockSize] <;> omega

theorem nodup_pointTable (n d : Nat) (verifiable : Bool) :
    ((pointTable n d verifiable).fields.map Prod.fst).Nodup := by
  cases verifiable <;> simp [pointTable]

/-- A key with proofs has one more field, at its end. -/
theorem fields_pointTable (n d : Nat) :
    (pointTable n d true).fields
      = (pointTable n d false).fields ++ [(.proofCorrection, tagSize)] := rfl

/-- Keys with at most as many bits as can be asked for are too large only if their payload is. -/
theorem size_pointTable_le {n d : Nat} (hn : n ≤ maxRangeBits) (hd : d < 1 <<< 63)
    (verifiable : Bool) : (pointTable n d verifiable).size ≤ maxSize := by
  have hlevels : bitCorrectionSize * n ≤ 18 * 64 := Nat.mul_le_mul_left 18 hn
  have hproof : (if verifiable then tagSize else 0) ≤ 64 := by cases verifiable <;> decide
  rw [size_pointTable, maxSize]
  omega

theorem point_eq (n d : Nat) (verifiable : Bool) :
    point n d verifiable = if (pointTable n d verifiable).size ≤ maxSize
      then .ok (pointTable n d verifiable) else .error (.inputSize maxSize d) := by
  rw [point, product_pair (.inl (by decide))]
  refine ofLengths_eq ?_ d
  refine .cons (.some _ _) (.cons (.some _ _) (.cons (.some _ _) (.cons (.ite _ _)
    (.cons (.some _ _) ?_))))
  cases verifiable with
  | false => exact .nil
  | true => exact .cons (.some _ _) .nil

/-- The fields of multi-point keys. -/
def multiPointTable (rangeSize points dataSize : Nat) (verifiable : Bool) : Layout where
  fields :=
    [(.rangeSize, 1),
      (.rangePoints, 1),
      (.rootSeed, blockSize),
      (.party, 1),
      (.levelCorrections, signCorrectionSize * rangeSize * points),
      (.payload, dataSize * points)]
    ++ if verifiable then [(.proofCorrection, tagSize * points)] else []

theorem size_multiPointTable (n t d : Nat) (verifiable : Bool) :
    (multiPointTable n t d verifiable).size
      = signCorrectionSize * n * t + 19 + d * t + if verifiable then tagSize * t else 0 := by
  cases verifiable <;> simp [multiPointTable, size, blockSize] <;> omega

theorem nodup_multiPointTable (n t d : Nat) (verifiable : Bool) :
    ((multiPointTable n t d verifiable).fields.map Prod.fst).Nodup := by
  cases verifiable <;> simp [multiPointTable]

/-- A key with proofs has one more field, at its end. -/
theorem fields_multiPointTable (n t d : Nat) :
    (multiPointTable n t d true).fields
      = (multiPointTable n t d false).fields ++ [(.proofCorrection, tagSize * t)] := rfl

/-- Keys with at most as many bits and points as can be asked for are too large only if their
payload is. -/
theorem size_multiPointTable_le {n t d : Nat} (hn : n ≤ maxRangeBits) (ht : t ≤ maxPoints)
    (hd : t * d < 1 <<< 63) (verifiable : Bool) :
    (multiPointTable n t d verifiable).size ≤ maxSize := by
  have hlevels : signCorrectionSize * n * t ≤ 24 * 64 * 32 :=
    Nat.mul_le_mul (Nat.mul_le_mul_left 24 hn) ht
  have hproof : (if verifiable then tagSize * t else 0) ≤ 64 * 32 := by
    have htags : tagSize * t ≤ 64 * 32 := Nat.mul_le_mul_left 64 ht
    cases verifiable
    · exact Nat.zero_le _
    · exact htags
  rw [size_multiPointTable, Nat.mul_comm d, maxSize]
  omega

theorem multiPoint_eq {t : Nat} (ht : 0 < t) (n d : Nat) (verifiable : Bool) :
    multiPoint n t d verifiable = if (multiPointTable n t d verifiable).size ≤ maxSize
      then .ok (multiPointTable n t d verifiable) else .error (.inputSize maxSize d) := by
  rw [multiPoint, product_triple (by decide) ht, product_pair (.inr ht)]
  refine ofLengths_eq ?_ d
  refine .cons (.some _ _) (.cons (.some _ _) (.cons (.some _ _) (.cons (.some _ _)
    (.cons (.ite _ _) (.cons (.ite _ _) ?_)))))
  cases verifiable with
  | false => exact .nil
  | true =>
      rw [if_pos rfl, if_pos rfl, product_pair (.inr ht)]
      exact .cons (.ite _ _) .nil

/-- The fields of compressed keys. -/
def compressedTable (rangeSize points dataSize : Nat) : Layout where
  fields :=
    [(.rangeSize, 1),
      (.rangePoints, 1),
      (.rootSeed, blockSize),
      (.secondRootSeed, blockSize),
      (.levelCorrections, signCorrectionSize * rangeSize * points),
      (.payload, dataSize * points)]

theorem size_compressedTable (n t d : Nat) :
    (compressedTable n t d).size = signCorrectionSize * n * t + 34 + d * t := by
  simp [compressedTable, size, blockSize]
  omega

/-- A compressed key is longer than the keys that it stands for by the second root seed, less the
byte of the party. -/
theorem size_compressedTable_eq (n t d : Nat) :
    (compressedTable n t d).size = (multiPointTable n t d false).size + 15 := by
  rw [size_compressedTable, size_multiPointTable, if_neg (by decide)]
  omega

/-- Keys with at most as many bits and points as can be asked for are too large only if their
payload is. -/
theorem size_compressedTable_le {n t d : Nat} (hn : n ≤ maxRangeBits) (ht : t ≤ maxPoints)
    (hd : t * d < 1 <<< 63) : (compressedTable n t d).size ≤ maxSize := by
  have hlevels : signCorrectionSize * n * t ≤ 24 * 64 * 32 :=
    Nat.mul_le_mul (Nat.mul_le_mul_left 24 hn) ht
  rw [size_compressedTable, Nat.mul_comm d, maxSize]
  omega

theorem nodup_compressedTable (n t d : Nat) :
    ((compressedTable n t d).fields.map Prod.fst).Nodup := by
  simp [compressedTable]

theorem compressed_eq {t : Nat} (ht : 0 < t) (n d : Nat) :
    compressed n t d = if (compressedTable n t d).size ≤ maxSize
      then .ok (compressedTable n t d) else .error (.inputSize maxSize d) := by
  rw [compressed, product_triple (by decide) ht, product_pair (.inr ht)]
  refine ofLengths_eq ?_ d
  exact .cons (.some _ _) (.cons (.some _ _) (.cons (.some _ _) (.cons (.some _ _)
    (.cons (.ite _ _) (.cons (.ite _ _) .nil)))))

end Layout

end PointSharing
