/-
Trees, evaluated by one party and by two.

`Evaluator.Sized` is what the checks on a single key establish of the tree that it stands for,
whatever its corrections are: a level for each bit of an index, and outputs of the declared
size.  That is all it takes for the table of all outputs to consist of what is found at one
index after the other.

`Evaluator.AddUp` is what a pair of keys has to establish of its two trees: at the leaf of
every index of the domain the outputs add up to the value there.  What follows for the ways
of evaluating is the same for all kinds of keys and is derived here once.
-/
import Mathlib.Data.List.Basic
import PointSharing.PointFunction
import PointSharing.Proofs.Bytes
import PointSharing.Proofs.Limits
import PointSharing.Proofs.Tree
import PointSharing.Reconstruction

namespace PointSharing

theorem reconstruct_eq_ok_iff {a b sum : Bytes} :
    reconstruct a b = .ok sum ↔ b.length = a.length ∧ Bytes.xor a b = sum := by
  unfold reconstruct
  rw [check_bind_eq_ok_iff, checkPayload_eq_ok_iff]
  exact and_congr_right fun _ => ⟨Except.ok.inj, congrArg Except.ok⟩

/-! ### All indices -/

/-- The indices of `rangeSize` bits, in ascending order. -/
def allIndices (rangeSize : Nat) : List UInt64 :=
  (List.range (domainSize rangeSize)).map UInt64.ofNat

@[simp] theorem length_allIndices (n : Nat) : (allIndices n).length = domainSize n := by
  simp [allIndices]

theorem table_eq_flatMap (n : Nat) (value : UInt64 → Bytes) :
    table n value = (allIndices n).flatMap value := by
  rw [table, allIndices, List.flatMap_map]

theorem toNat_ofNat_of_lt_domainSize {n i : Nat} (hn : n ≤ maxRangeBits) (hi : i < domainSize n) :
    (UInt64.ofNat i).toNat = i := by
  have hlt : i < domainSize maxRangeBits :=
    Nat.lt_of_lt_of_le hi (domainSize_le_domainSize hn)
  exact UInt64.toNat_ofNat_of_lt' (by simpa [domainSize, maxRangeBits] using hlt)

theorem lt_domainSize_of_mem_allIndices {n : Nat} {index : UInt64} (hn : n ≤ maxRangeBits)
    (h : index ∈ allIndices n) : index.toNat < domainSize n := by
  obtain ⟨i, hi, rfl⟩ := List.mem_map.mp h
  have hi : i < domainSize n := List.mem_range.mp hi
  rwa [toNat_ofNat_of_lt_domainSize hn hi]

section

variable {n d : Nat} {value : UInt64 → Bytes}
  (hvalue : ∀ index ∈ allIndices n, (value index).length = d)

include hvalue

theorem length_table : (table n value).length = domainSize n * d := by
  rw [table_eq_flatMap, Bytes.length_flatMap_of_forall _ hvalue, length_allIndices, Nat.mul_comm]

/-- The word of a table at the position of an index is the value there. -/
theorem word_table {index : UInt64} (hindex : index.toNat < domainSize n) :
    ((table n value).drop (index.toNat * d)).take d = value index := by
  have hat : (allIndices n)[index.toNat]? = some index := by
    rw [allIndices, List.getElem?_map, List.getElem?_range hindex, Option.map_some,
      UInt64.ofNat_toNat]
  rw [table_eq_flatMap]
  exact Bytes.word_flatMap _ hvalue hat

end

namespace Evaluator

variable {σ : Type}

theorem evaluate_eq_ok (e : Evaluator σ) {index : UInt64}
    (h : index.toNat < domainSize e.rangeSize) :
    e.evaluate index = .ok (e.output (e.leafAt index)) := by
  unfold evaluate
  rw [checkIndex_eq_ok_iff.mpr h]
  rfl

/-- Widening the tree gives the leaves that following the paths of all indices gives. -/
theorem leaves_eq_map_leafAt {e : Evaluator σ} (hlevels : e.levels.length = e.rangeSize)
    (hn : e.rangeSize ≤ maxRangeBits) : e.leaves = (allIndices e.rangeSize).map e.leafAt := by
  rw [leaves, Tree.leaves_eq_map_descend, hlevels, allIndices, List.map_map]
  apply List.map_congr_left
  intro i hi
  have hi : i < domainSize e.rangeSize := List.mem_range.mp hi
  rw [Function.comp, leafAt, path_eq_nodePath, toNat_ofNat_of_lt_domainSize hn hi]

/-! ### One party -/

/-- There is a level for each bit of an index, and every output has the declared size. -/
structure Sized (e : Evaluator σ) : Prop where
  levels : e.levels.length = e.rangeSize
  output : ∀ leaf, (e.output leaf).length = e.dataSize

theorem Sized.table_eq {e : Evaluator σ} (h : e.Sized) (hn : e.rangeSize ≤ maxRangeBits) :
    e.table = PointSharing.table e.rangeSize fun index => e.output (e.leafAt index) := by
  rw [table, leaves_eq_map_leafAt h.levels hn, List.flatMap_map, table_eq_flatMap]

theorem Sized.length_table {e : Evaluator σ} (h : e.Sized) (hn : e.rangeSize ≤ maxRangeBits) :
    e.table.length = domainSize e.rangeSize * e.dataSize := by
  rw [h.table_eq hn]
  exact PointSharing.length_table fun index _ => h.output _

theorem evaluateAll_eq_ok (e : Evaluator σ)
    (hsize : domainSize e.rangeSize * e.dataSize ≤ maxBuffer) : e.evaluateAll = .ok e.table := by
  unfold evaluateAll
  rw [allocate_eq_ok_iff.mpr hsize]
  rfl

/-- **The outputs at all indices are the outputs at each index, in ascending order.** -/
theorem Sized.evaluateAll {e : Evaluator σ} (h : e.Sized) (hn : e.rangeSize ≤ maxRangeBits)
    (hsize : domainSize e.rangeSize * e.dataSize ≤ maxBuffer) :
    ∃ shares, e.evaluateAll = .ok shares ∧
      shares.length = domainSize e.rangeSize * e.dataSize ∧
      ∀ index : UInt64, index.toNat < domainSize e.rangeSize →
        e.evaluate index = .ok ((shares.drop (index.toNat * e.dataSize)).take e.dataSize) := by
  refine ⟨e.table, e.evaluateAll_eq_ok hsize, h.length_table hn, ?_⟩
  intro index hindex
  rw [e.evaluate_eq_ok hindex, h.table_eq hn, word_table (fun _ _ => h.output _) hindex]

/-! ### Two parties -/

/-- The outputs of two trees of the declared sizes add up to a value at every index. -/
structure AddUp (rangeSize dataSize : Nat) (value : UInt64 → Bytes) (a b : Evaluator σ) :
    Prop where
  sized_a : a.Sized
  sized_b : b.Sized
  rangeSize_a : a.rangeSize = rangeSize
  rangeSize_b : b.rangeSize = rangeSize
  dataSize_a : a.dataSize = dataSize
  dataSize_b : b.dataSize = dataSize
  sum : ∀ index : UInt64, index.toNat < domainSize rangeSize →
    Bytes.xor (a.output (a.leafAt index)) (b.output (b.leafAt index)) = value index

/-- Any two trees of the same sizes add up to the sums of their outputs. -/
theorem Sized.addUp {a b : Evaluator σ} (ha : a.Sized) (hb : b.Sized)
    (hrange : b.rangeSize = a.rangeSize) (hdata : b.dataSize = a.dataSize) :
    AddUp a.rangeSize a.dataSize
      (fun index => Bytes.xor (a.output (a.leafAt index)) (b.output (b.leafAt index))) a b where
  sized_a := ha
  sized_b := hb
  rangeSize_a := rfl
  rangeSize_b := hrange
  dataSize_a := rfl
  dataSize_b := hdata
  sum _ _ := rfl

theorem AddUp.length_a {rangeSize dataSize : Nat} {value : UInt64 → Bytes} {a b : Evaluator σ}
    (h : AddUp rangeSize dataSize value a b) (leaf : σ) : (a.output leaf).length = dataSize :=
  (h.sized_a.output leaf).trans h.dataSize_a

theorem AddUp.length_b {rangeSize dataSize : Nat} {value : UInt64 → Bytes} {a b : Evaluator σ}
    (h : AddUp rangeSize dataSize value a b) (leaf : σ) : (b.output leaf).length = dataSize :=
  (h.sized_b.output leaf).trans h.dataSize_b

theorem AddUp.evaluate {rangeSize dataSize : Nat} {value : UInt64 → Bytes} {a b : Evaluator σ}
    (h : AddUp rangeSize dataSize value a b) {index : UInt64}
    (hindex : index.toNat < domainSize rangeSize) :
    ∃ shareA shareB, a.evaluate index = .ok shareA ∧ b.evaluate index = .ok shareB ∧
      reconstruct shareA shareB = .ok (value index) := by
  refine ⟨_, _, a.evaluate_eq_ok (by rw [h.rangeSize_a]; exact hindex),
    b.evaluate_eq_ok (by rw [h.rangeSize_b]; exact hindex), ?_⟩
  exact reconstruct_eq_ok_iff.mpr ⟨by rw [h.length_a, h.length_b], h.sum index hindex⟩

theorem AddUp.length_value {rangeSize dataSize : Nat} {value : UInt64 → Bytes}
    {a b : Evaluator σ} (h : AddUp rangeSize dataSize value a b) {index : UInt64}
    (hindex : index.toNat < domainSize rangeSize) : (value index).length = dataSize := by
  rw [← h.sum index hindex, Bytes.length_xor, h.length_a]

/-- The outputs at some indices of the domain, joined, add up to the values there. -/
theorem AddUp.reconstruct_flatMap {rangeSize dataSize : Nat} {value : UInt64 → Bytes}
    {a b : Evaluator σ} (h : AddUp rangeSize dataSize value a b) {indices : List UInt64}
    (hindices : ∀ index ∈ indices, index.toNat < domainSize rangeSize) :
    reconstruct (indices.flatMap fun index => a.output (a.leafAt index))
      (indices.flatMap fun index => b.output (b.leafAt index)) = .ok (indices.flatMap value) := by
  refine reconstruct_eq_ok_iff.mpr ⟨?_, ?_⟩
  · rw [Bytes.length_flatMap_of_forall _ fun index _ => h.length_a _,
      Bytes.length_flatMap_of_forall _ fun index _ => h.length_b _]
  · rw [Bytes.xor_flatMap _ fun index _ => by rw [h.length_a, h.length_b]]
    refine List.flatMap_congr ?_
    intro index hindex
    exact h.sum index (hindices index hindex)

/-- **The outputs at all indices add up to the table of the function.** -/
theorem AddUp.evaluateAll {rangeSize dataSize : Nat} {value : UInt64 → Bytes} {a b : Evaluator σ}
    (h : AddUp rangeSize dataSize value a b) (hn : rangeSize ≤ maxRangeBits)
    (hsize : domainSize rangeSize * dataSize ≤ maxBuffer) :
    ∃ shareA shareB, a.evaluateAll = .ok shareA ∧ b.evaluateAll = .ok shareB ∧
      reconstruct shareA shareB = .ok (PointSharing.table rangeSize value) := by
  refine ⟨_, _, a.evaluateAll_eq_ok (by rwa [h.rangeSize_a, h.dataSize_a]),
    b.evaluateAll_eq_ok (by rwa [h.rangeSize_b, h.dataSize_b]), ?_⟩
  rw [h.sized_a.table_eq (by rwa [h.rangeSize_a]), h.sized_b.table_eq (by rwa [h.rangeSize_b]),
    h.rangeSize_a, h.rangeSize_b]
  simp only [table_eq_flatMap]
  exact h.reconstruct_flatMap fun index => lt_domainSize_of_mem_allIndices hn

end Evaluator

end PointSharing
