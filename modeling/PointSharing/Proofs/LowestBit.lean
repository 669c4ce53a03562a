/-
The set bits of a sign vector, lowest first.

The points of a vector are those whose bits are set, from the first to the last.  They can be found
without looking at every bit: the lowest set bit is taken and cleared, and so on until the vector is
zero.  Subtracting one changes the lowest set bit and the bits below it, which are not set, so what a
vector has in common with its predecessor are its bits without the lowest.  Each round so makes the
vector smaller, and the points that are found are the same.
-/
import Mathlib.Data.List.Sort
import PointSharing.Proofs.SignVector

namespace PointSharing.SignVector

variable {sign : SignVector}

/-! ### The lowest set bit -/

/-- The vector without its lowest set bit. -/
def clearLowest (sign : SignVector) : SignVector := sign &&& (sign - 1)

theorem toNat_sub_one (h : sign ≠ 0) : (sign - 1).toNat = sign.toNat - 1 := by
  have hle : (1 : SignVector) ≤ sign := by
    rw [BitVec.le_def]
    exact BitVec.toNat_pos_of_ne_zero h
  exact BitVec.toNat_sub_of_le hle

theorem toNat_clearLowest_lt (h : sign ≠ 0) : sign.clearLowest.toNat < sign.toNat := by
  have hpos := BitVec.toNat_pos_of_ne_zero h
  have hle : sign.clearLowest.toNat ≤ sign.toNat - 1 := by
    rw [clearLowest, BitVec.toNat_and, toNat_sub_one h]
    exact Nat.and_le_right
  omega

/-- Subtracting one borrows from the lowest set bit and leaves those above it. -/
theorem testBit_and_sub_one {n lowest : Nat} (hset : n.testBit lowest = true)
    (hlow : ∀ i < lowest, n.testBit i = false) (i : Nat) :
    (n &&& (n - 1)).testBit i = (n.testBit i && i != lowest) := by
  rw [Nat.testBit_and]
  -- halving an even number halves its predecessor too, rounded down, until the number is odd
  induction lowest generalizing n i with
  | zero =>
      have hodd : n % 2 = 1 := by simpa using hset
      have heven : (n - 1) % 2 = 0 := by omega
      have hhalf : (n - 1) / 2 = n / 2 := by omega
      cases i with
      | zero => simp [heven]
      | succ i => simp [Nat.testBit_succ, hhalf]
  | succ lowest ih =>
      have heven : n % 2 = 0 := by simpa using hlow 0 (Nat.succ_pos lowest)
      have hhalf : (n - 1) / 2 = n / 2 - 1 := by omega
      cases i with
      | zero => simp [heven]
      | succ i =>
          have hlowHalf : ∀ j < lowest, (n / 2).testBit j = false := by
            intro j hj
            rw [← Nat.testBit_succ]
            exact hlow (j + 1) (Nat.succ_lt_succ hj)
          rw [Nat.testBit_succ, Nat.testBit_succ, hhalf, ih (Nat.testBit_succ .. ▸ hset) hlowHalf]
          simp

theorem getLsbD_clearLowest (h : sign ≠ 0) (i : Nat) :
    sign.clearLowest.getLsbD i = (sign.getLsbD i && i != sign.ctz.toNat) := by
  rw [clearLowest, ← BitVec.testBit_toNat, BitVec.toNat_and, toNat_sub_one h,
    ← BitVec.testBit_toNat]
  refine testBit_and_sub_one ?_ ?_ i
  · rw [BitVec.testBit_toNat]
    exact BitVec.getLsbD_true_ctz_of_ne_zero h
  · intro j hj
    rw [BitVec.testBit_toNat]
    exact BitVec.getLsbD_false_of_lt_ctz hj

/-! ### Points one after the other -/

/-- The points whose bits are set, as they are found: the lowest set bit is taken and cleared until
none is left. -/
def lowestFirst (sign : SignVector) : List Nat :=
  if sign = 0 then [] else sign.ctz.toNat :: sign.clearLowest.lowestFirst
termination_by sign.toNat
decreasing_by exact toNat_clearLowest_lt ‹_›

theorem pairwise_points (sign : SignVector) : sign.points.Pairwise (· < ·) :=
  List.pairwise_lt_range.filter _

theorem points_zero : points 0 = [] := by
  refine List.eq_nil_iff_forall_not_mem.mpr fun point hpoint => ?_
  simpa using mem_points.mp hpoint

theorem mem_points_clearLowest (h : sign ≠ 0) {point : Nat} :
    point ∈ sign.clearLowest.points ↔ point ∈ sign.points ∧ point ≠ sign.ctz.toNat := by
  rw [mem_points, mem_points, getLsbD_clearLowest h, Bool.and_eq_true, bne_iff_ne]

theorem ctz_mem_points (h : sign ≠ 0) : sign.ctz.toNat ∈ sign.points :=
  mem_points.mpr (BitVec.getLsbD_true_ctz_of_ne_zero h)

theorem ctz_le_of_mem_points {point : Nat} (h : point ∈ sign.points) : sign.ctz.toNat ≤ point := by
  refine Nat.le_of_not_lt fun hlt => ?_
  have hset := mem_points.mp h
  rw [BitVec.getLsbD_false_of_lt_ctz hlt] at hset
  exact Bool.false_ne_true hset

/-- The lowest set bit comes first, and what is left when it is cleared are the others. -/
theorem points_eq_cons (h : sign ≠ 0) :
    sign.points = sign.ctz.toNat :: sign.clearLowest.points := by
  have hsorted : (sign.ctz.toNat :: sign.clearLowest.points).Pairwise (· < ·) := by
    refine List.pairwise_cons.mpr ⟨fun point hpoint => ?_, pairwise_points _⟩
    obtain ⟨hmem, hne⟩ := (mem_points_clearLowest h).mp hpoint
    exact Nat.lt_of_le_of_ne (ctz_le_of_mem_points hmem) hne.symm
  -- both lists ascend, so it is enough that they have the same members
  refine (pairwise_points sign).eq_of_mem_iff hsorted fun point => ?_
  rw [List.mem_cons, mem_points_clearLowest h]
  by_cases hlowest : point = sign.ctz.toNat
  · simp only [hlowest, ctz_mem_points h, true_or]
  · simp only [hlowest, ne_eq, not_false_eq_true, and_true, false_or]

/-- Every set bit is found, once and in ascending order. -/
theorem points_eq_lowestFirst (sign : SignVector) : sign.points = sign.lowestFirst := by
  induction sign using lowestFirst.induct with
  | case1 => rw [lowestFirst, if_pos rfl, points_zero]
  | case2 sign h ih => rw [lowestFirst, if_neg h, points_eq_cons h, ih]

example : lowestFirst 0b101100#32 = [2, 3, 5] := by decide +kernel

end PointSharing.SignVector
