/-
What the checks on indices accept.

An index passes `inDomain` exactly if it is a number below the size of the domain; at 64
bits that is every index, which is the case the first disjunct of `inDomain` is there for.
Special indices pass if all of them do and each is above the one before it.  The check
compares neighbours only, and the order being transitive makes that the order of all.
-/
import PointSharing.Domain

namespace PointSharing

theorem domainSize_succ (n : Nat) : domainSize (n + 1) = 2 * domainSize n := by
  rw [domainSize, domainSize, Nat.shiftLeft_succ]

theorem domainSize_le_domainSize {m n : Nat} (h : m ≤ n) : domainSize m ≤ domainSize n := by
  rw [domainSize, domainSize, Nat.one_shiftLeft, Nat.one_shiftLeft]
  exact Nat.pow_le_pow_right (by decide) h

theorem shiftRight_eq_zero_iff (v n : Nat) : v >>> n = 0 ↔ v < domainSize n := by
  rw [domainSize, Nat.one_shiftLeft, Nat.shiftRight_eq_div_pow, Nat.div_eq_zero_iff]
  have hpos := Nat.two_pow_pos n
  omega

/-- Every index has 64 bits at most. -/
theorem toNat_lt_domainSize (index : UInt64) : index.toNat < domainSize maxRangeBits := by
  have h := index.toNat_lt
  simpa [domainSize, maxRangeBits] using h

theorem inDomain_iff {index : UInt64} {n : Nat} :
    inDomain index n = true ↔ index.toNat < domainSize n := by
  unfold inDomain
  by_cases hn : maxRangeBits ≤ n
  · have hlt := Nat.lt_of_lt_of_le (toNat_lt_domainSize index) (domainSize_le_domainSize hn)
    simp [hn, hlt]
  · simp [hn, shiftRight_eq_zero_iff]

/-! ### Queries -/

theorem checkIndex_eq_ok_iff {index : UInt64} {n : Nat} :
    checkIndex index n = .ok () ↔ index.toNat < domainSize n := by
  unfold checkIndex
  rw [← inDomain_iff]
  by_cases h : inDomain index n = true <;> simp [h]

theorem checkQueries_eq_ok_iff {indices : List UInt64} {n : Nat} :
    checkQueries indices n = .ok () ↔ ∀ index ∈ indices, index.toNat < domainSize n := by
  have hnone : indices.find? (fun index => !inDomain index n) = none ↔
      ∀ index ∈ indices, index.toNat < domainSize n := by
    simp [List.find?_eq_none, inDomain_iff]
  rw [← hnone, checkQueries]
  cases indices.find? fun index => !inDomain index n <;> simp

/-! ### Special indices -/

theorem checkAscending_cons_eq_ok_iff {n : Nat} {previous : Option UInt64} {position : Nat}
    {index : UInt64} {rest : List UInt64} :
    checkAscending n previous position (index :: rest) = .ok () ↔
      index.toNat < domainSize n ∧ (∀ p ∈ previous, p < index) ∧
        checkAscending n (some index) (position + 1) rest = .ok () := by
  have hany : previous.any (index ≤ ·) = true ↔ ¬ ∀ p ∈ previous, p < index := by
    cases previous <;> simp
  rw [checkAscending, ← inDomain_iff]
  by_cases hdom : inDomain index n = true
  · by_cases hprev : ∀ p ∈ previous, p < index
    · rw [if_neg (by simp [hdom]), if_neg (by rw [hany]; exact not_not_intro hprev)]
      simp only [hdom, true_and]
      exact ⟨fun h => ⟨hprev, h⟩, fun h => h.2⟩
    · rw [if_neg (by simp [hdom]), if_pos (hany.mpr hprev)]
      refine ⟨fun h => ?_, fun h => absurd h.2.1 hprev⟩
      cases h
  · simp [hdom]

theorem checkAscending_eq_ok_iff {n : Nat} {previous : Option UInt64} {position : Nat}
    {indices : List UInt64} :
    checkAscending n previous position indices = .ok () ↔
      (∀ index ∈ indices, index.toNat < domainSize n) ∧
        (∀ p ∈ previous, ∀ index ∈ indices, p < index) ∧ indices.Pairwise (· < ·) := by
  induction indices generalizing previous position with
  | nil => simp [checkAscending]
  | cons index rest ih =>
      rw [checkAscending_cons_eq_ok_iff, ih]
      constructor
      · rintro ⟨hindex, hprev, hrest, hsome, hpair⟩
        have hbelow : ∀ i ∈ rest, index < i := hsome index rfl
        refine ⟨?_, ?_, List.pairwise_cons.mpr ⟨hbelow, hpair⟩⟩
        · intro i hi
          rcases List.mem_cons.mp hi with rfl | hi
          · exact hindex
          · exact hrest i hi
        · intro p hp i hi
          rcases List.mem_cons.mp hi with rfl | hi
          · exact hprev p hp
          · exact UInt64.lt_trans (hprev p hp) (hbelow i hi)
      · rintro ⟨hdom, hprev, hpair⟩
        obtain ⟨hbelow, hpair⟩ := List.pairwise_cons.mp hpair
        refine ⟨hdom index (by simp), fun p hp => hprev p hp index (by simp),
          fun i hi => hdom i (by simp [hi]), ?_, hpair⟩
        intro p hp i hi
        rw [← Option.some.inj hp]
        exact hbelow i hi

theorem checkSpecialIndices_eq_ok_iff {indices : List UInt64} {n : Nat} :
    checkSpecialIndices indices n = .ok () ↔
      (∀ index ∈ indices, index.toNat < domainSize n) ∧ indices.Pairwise (· < ·) := by
  rw [checkSpecialIndices, checkAscending_eq_ok_iff]
  simp

end PointSharing
