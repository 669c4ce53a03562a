/-
What the checks on sizes accept.

A sequence of checks succeeds exactly if each of them does, so what a call accepts is read
off its checks one by one.
-/
import PointSharing.Domain

namespace PointSharing

theorem check_bind_eq_ok_iff {α : Type} {check : Except Error Unit} {f : Unit → Except Error α}
    {a : α} : (check >>= f) = .ok a ↔ check = .ok () ∧ f () = .ok a := by
  cases check with
  | error e => simp [bind, Except.bind]
  | ok u => simp [bind, Except.bind]

theorem ok_bind {α β : Type} (b : β) (f : β → Except Error α) : (Except.ok b >>= f) = f b := rfl

theorem ite_bind_eq_ok_iff {α β : Type} {p : Prop} [Decidable p] {b : β} {e : Error}
    {f : β → Except Error α} {a : α} :
    ((if p then .ok b else .error e) >>= f) = .ok a ↔ p ∧ f b = .ok a := by
  by_cases h : p <;> simp [h, bind, Except.bind]

/-- Calls that all succeed give the list of what each of them gives. -/
theorem mapM_eq_ok_map {α β : Type} {f : α → Except Error β} {g : α → β} {l : List α}
    (h : ∀ x ∈ l, f x = .ok (g x)) : l.mapM f = .ok (l.map g) := by
  induction l with
  | nil => rfl
  | cons x l ih =>
      rw [List.mapM_cons, h x (by simp), ih fun y hy => h y (by simp [hy])]
      rfl

theorem checkRangeSize_eq_ok_iff {n : Nat} : checkRangeSize n = .ok () ↔ n ≤ maxRangeBits := by
  unfold checkRangeSize
  by_cases h : n ≤ maxRangeBits <;> simp [h]

theorem checkFullDomain_eq_ok_iff {n : Nat} :
    checkFullDomain n = .ok () ↔ n ≤ maxFullDomainBits := by
  unfold checkFullDomain
  by_cases h : n ≤ maxFullDomainBits <;> simp [h]

theorem checkPointCount_eq_ok_iff {points : Nat} :
    checkPointCount points = .ok () ↔ 0 < points ∧ points ≤ maxPoints := by
  unfold checkPointCount
  by_cases h : points = 0 ∨ maxPoints < points
  · rw [if_pos h]
    refine ⟨fun hok => (nomatch hok), fun hpoints => ?_⟩
    omega
  · rw [if_neg h]
    refine ⟨fun _ => ?_, fun _ => rfl⟩
    omega

theorem checkIndexCount_eq_ok_iff {indices : List UInt64} {points : Nat} :
    checkIndexCount indices points = .ok () ↔ indices.length = points := by
  unfold checkIndexCount
  by_cases h : indices.length = points <;> simp [h]

theorem checkPayload_eq_ok_iff {data : Bytes} {expected : Nat} :
    checkPayload data expected = .ok () ↔ data.length = expected := by
  unfold checkPayload
  by_cases h : data.length = expected <;> simp [h]

theorem outputLength_bind_eq_ok_iff {α : Type} {count dataSize : Nat} {f : Nat → Except Error α}
    {a : α} : (outputLength count dataSize >>= f) = .ok a ↔
      count * dataSize ≤ maxSize ∧ f (count * dataSize) = .ok a := by
  unfold outputLength checkedMul
  by_cases h : count * dataSize ≤ maxSize <;> simp [h, bind, Except.bind]

/-! ### Making room -/

theorem maxBuffer_le_maxSize : maxBuffer ≤ maxSize := by decide

theorem le_maxBuffer_of_lt {size : Nat} (h : size < 1 <<< 63) : size ≤ maxBuffer :=
  Nat.le_of_lt_succ h

theorem allocate_eq_ok_iff {length : Nat} : allocate length = .ok () ↔ length ≤ maxBuffer := by
  unfold allocate
  by_cases h : length ≤ maxBuffer <;> simp [h]

/-- Outputs that fit into a buffer have a length that is a size. -/
theorem allocateOutputs_eq_ok_iff {count dataSize : Nat} :
    allocateOutputs count dataSize = .ok () ↔ count * dataSize ≤ maxBuffer := by
  unfold allocateOutputs
  rw [outputLength_bind_eq_ok_iff, allocate_eq_ok_iff]
  exact and_iff_right_of_imp fun h => Nat.le_trans h maxBuffer_le_maxSize

end PointSharing
