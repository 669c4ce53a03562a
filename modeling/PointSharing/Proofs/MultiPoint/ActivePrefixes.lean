/-
Which nodes are active, and where in their list.

Merging runs drops repetitions only, and from an ascending list it drops all of them.  So
the active nodes of a depth are known by two facts: they are strictly increasing, and they
are the numbers that the special indices begin with.  Every other fact about their list
follows from these, because a strictly increasing list is determined by its members.  In
particular the list of the next depth is the present one with every node replaced by its
active children.
-/
import Mathlib.Data.List.Sort
import PointSharing.MultiPoint.ActivePrefixes
import PointSharing.Proofs.Domain

namespace PointSharing.MultiPoint

/-! ### Merging runs -/

@[simp] theorem mem_mergeRuns {x : Nat} {l : List Nat} : x ∈ mergeRuns l ↔ x ∈ l := by
  fun_induction mergeRuns l with
  | case1 => rfl
  | case2 y => rfl
  | case3 y rest ih =>
      rw [ih]
      simp
  | case4 y z rest hne ih =>
      rw [List.mem_cons, ih]
      exact List.mem_cons.symm

theorem mergeRuns_sublist (l : List Nat) : (mergeRuns l).Sublist l := by
  fun_induction mergeRuns l with
  | case1 => exact .slnil
  | case2 y => exact List.Sublist.refl _
  | case3 y rest ih => exact .cons y ih
  | case4 y z rest hne ih => exact .cons_cons y ih

theorem pairwise_mergeRuns {l : List Nat} (h : l.Pairwise (· ≤ ·)) :
    (mergeRuns l).Pairwise (· < ·) := by
  fun_induction mergeRuns l with
  | case1 => exact .nil
  | case2 y => exact List.pairwise_singleton _ _
  | case3 y rest ih => exact ih (List.pairwise_cons.mp h).2
  | case4 y z rest hne ih =>
      obtain ⟨hy, hrest⟩ := List.pairwise_cons.mp h
      obtain ⟨hz, -⟩ := List.pairwise_cons.mp hrest
      have hlt : y < z := Nat.lt_of_le_of_ne (hy z (by simp)) hne
      refine List.pairwise_cons.mpr ⟨?_, ih hrest⟩
      intro w hw
      rcases List.mem_cons.mp (mem_mergeRuns.mp hw) with rfl | hw
      · exact hlt
      · exact Nat.lt_of_lt_of_le hlt (hz w hw)

/-! ### The active nodes of a depth -/

variable {indices : List UInt64} {n depth : Nat}

theorem mem_activePrefixes {node : Nat} :
    node ∈ activePrefixes indices n depth ↔
      ∃ index ∈ indices, index.toNat >>> (n - depth) = node := by
  rw [activePrefixes, mem_mergeRuns, List.mem_map]

theorem length_activePrefixes_le : (activePrefixes indices n depth).length ≤ indices.length := by
  have h := (mergeRuns_sublist (indices.map fun index => index.toNat >>> (n - depth))).length_le
  rwa [List.length_map] at h

theorem pairwise_activePrefixes (h : indices.Pairwise (· < ·)) :
    (activePrefixes indices n depth).Pairwise (· < ·) := by
  refine pairwise_mergeRuns (List.pairwise_map.mpr (h.imp ?_))
  intro i j hij
  have hle : i.toNat ≤ j.toNat := Nat.le_of_lt (UInt64.lt_iff_toNat_lt.mp hij)
  simp only [Nat.shiftRight_eq_div_pow]
  exact Nat.div_le_div_right hle

theorem nodup_activePrefixes (h : indices.Pairwise (· < ·)) :
    (activePrefixes indices n depth).Nodup :=
  (pairwise_activePrefixes h).nodup

theorem lt_domainSize_of_mem_activePrefixes
    (hindices : ∀ index ∈ indices, index.toNat < domainSize n) (hdepth : depth ≤ n) {node : Nat}
    (h : node ∈ activePrefixes indices n depth) : node < domainSize depth := by
  obtain ⟨index, hindex, rfl⟩ := mem_activePrefixes.mp h
  rw [← shiftRight_eq_zero_iff, ← Nat.shiftRight_add, Nat.sub_add_cancel hdepth,
    shiftRight_eq_zero_iff]
  exact hindices index hindex

/-- All indices are below the root. -/
theorem activePrefixes_zero (h : indices.Pairwise (· < ·)) (hne : indices ≠ [])
    (hindices : ∀ index ∈ indices, index.toNat < domainSize n) :
    activePrefixes indices n 0 = [0] := by
  refine List.Pairwise.eq_of_mem_iff (pairwise_activePrefixes h) (List.pairwise_singleton _ _) ?_
  intro node
  rw [List.mem_singleton]
  constructor
  · intro hnode
    have hlt := lt_domainSize_of_mem_activePrefixes hindices (Nat.zero_le n) hnode
    simpa [domainSize] using hlt
  · rintro rfl
    obtain ⟨index, hindex⟩ := List.exists_mem_of_ne_nil _ hne
    refine mem_activePrefixes.mpr ⟨index, hindex, ?_⟩
    exact (shiftRight_eq_zero_iff _ _).mpr (hindices index hindex)

/-- At the leaves the active nodes are the indices. -/
theorem activePrefixes_self (h : indices.Pairwise (· < ·)) :
    activePrefixes indices n n = indices.map UInt64.toNat := by
  have hmap : (indices.map UInt64.toNat).Pairwise (· < ·) :=
    List.pairwise_map.mpr (h.imp UInt64.lt_iff_toNat_lt.mp)
  refine List.Pairwise.eq_of_mem_iff (pairwise_activePrefixes h) hmap ?_
  intro node
  rw [mem_activePrefixes, List.mem_map]
  simp

/-! ### From one depth to the next -/

theorem shiftRight_sub_succ (i : Nat) (h : depth < n) :
    i >>> (n - depth) = (i >>> (n - (depth + 1))) / 2 := by
  rw [show n - depth = n - (depth + 1) + 1 by omega, Nat.shiftRight_succ]

/-- A node is active exactly if some active node is its child. -/
theorem mem_activePrefixes_iff_exists_child (h : depth < n) {node : Nat} :
    node ∈ activePrefixes indices n depth ↔
      ∃ child ∈ activePrefixes indices n (depth + 1), child / 2 = node := by
  constructor
  · intro hnode
    obtain ⟨index, hindex, rfl⟩ := mem_activePrefixes.mp hnode
    exact ⟨_, mem_activePrefixes.mpr ⟨index, hindex, rfl⟩, (shiftRight_sub_succ _ h).symm⟩
  · rintro ⟨child, hchild, rfl⟩
    obtain ⟨index, hindex, rfl⟩ := mem_activePrefixes.mp hchild
    exact mem_activePrefixes.mpr ⟨index, hindex, shiftRight_sub_succ _ h⟩

theorem parent_mem_activePrefixes (h : depth < n) {child : Nat}
    (hchild : child ∈ activePrefixes indices n (depth + 1)) :
    child / 2 ∈ activePrefixes indices n depth :=
  (mem_activePrefixes_iff_exists_child h).mpr ⟨child, hchild, rfl⟩

/-- The active ones of a node's two children. -/
def activeSides (indices : List UInt64) (n depth node : Nat) : List Nat :=
  [2 * node, 2 * node + 1].filter (· ∈ activePrefixes indices n (depth + 1))

theorem mem_activeSides {node child : Nat} :
    child ∈ activeSides indices n depth node ↔
      child ∈ activePrefixes indices n (depth + 1) ∧ child / 2 = node := by
  rw [activeSides, List.mem_filter, List.mem_cons, List.mem_singleton, decide_eq_true_iff,
    and_comm]
  refine and_congr_right fun _ => ?_
  omega

/-- **The active nodes of the next depth are the active children of those of this one.** -/
theorem activePrefixes_succ (hindices : indices.Pairwise (· < ·)) (h : depth < n) :
    activePrefixes indices n (depth + 1)
      = (activePrefixes indices n depth).flatMap (activeSides indices n depth) := by
  refine List.Pairwise.eq_of_mem_iff (pairwise_activePrefixes hindices) ?_ ?_
  · refine List.pairwise_flatMap.mpr ⟨fun node _ => ?_, ?_⟩
    · exact List.Pairwise.filter _ (by simp)
    · refine (pairwise_activePrefixes hindices).imp ?_
      intro v w hvw x hx y hy
      have hxv := (mem_activeSides.mp hx).2
      have hyw := (mem_activeSides.mp hy).2
      omega
  · intro child
    rw [List.mem_flatMap]
    constructor
    · intro hchild
      exact ⟨child / 2, parent_mem_activePrefixes h hchild, mem_activeSides.mpr ⟨hchild, rfl⟩⟩
    · rintro ⟨node, -, hchild⟩
      exact (mem_activeSides.mp hchild).1

/-! ### Branches -/

/-- The position of the child on one side; `true` is right. -/
def Branch.side (branch : Branch) (right : Bool) : Option Nat :=
  if right then branch.right else branch.left

/-- Where the special path goes on from a node. -/
def branchAt (indices : List UInt64) (n depth node : Nat) : Branch :=
  let next := activePrefixes indices n (depth + 1)
  ⟨next.idxOf? (2 * node), next.idxOf? (2 * node + 1)⟩

theorem branches_eq_map (indices : List UInt64) (n depth : Nat) :
    branches indices n depth
      = (activePrefixes indices n depth).map (branchAt indices n depth) := rfl

/-- A branch has the positions at which the children of its node are found. -/
theorem side_branchAt_eq_idxOf? (node : Nat) (right : Bool) :
    (branchAt indices n depth node).side right
      = (activePrefixes indices n (depth + 1)).idxOf? (2 * node + right.toNat) := by
  cases right <;> rfl

/-- The branch of a child's parent has the position of the child on the child's side. -/
theorem side_branchAt (child : Nat) :
    (branchAt indices n depth (child / 2)).side (child.testBit 0)
      = (activePrefixes indices n (depth + 1)).idxOf? child := by
  rw [side_branchAt_eq_idxOf?, Nat.toNat_testBit,
    show 2 * (child / 2) + child / 2 ^ 0 % 2 = child by omega]

/-- In a list without repetitions an item is found where it is. -/
theorem idxOf?_eq_some_of_nodup {l : List Nat} (h : l.Nodup) {i x : Nat} (hx : l[i]? = some x) :
    l.idxOf? x = some i := by
  obtain ⟨hi, hget⟩ := List.getElem?_eq_some_iff.mp hx
  refine List.idxOf?_eq_some_iff.mpr ⟨hi, hget, ?_⟩
  intro j hj heq
  exact Nat.ne_of_lt hj (h.getElem_inj_iff.mp (heq.trans hget.symm))

theorem side_branchAt_eq_some (h : indices.Pairwise (· < ·)) {child point : Nat}
    (hpoint : (activePrefixes indices n (depth + 1))[point]? = some child) :
    (branchAt indices n depth (child / 2)).side (child.testBit 0) = some point := by
  rw [side_branchAt]
  exact idxOf?_eq_some_of_nodup (nodup_activePrefixes h) hpoint

/-- A child is found exactly where it is. -/
theorem side_branchAt_eq_some_iff (h : indices.Pairwise (· < ·)) {node place : Nat}
    {right : Bool} : (branchAt indices n depth node).side right = some place ↔
      (activePrefixes indices n (depth + 1))[place]? = some (2 * node + right.toNat) := by
  rw [side_branchAt_eq_idxOf?]
  constructor
  · intro hfound
    obtain ⟨hlt, hget, -⟩ := List.idxOf?_eq_some_iff.mp hfound
    exact List.getElem?_eq_some_iff.mpr ⟨hlt, hget⟩
  · exact idxOf?_eq_some_of_nodup (nodup_activePrefixes h)

/-- An active child is found from its parent. -/
theorem side_branchAt_ne_none_of_mem {child : Nat}
    (hchild : child ∈ activePrefixes indices n (depth + 1)) :
    (branchAt indices n depth (child / 2)).side (child.testBit 0) ≠ none := by
  rw [side_branchAt, ne_eq, List.idxOf?_eq_none_iff]
  exact not_not_intro hchild

/-- An active node has an active child. -/
theorem exists_side_branchAt_ne_none (h : depth < n) {node : Nat}
    (hnode : node ∈ activePrefixes indices n depth) :
    ∃ right, (branchAt indices n depth node).side right ≠ none := by
  obtain ⟨child, hchild, rfl⟩ := (mem_activePrefixes_iff_exists_child h).mp hnode
  exact ⟨child.testBit 0, side_branchAt_ne_none_of_mem hchild⟩

/-- If one child of an active node is not active, the other one is. -/
theorem side_branchAt_ne_none (h : depth < n) {child : Nat}
    (hparent : child / 2 ∈ activePrefixes indices n depth)
    (hchild : child ∉ activePrefixes indices n (depth + 1)) :
    (branchAt indices n depth (child / 2)).side (!child.testBit 0) ≠ none := by
  obtain ⟨other, hother, hhalf⟩ := (mem_activePrefixes_iff_exists_child h).mp hparent
  have hne : other ≠ child := fun heq => hchild (heq ▸ hother)
  have hbit : other.testBit 0 = !child.testBit 0 := by
    simp only [Nat.testBit_zero]
    have : other % 2 = 1 - child % 2 := by omega
    rcases Nat.mod_two_eq_zero_or_one child with hc | hc <;> simp [this, hc]
  rw [← hbit, ← hhalf]
  exact side_branchAt_ne_none_of_mem hother

end PointSharing.MultiPoint
