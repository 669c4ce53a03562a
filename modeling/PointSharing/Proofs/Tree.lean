/-
Nodes by number, and what the two walks over a tree have in common.

A node is named by its depth and by the bits of the path to it, read as a number.  Such a
name can be taken apart at either end.  Its last bit says which child it is of its parent,
and that is how generation goes down the levels.  Its first bit says below which child of
the root it lies, and that is how widening a row is compared with following paths: a leaf
comes out at the position that is its number.
-/
import PointSharing.Evaluation
import PointSharing.Proofs.Domain

namespace PointSharing

/-! ### Node numbers -/

/-- The branches from the root to the node with a number at a depth. -/
def nodePath (depth node : Nat) : List Bool :=
  (List.range depth).map fun level => node.testBit (depth - 1 - level)

theorem path_eq_nodePath (index : UInt64) (n : Nat) : path index n = nodePath n index.toNat := rfl

@[simp] theorem length_nodePath (depth node : Nat) : (nodePath depth node).length = depth := by
  simp [nodePath]

/-- The first branch is the highest bit. -/
theorem nodePath_succ (depth node : Nat) :
    nodePath (depth + 1) node = node.testBit depth :: nodePath depth node := by
  rw [nodePath, List.range_succ_eq_map, List.map_cons, List.map_map]
  congr 1
  apply List.map_congr_left
  intro level _
  rw [Function.comp, show depth + 1 - 1 - Nat.succ level = depth - 1 - level by omega]

/-- The last branch is the lowest bit. -/
theorem nodePath_succ' (depth node : Nat) :
    nodePath (depth + 1) node = nodePath depth (node / 2) ++ [node.testBit 0] := by
  rw [nodePath, List.range_succ, List.map_append]
  congr 1
  · apply List.map_congr_left
    intro level hlevel
    have hlt : level < depth := List.mem_range.mp hlevel
    rw [show depth + 1 - 1 - level = depth - 1 - level + 1 by omega, Nat.testBit_succ]
  · simp

theorem nodePath_injective {depth v w : Nat} (hv : v < domainSize depth)
    (hw : w < domainSize depth) (h : nodePath depth v = nodePath depth w) : v = w := by
  rw [domainSize, Nat.one_shiftLeft] at hv hw
  apply Nat.eq_of_testBit_eq
  intro i
  by_cases hi : i < depth
  · have hlevel := congrArg (·[depth - 1 - i]?) h
    have hrange : depth - 1 - i < depth := by omega
    simp only [nodePath, List.getElem?_map, List.getElem?_range hrange, Option.map_some,
      Option.some.injEq] at hlevel
    rwa [show depth - 1 - (depth - 1 - i) = i by omega] at hlevel
  · have hpow : 2 ^ depth ≤ 2 ^ i := Nat.pow_le_pow_right (by decide) (by omega)
    rw [Nat.testBit_lt_two_pow (by omega), Nat.testBit_lt_two_pow (by omega)]

theorem testBit_add_domainSize {depth node i : Nat} (h : i < depth) :
    (domainSize depth + node).testBit i = node.testBit i := by
  rw [domainSize, Nat.one_shiftLeft, Nat.testBit_two_pow_add_gt h]

theorem nodePath_add_domainSize (depth node : Nat) :
    nodePath depth (domainSize depth + node) = nodePath depth node := by
  apply List.map_congr_left
  intro level hlevel
  have hlt : level < depth := List.mem_range.mp hlevel
  exact testBit_add_domainSize (by omega)

namespace Tree

variable {σ : Type}

/-! ### Following a path -/

theorem descend_append {levels : List (Level σ)} {path : List Bool}
    (h : path.length = levels.length) (level : Level σ) (right : Bool) (root : σ) :
    descend (levels ++ [level]) (path ++ [right]) root
      = (level (descend levels path root)).side right := by
  induction levels generalizing path root with
  | nil =>
      have hpath : path = [] := List.length_eq_zero_iff.mp h
      simp [hpath, descend]
  | cons l levels ih =>
      cases path with
      | nil => simp at h
      | cons b path => exact ih (by simpa using h) ((l root).side b)

/-! ### Widening a row -/

theorem widen_append (levels : List (Level σ)) (row row' : List σ) :
    widen levels (row ++ row') = widen levels row ++ widen levels row' := by
  induction levels generalizing row row' with
  | nil => rfl
  | cons level levels ih =>
      simp only [widen, List.foldl_cons, List.flatMap_append]
      exact ih _ _

theorem leaves_cons (level : Level σ) (levels : List (Level σ)) (root : σ) :
    leaves (level :: levels) root
      = leaves levels (level root).left ++ leaves levels (level root).right := by
  rw [leaves, leaves, leaves, ← widen_append]
  simp [widen, Fork.toList]

/-- **Widening visits the leaves in the order of their numbers.** -/
theorem leaves_eq_map_descend (levels : List (Level σ)) (root : σ) :
    leaves levels root = (List.range (domainSize levels.length)).map fun node =>
      descend levels (nodePath levels.length node) root := by
  induction levels generalizing root with
  | nil => rfl
  | cons level levels ih =>
      rw [leaves_cons, ih, ih, List.length_cons, domainSize_succ, Nat.two_mul, List.range_add,
        List.map_append, List.map_map]
      congr 1
      · apply List.map_congr_left
        intro node hnode
        have hlt : node < 2 ^ levels.length := by
          simpa [domainSize, Nat.one_shiftLeft] using hnode
        rw [nodePath_succ, Nat.testBit_lt_two_pow hlt]
        rfl
      · apply List.map_congr_left
        intro node hnode
        have hlt : node < 2 ^ levels.length := by
          simpa [domainSize, Nat.one_shiftLeft] using hnode
        have hbit : (domainSize levels.length + node).testBit levels.length = true := by
          rw [domainSize, Nat.one_shiftLeft, Nat.testBit_two_pow_add_eq,
            Nat.testBit_lt_two_pow hlt]
          rfl
        simp only [Function.comp]
        rw [nodePath_succ, hbit, nodePath_add_domainSize]
        rfl

end Tree

end PointSharing
