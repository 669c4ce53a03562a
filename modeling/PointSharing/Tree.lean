/-
Walking a binary tree whose nodes are computed.

A level of a tree is a function from the state of a node to the states of its two
children; a tree is a list of levels and a state at the root.  One leaf is reached by
following a path, all of them by widening the whole row level by level.  The second visits
each inner node once, and gives the leaves from left to right.
-/
import PointSharing.Limits
import PointSharing.Node

namespace PointSharing.Tree

/-- How the states of the children come from the state of their parent. -/
abbrev Level (σ : Type) := σ → Fork σ

variable {σ : Type}

/-- The state reached by following the path as far as both the path and the levels go. -/
def descend : List (Level σ) → List Bool → σ → σ
  | level :: levels, right :: path, state => descend levels path ((level state).side right)
  | _, _, state => state

/-- The states at the end of all paths from a row of states, from left to right. -/
def widen (levels : List (Level σ)) (row : List σ) : List σ :=
  levels.foldl (fun row level => row.flatMap fun state => (level state).toList) row

/-- The leaves below a root, from left to right. -/
def leaves (levels : List (Level σ)) (root : σ) : List σ := widen levels [root]

@[simp] theorem length_widen (levels : List (Level σ)) (row : List σ) :
    (widen levels row).length = row.length <<< levels.length := by
  induction levels generalizing row with
  | nil => simp [widen]
  | cons level levels ih =>
    have hrow : (row.flatMap fun state => (level state).toList).length = 2 * row.length := by
      simp [List.length_flatMap, Fork.toList, List.map_const', Nat.mul_comm]
    have hstep : widen (level :: levels) row
        = widen levels (row.flatMap fun state => (level state).toList) := rfl
    rw [hstep, ih, hrow, List.length_cons, Nat.shiftLeft_succ_inside]

/-- A tree has as many leaves as there are indices with one bit for each level. -/
@[simp] theorem length_leaves (levels : List (Level σ)) (root : σ) :
    (leaves levels root).length = domainSize levels.length := by
  simp [leaves, domainSize]

end PointSharing.Tree
