/-
The states above the leaves.

A walk arrives at a node of every depth before it is at its leaf, and widening makes the row of
every depth before it has made the leaves.  Both are what is left if only the first levels are
there, and both give the same states: those at the nodes of the depth, by number.  So it is enough
to say something of the state at a node, and a fact that passes from a node to its children holds
wherever a party can come.
-/
import PointSharing.Proofs.Tree

namespace PointSharing

/-- The path to a node begins with the path to each of its ancestors. -/
theorem take_nodePath {depth n : Nat} (h : depth ≤ n) (node : Nat) :
    (nodePath n node).take depth = nodePath depth (node >>> (n - depth)) := by
  rw [nodePath, nodePath, ← List.map_take, List.take_range, Nat.min_eq_left h]
  refine List.map_congr_left fun level hlevel => ?_
  have hlt : level < depth := List.mem_range.mp hlevel
  rw [Nat.testBit_shiftRight, show n - depth + (depth - 1 - level) = n - 1 - level by omega]

namespace Tree

variable {σ : Type}

/-- To stop for want of levels is to stop for want of branches. -/
theorem descend_take (levels : List (Level σ)) (path : List Bool) (depth : Nat) (root : σ) :
    descend (levels.take depth) path root = descend levels (path.take depth) root := by
  induction depth generalizing levels path root with
  | zero => cases levels <;> cases path <;> rfl
  | succ depth ih =>
      cases levels with
      | nil => rfl
      | cons level levels =>
          cases path with
          | nil => rfl
          | cons right path => exact ih levels path ((level root).side right)

/-- What passes from a node to its children holds wherever a path leads. -/
theorem descend_inv {P : σ → Prop} {levels : List (Level σ)}
    (hstep : ∀ level ∈ levels, ∀ state right, P state → P ((level state).side right))
    (path : List Bool) {root : σ} (hroot : P root) : P (descend levels path root) := by
  induction levels generalizing path root with
  | nil => exact hroot
  | cons level levels ih =>
      cases path with
      | nil => exact hroot
      | cons right path =>
          exact ih (fun l hl => hstep l (by simp [hl])) path
            (hstep level (by simp) root right hroot)

end Tree

namespace Evaluator

variable {σ : Type} (e : Evaluator σ) {depth : Nat}

/-- The state at the node with a number at a depth, after as many levels. -/
def stateAt (depth node : Nat) : σ :=
  Tree.descend (e.levels.take depth) (nodePath depth node) e.root

/-- The states that widening has made after some levels, from left to right. -/
def row (depth : Nat) : List σ := Tree.leaves (e.levels.take depth) e.root

/-- A party comes to a state after some levels: on its way to an index, or by widening. -/
def Reaches (depth : Nat) (state : σ) : Prop :=
  (∃ index : UInt64,
    Tree.descend (e.levels.take depth) (path index e.rangeSize) e.root = state) ∨
  state ∈ e.row depth

theorem stateAt_eq (depth node : Nat) :
    e.stateAt depth node = Tree.descend e.levels (nodePath depth node) e.root := by
  rw [stateAt, Tree.descend_take,
    List.take_of_length_le (Nat.le_of_eq (length_nodePath depth node))]

/-- **On its way to an index a party is at the nodes of the index's first bits.** -/
theorem descend_path (h : depth ≤ e.rangeSize) (index : UInt64) :
    Tree.descend (e.levels.take depth) (path index e.rangeSize) e.root
      = e.stateAt depth (index.toNat >>> (e.rangeSize - depth)) := by
  rw [Tree.descend_take, path_eq_nodePath, take_nodePath h, stateAt_eq]

/-- **Widening makes the states at the nodes of a depth in the order of their numbers.** -/
theorem row_eq_map_stateAt (h : depth ≤ e.levels.length) :
    e.row depth = (List.range (domainSize depth)).map (e.stateAt depth) := by
  have hlength : (e.levels.take depth).length = depth := List.length_take_of_le h
  rw [row, Tree.leaves_eq_map_descend, hlength]
  rfl

/-- Wherever a party comes, there is a node with that state. -/
theorem Reaches.exists_stateAt {e : Evaluator σ} (hlevels : e.levels.length = e.rangeSize)
    (hdepth : depth ≤ e.rangeSize) {state : σ} (h : e.Reaches depth state) :
    ∃ node, e.stateAt depth node = state := by
  rcases h with ⟨index, rfl⟩ | hrow
  · exact ⟨_, (e.descend_path hdepth index).symm⟩
  · rw [e.row_eq_map_stateAt (hlevels ▸ hdepth)] at hrow
    obtain ⟨node, -, hnode⟩ := List.mem_map.mp hrow
    exact ⟨node, hnode⟩

/-- **What passes from a node to its children holds wherever a party comes.** -/
theorem Reaches.inv {e : Evaluator σ} (hlevels : e.levels.length = e.rangeSize)
    (hdepth : depth ≤ e.rangeSize) {P : σ → Prop}
    (hstep : ∀ level ∈ e.levels, ∀ state right, P state → P ((level state).side right))
    (hroot : P e.root) {state : σ} (h : e.Reaches depth state) : P state := by
  obtain ⟨node, rfl⟩ := h.exists_stateAt hlevels hdepth
  rw [stateAt_eq]
  exact Tree.descend_inv hstep _ hroot

end Evaluator

end PointSharing
