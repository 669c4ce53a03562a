/-
Evaluating a party's tree.

Whatever the states of the nodes are, a party evaluates its key in the same way: it walks
from the root to the leaf of an index, or widens the whole tree, and turns the leaves it
arrives at into outputs.  What a kind of key has to supply for this is an `Evaluator`.
-/
import PointSharing.Domain
import PointSharing.Tree

namespace PointSharing

/-- A tree with an output at every leaf; `σ` is the type of the states of its nodes. -/
structure Evaluator (σ : Type) where
  /-- The number of bits of an index. -/
  rangeSize : Nat
  /-- The number of bytes of an output. -/
  dataSize : Nat
  /-- The state at the root. -/
  root : σ
  /-- The levels from the root down, one for each bit of an index. -/
  levels : List (Tree.Level σ)
  /-- The output at a leaf. -/
  output : σ → Bytes

namespace Evaluator

variable {σ : Type} (evaluator : Evaluator σ)

/-- The state at the leaf of an index. -/
def leafAt (index : UInt64) : σ :=
  Tree.descend evaluator.levels (path index evaluator.rangeSize) evaluator.root

/-- The states at all leaves, in ascending order of their indices. -/
def leaves : List σ := Tree.leaves evaluator.levels evaluator.root

/-- The outputs at all leaves, in ascending order of their indices. -/
def table : Bytes := evaluator.leaves.flatMap evaluator.output

/-- The output at an index of the domain. -/
def evaluate (index : UInt64) : Except Error Bytes := do
  checkIndex index evaluator.rangeSize
  return evaluator.output (evaluator.leafAt index)

/-- The outputs at all indices, if they fit into a buffer. -/
def evaluateAll : Except Error Bytes := do
  allocate (domainSize evaluator.rangeSize * evaluator.dataSize)
  return evaluator.table

end Evaluator

end PointSharing
