/-
The nodes above the special indices.

A node at some depth is named by the bits that lead to it, read as a number.  It is active
if a special index lies below it.  Special indices are given in ascending order, so the
indices below one node stand next to each other, and so do the nodes of a depth in the
order in which this module lists them.  A node's position in that list is the point whose
bit distinguishes the two parties there.
-/
import PointSharing.Domain

namespace PointSharing.MultiPoint

/-- A list with every run of equal neighbours shortened to one. -/
def mergeRuns : List Nat → List Nat
  | [] => []
  | [x] => [x]
  | x :: y :: rest => if x = y then mergeRuns (y :: rest) else x :: mergeRuns (y :: rest)

/-- The active nodes at a depth, in ascending order if the indices are. -/
def activePrefixes (indices : List UInt64) (rangeSize depth : Nat) : List Nat :=
  mergeRuns (indices.map fun index => index.toNat >>> (rangeSize - depth))

/-- Where the special path goes on from an active node: the positions of its active children. -/
structure Branch where
  /-- The position of the left child among the active nodes one level down. -/
  left : Option Nat
  /-- The position of the right child among the active nodes one level down. -/
  right : Option Nat
  deriving DecidableEq

/-- The branches of the active nodes at a depth, in their order. -/
def branches (indices : List UInt64) (rangeSize depth : Nat) : List Branch :=
  let next := activePrefixes indices rangeSize (depth + 1)
  (activePrefixes indices rangeSize depth).map fun node =>
    ⟨next.idxOf? (2 * node), next.idxOf? (2 * node + 1)⟩

/-- Both children are active, so that neither can be left to become equal. -/
def Branch.isSplit (branch : Branch) : Bool := branch.left.isSome && branch.right.isSome

end PointSharing.MultiPoint
