/-
Indices and the domain they range over.

A function of `n` bits is defined on the indices below `2 ^ n`, for `n` up to 64.  An index
names a leaf of a binary tree of depth `n`: its bits, the most significant of the `n`
first, say at each level whether to go left or right.
-/
import PointSharing.Limits

namespace PointSharing

/-- The index lies below `2 ^ rangeSize`. -/
def inDomain (index : UInt64) (rangeSize : Nat) : Bool :=
  -- every index has `maxRangeBits` bits at most
  maxRangeBits ≤ rangeSize || index.toNat >>> rangeSize == 0

/-- The bit of `index` that chooses the branch at a level, the most significant at level 0. -/
def branchBit (index : UInt64) (rangeSize level : Nat) : Bool :=
  index.toNat.testBit (rangeSize - 1 - level)

/-- The branches from the root to the leaf of `index`; `true` goes right. -/
def path (index : UInt64) (rangeSize : Nat) : List Bool :=
  (List.range rangeSize).map (branchBit index rangeSize)

@[simp] theorem length_path (index : UInt64) (rangeSize : Nat) :
    (path index rangeSize).length = rangeSize := by
  simp [path]

/-- The index lies in the domain. -/
def checkIndex (index : UInt64) (rangeSize : Nat) : Except Error Unit :=
  if inDomain index rangeSize then .ok () else .error (.indexOutOfDomain index rangeSize)

/-- Every index of a list of queries lies in the domain; the first that does not is reported. -/
def checkQueries (indices : List UInt64) (rangeSize : Nat) : Except Error Unit :=
  match indices.find? fun index => !inDomain index rangeSize with
  | some index => .error (.indexOutOfDomain index rangeSize)
  | none => .ok ()

/-- Checks the special indices from `position` on, of which the one before was `previous`: each
lies in the domain and is above the one before it.  Of two faults of one index, the first
counts. -/
def checkAscending (rangeSize : Nat) :
    (previous : Option UInt64) → (position : Nat) → List UInt64 → Except Error Unit
  | _, _, [] => .ok ()
  | previous, position, index :: rest =>
    if !inDomain index rangeSize then .error (.indexOutOfDomain index rangeSize)
    else if previous.any (index ≤ ·) then .error (.unordered position)
    else checkAscending rangeSize (some index) (position + 1) rest

/-- There are as many special indices as declared. -/
def checkIndexCount (indices : List UInt64) (points : Nat) : Except Error Unit :=
  if indices.length = points then .ok () else .error (.inputSize points indices.length)

/-- Special indices lie in the domain and are strictly increasing. -/
def checkSpecialIndices (indices : List UInt64) (rangeSize : Nat) : Except Error Unit :=
  checkAscending rangeSize none 0 indices

end PointSharing
