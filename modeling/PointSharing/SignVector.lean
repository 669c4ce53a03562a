/-
Sign vectors.

With several special points a node's control is a vector of bits, one for each point, and
the bits that are set select the corrections and payload words to add.  Point `k` is the
bit of weight `2 ^ k`.
-/
import PointSharing.Limits

namespace PointSharing

/-- One bit for each special point. -/
abbrev SignVector := BitVec 32

namespace SignVector

/-- The vector in which the bits of the first `points` points are set. -/
def mask (points : Nat) : SignVector :=
  if maxPoints ≤ points then BitVec.allOnes 32 else ~~~(BitVec.allOnes 32 <<< points)

/-- The vector in which only the bit of one point is set. -/
def single (point : Nat) : SignVector := BitVec.twoPow 32 point

/-- The points whose bits are set, in ascending order. -/
def points (sign : SignVector) : List Nat := (List.range maxPoints).filter (sign.getLsbD ·)

/-- The items of the points whose bits are set; a point without an item is passed over. -/
def select {α : Type} (sign : SignVector) (items : List α) : List α :=
  sign.points.filterMap (items[·]?)

/-- Adds the selected items to `start`, one after the other. -/
def sum {α β : Type} (add : β → α → β) (start : β) (sign : SignVector) (items : List α) : β :=
  (sign.select items).foldl add start

end SignVector

end PointSharing
