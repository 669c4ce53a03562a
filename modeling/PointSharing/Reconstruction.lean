/-
Putting the shares of two parties together.

The value of a shared function is the sum of what the two parties compute from their keys.
-/
import PointSharing.MultiPoint.Evaluation
import PointSharing.Point.Evaluation

namespace PointSharing

/-- The value that two shares of the same length stand for. -/
def reconstruct (a b : Bytes) : Except Error Bytes := do
  checkPayload b a.length
  return Bytes.xor a b

/-- The value at an index of the function with one special point that a key pair shares. -/
def Point.evaluatePair (prg : Prg) (pair : Pair Key) (index : UInt64) : Except Error Bytes := do
  reconstruct (← evaluate prg pair.a index) (← evaluate prg pair.b index)

/-- The value at an index of the function with several special points that a key pair shares. -/
def MultiPoint.evaluatePair (prg : Prg) (pair : Pair Key) (index : UInt64) :
    Except Error Bytes := do
  reconstruct (← evaluate prg pair.a index) (← evaluate prg pair.b index)

end PointSharing
