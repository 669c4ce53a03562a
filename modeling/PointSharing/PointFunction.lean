/-
The functions that are shared.

A point function is zero except at its special indices, where its value is a word of the
payload.  What the two parties compute from their keys adds up to the values defined here;
nothing in this file knows of keys or trees.
-/
import PointSharing.Limits

namespace PointSharing

/-- The value at `x` of the function that is `data` at `index` and zero elsewhere. -/
def Point.value (index : UInt64) (data : Bytes) (x : UInt64) : Bytes :=
  if x = index then data else Bytes.zeros data.length

/-- The value at `x` of the function that at each of the special indices is the word of `data` in
the same position, and zero elsewhere. -/
def MultiPoint.value (indices : List UInt64) (dataSize : Nat) (data : Bytes) (x : UInt64) :
    Bytes :=
  match indices.idxOf? x with
  | some k => (data.drop (k * dataSize)).take dataSize
  | none => Bytes.zeros dataSize

/-- The values of a function at all indices of `rangeSize` bits, in ascending order. -/
def table (rangeSize : Nat) (value : UInt64 → Bytes) : Bytes :=
  (List.range (domainSize rangeSize)).flatMap fun i => value (UInt64.ofNat i)

end PointSharing
