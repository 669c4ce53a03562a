/-
Byte strings.

Everything that crosses the boundary of the library is a byte string: keys, payloads,
shares and proofs.  A byte string is a list of `UInt8`, so that cutting and joining are
the list operations `take`, `drop` and `++` and can be reasoned about as such.

The two operations that lists do not bring along are here.  `xor` adds a string into
another of possibly different length: only the common part changes and the length is
that of the first, which is what lets a short word be added into a longer buffer.
`words` cuts a string into a stated number of words; the count is given and not derived
from the length, because words of zero bytes have to be counted too.
-/

namespace PointSharing

/-- A byte string. -/
abbrev Bytes := List UInt8

namespace Bytes

/-- The string of `n` zero bytes. -/
def zeros (n : Nat) : Bytes := List.replicate n 0

@[simp] theorem length_zeros (n : Nat) : (zeros n).length = n := by
  simp [zeros]

/-! ### Addition -/

/-- Adds `b` into `a`: the common part is added bytewise and the rest of `a` is kept. -/
def xor (a b : Bytes) : Bytes :=
  List.zipWith (· ^^^ ·) a b ++ a.drop b.length

@[simp] theorem length_xor (a b : Bytes) : (xor a b).length = a.length := by
  simp only [xor, List.length_append, List.length_zipWith, List.length_drop]
  omega

@[simp] theorem xor_nil (a : Bytes) : xor a [] = a := by
  simp [xor]

@[simp] theorem nil_xor (b : Bytes) : xor [] b = [] := by
  simp [xor]

@[simp] theorem xor_cons (x y : UInt8) (a b : Bytes) :
    xor (x :: a) (y :: b) = (x ^^^ y) :: xor a b := by
  simp [xor]

/-! ### Replacement -/

/-- Writes `new` over the beginning of `out`; the rest of `out` is kept. -/
def overwrite (out new : Bytes) : Bytes := new ++ out.drop new.length

/-! ### Words of equal size -/

/-- Cuts `bytes` into `count` words of `size` bytes, in order. -/
def words (size : Nat) : Nat → Bytes → List Bytes
  | 0, _ => []
  | count + 1, bytes => bytes.take size :: words size count (bytes.drop size)

@[simp] theorem length_words (size count : Nat) (bytes : Bytes) :
    (words size count bytes).length = count := by
  induction count generalizing bytes with
  | zero => rfl
  | succ count ih => simp [words, ih]

end Bytes

end PointSharing
