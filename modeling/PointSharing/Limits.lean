/-
Sizes and their limits.

Sizes are natural numbers, but the memory that holds keys and outputs is addressed with
64 bits, so a size above `maxSize` is refused wherever it would be the length of
something.  Arithmetic on sizes is therefore checked: `product` and `outputLength` give
the exact value or nothing, and never one reduced modulo 2^64.

A size need not be one that a buffer can have: a buffer takes up at most half of the addresses.
A call that needs room for more than `maxBuffer` bytes of outputs fails when it makes room for
them (`allocate`), which is not the same as being refused because their length is no size.
-/
import PointSharing.Bytes
import PointSharing.Error

namespace PointSharing

/-! ### Fixed sizes, in bytes and in blocks -/

/-- Bytes of a block. -/
def blockSize : Nat := 16

/-- Bytes of a level correction of a single point key: a seed and two control bits. -/
def bitCorrectionSize : Nat := 18

/-- Bytes of a level correction of a multi-point key: a seed and two sign vectors. -/
def signCorrectionSize : Nat := 24

/-- Blocks of a proof tag, and so of a value of either hash that works on tags. -/
def tagBlocks : Nat := 4

/-- Bytes of a proof tag. -/
def tagSize : Nat := tagBlocks * blockSize

/-- Bytes of a proof. -/
def proofSize : Nat := 32

/-! ### Limits on what a caller may ask for -/

/-- Indices have at most this many bits. -/
def maxRangeBits : Nat := 64

/-- Calls that visit or bound a whole domain take indices of at most this many bits. -/
def maxFullDomainBits : Nat := 32

/-- A sign vector has one bit for each special point, so there are at most this many. -/
def maxPoints : Nat := 32

/-- The largest size that can be addressed. -/
def maxSize : Nat := 0xffffffffffffffff

/-- The largest size of a buffer. -/
def maxBuffer : Nat := 0x7fffffffffffffff

/-- The number of indices of `rangeSize` bits. -/
def domainSize (rangeSize : Nat) : Nat := 1 <<< rangeSize

/-- Indices of `rangeSize` bits are supported. -/
def checkRangeSize (rangeSize : Nat) : Except Error Unit :=
  if rangeSize ≤ maxRangeBits then .ok () else .error (.domainTooLarge rangeSize maxRangeBits)

/-- A domain of indices of `rangeSize` bits may be visited as a whole. -/
def checkFullDomain (rangeSize : Nat) : Except Error Unit :=
  if rangeSize ≤ maxFullDomainBits then .ok ()
  else .error (.domainTooLarge rangeSize maxFullDomainBits)

/-- Functions with `points` special points are supported. -/
def checkPointCount (points : Nat) : Except Error Unit :=
  if points = 0 ∨ maxPoints < points then .error (.pointCount points maxPoints) else .ok ()

/-- The payload has the expected number of bytes. -/
def checkPayload (data : Bytes) (expected : Nat) : Except Error Unit :=
  if data.length = expected then .ok () else .error (.inputSize expected data.length)

/-! ### Checked arithmetic -/

/-- The product of two sizes, if it is a size. -/
def checkedMul (a b : Nat) : Option Nat :=
  if a * b ≤ maxSize then some (a * b) else none

/-- The product of sizes, multiplied from left to right; nothing if a product on the way is
too large, even if a later factor is zero. -/
def product (factors : List Nat) : Option Nat :=
  factors.foldlM checkedMul 1

/-- The length of `count` outputs of `dataSize` bytes each. -/
def outputLength (count dataSize : Nat) : Except Error Nat :=
  match checkedMul count dataSize with
  | some length => .ok length
  | none => .error (.inputSize maxSize dataSize)

/-! ### Making room -/

/-- Makes room for outputs of `length` bytes together. -/
def allocate (length : Nat) : Except Error Unit :=
  if length ≤ maxBuffer then .ok () else .error (.outputTooLarge length)

/-- Makes room for `count` outputs of `dataSize` bytes each, if their length is a size. -/
def allocateOutputs (count dataSize : Nat) : Except Error Unit := do
  allocate (← outputLength count dataSize)

end PointSharing
