/-
What can go wrong.

An error is a cause together with the numbers that describe it; the wording is in
`Error.message` and nowhere else.  All checks of the library fail with one of these, and
a call that makes several checks reports the first that fails.
-/
import PointSharing.Field

namespace PointSharing

/-- Something in which the two keys of a pair have to agree, or be opposite. -/
inductive PairPart where
  /-- A field of the serialized keys. -/
  | field (f : Field)
  /-- The declared number of bytes of a payload word. -/
  | dataSize
  deriving DecidableEq

/-- The name of the part in messages. -/
def PairPart.name : PairPart → String
  | field f => f.name
  | dataSize => "data size"

/-- Why a call was refused. -/
inductive Error where
  /-- A cipher or hash key is not 16 bytes long. -/
  | keyLength (actual : Nat)
  /-- A buffer or a list does not have the length that the declared sizes ask for. -/
  | inputSize (expected actual : Nat)
  /-- Indices are wider than the call supports. -/
  | domainTooLarge (rangeSize max : Nat)
  /-- A serialized key does not have the length that its declared sizes give. -/
  | keyCorrupted (expected actual : Nat)
  /-- A header byte of a serialized key contradicts a declared size. -/
  | headerMismatch (field : Field) (expected actual : Nat)
  /-- The special index at `position` is not above the one before it. -/
  | unordered (position : Nat)
  /-- An index does not have a leaf in the tree. -/
  | indexOutOfDomain (index : UInt64) (rangeSize : Nat)
  /-- The number of special points is zero or above the limit. -/
  | pointCount (points max : Nat)
  /-- Two keys are not the two halves of one pair. -/
  | pairMismatch (part : PairPart)
  /-- The outputs of a call do not fit into a buffer. -/
  | outputTooLarge (length : Nat)
  deriving DecidableEq

/-- The text that describes an error. -/
def Error.message : Error → String
  | keyLength actual => s!"Invalid key length: expected 16 bytes, got {actual}"
  | inputSize expected actual =>
    s!"Input size mismatch: expected {expected} bytes, got {actual}"
  | domainTooLarge rangeSize max => s!"Range size {rangeSize} exceeds the maximum of {max}"
  | keyCorrupted expected actual => s!"Key corrupted: expected {expected} bytes, got {actual}"
  | headerMismatch field expected actual =>
    s!"Key header mismatch on {field.name}: expected {expected}, got {actual}"
  | unordered position =>
    s!"Special indices are not strictly increasing at position {position}"
  | indexOutOfDomain index rangeSize =>
    s!"Index {index} is outside the domain of size 2^{rangeSize}"
  | pointCount points max => s!"Point count {points} not supported, expected 1..={max}"
  | pairMismatch part => s!"Keys do not form a pair: {part.name} differs"
  | outputTooLarge length => s!"Output of {length} bytes does not fit into a buffer"

end PointSharing
