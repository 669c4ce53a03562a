/-
How keys are laid out in bytes.

A layout is an ordered table of fields with their lengths.  The fields of a key follow
each other without gaps, so the table gives everything: the size of a key, where each
field begins, how a key is put together (`build`) and how a field is read back (`read`).
A field that a layout does not have is read as the empty string at the end of the key.

The tables of the three kinds of keys are at the end.  Their lengths are products of sizes
that a caller chooses, and a table is only made if the whole key can be addressed.
-/
import PointSharing.Limits

namespace PointSharing

/-- Where a field lies in a key. -/
structure Span where
  /-- The offset of the first byte. -/
  start : Nat
  /-- The offset after the last byte. -/
  stop : Nat
  deriving DecidableEq

/-- The fields of a kind of key, in order, with their lengths in bytes. -/
structure Layout where
  /-- The table. -/
  fields : List (Field × Nat)
  deriving DecidableEq

namespace Layout

/-! ### What a table says -/

/-- The length of a key. -/
def size (layout : Layout) : Nat := layout.fields.foldr (fun entry rest => entry.2 + rest) 0

/-- The field occurs in keys of this layout. -/
def has (layout : Layout) (field : Field) : Bool := layout.fields.any fun entry => entry.1 == field

/-- Where `field` lies if `fields` begin at `offset`. -/
def spanFrom (field : Field) : (offset : Nat) → List (Field × Nat) → Span
  | offset, [] => ⟨offset, offset⟩
  | offset, (f, length) :: fields =>
    if f = field then ⟨offset, offset + length⟩ else spanFrom field (offset + length) fields

/-- Where a field lies; a missing field is empty and at the end. -/
def span (layout : Layout) (field : Field) : Span := spanFrom field 0 layout.fields

/-! ### Keys of a layout -/

/-- The bytes of a field. -/
def read (layout : Layout) (key : Bytes) (field : Field) : Bytes :=
  let span := layout.span field
  (key.drop span.start).take (span.stop - span.start)

/-- The key in which the bytes of a field are replaced by as many others. -/
def write (layout : Layout) (key : Bytes) (field : Field) (content : Bytes) : Bytes :=
  let span := layout.span field
  key.take span.start ++ content ++ key.drop span.stop

/-- The key that is zero throughout. -/
def blank (layout : Layout) : Bytes := Bytes.zeros layout.size

@[simp] theorem length_blank (layout : Layout) : layout.blank.length = layout.size :=
  Bytes.length_zeros layout.size

/-- The key with the given content in each field. -/
def build (layout : Layout) (content : Field → Bytes) : Bytes :=
  layout.fields.flatMap fun entry => content entry.1

/-- The key has the length that the layout asks for. -/
def check (layout : Layout) (key : Bytes) : Except Error Unit :=
  if key.length = layout.size then .ok () else .error (.keyCorrupted layout.size key.length)

/-- The number in the first byte of a field; zero if the field is empty. -/
def header (layout : Layout) (key : Bytes) (field : Field) : Nat :=
  ((layout.read key field).headD 0).toNat

/-- The number in the first byte of a field is the declared one. -/
def checkHeader (layout : Layout) (key : Bytes) (field : Field) (expected : Nat) :
    Except Error Unit :=
  if layout.header key field = expected then .ok ()
  else .error (.headerMismatch field expected (layout.header key field))

/-! ### The kinds of keys -/

/-- The table with the given lengths, if all of them and their sum are sizes. -/
def ofLengths (dataSize : Nat) (fields : List (Field × Option Nat)) : Except Error Layout :=
  match fields.mapM fun entry => entry.2.map (entry.1, ·) with
  | some fields =>
    let layout : Layout := ⟨fields⟩
    if layout.size ≤ maxSize then .ok layout else .error (.inputSize maxSize dataSize)
  | none => .error (.inputSize maxSize dataSize)

/-- Keys of functions with one special point: `18 * rangeSize + 18 + dataSize` bytes, and 64
more if evaluations are to be proved. -/
def point (rangeSize dataSize : Nat) (verifiable : Bool) : Except Error Layout :=
  ofLengths dataSize <|
    [(.rangeSize, some 1),
      (.rootSeed, some blockSize),
      (.rootBit, some 1),
      (.levelCorrections, product [bitCorrectionSize, rangeSize]),
      (.payload, some dataSize)]
    ++ if verifiable then [(.proofCorrection, some tagSize)] else []

/-- Keys of functions with several special points: `24 * rangeSize * points + 19 + dataSize *
points` bytes, and 64 more for each point if evaluations are to be proved. -/
def multiPoint (rangeSize points dataSize : Nat) (verifiable : Bool) : Except Error Layout :=
  ofLengths dataSize <|
    [(.rangeSize, some 1),
      (.rangePoints, some 1),
      (.rootSeed, some blockSize),
      (.party, some 1),
      (.levelCorrections, product [signCorrectionSize, rangeSize, points]),
      (.payload, product [dataSize, points])]
    ++ if verifiable then [(.proofCorrection, product [tagSize, points])] else []

/-- Both keys of a pair in one: `24 * rangeSize * points + 34 + dataSize * points` bytes. -/
def compressed (rangeSize points dataSize : Nat) : Except Error Layout :=
  ofLengths dataSize
    [(.rangeSize, some 1),
      (.rangePoints, some 1),
      (.rootSeed, some blockSize),
      (.secondRootSeed, some blockSize),
      (.levelCorrections, product [signCorrectionSize, rangeSize, points]),
      (.payload, product [dataSize, points])]

end Layout

end PointSharing
