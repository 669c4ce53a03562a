/-
Both keys of a pair in one.

The two keys of a pair differ only in their root seed and in the byte of the party, so one
copy of the rest and both seeds are enough.  `Compressed.ofPair` and `Compressed.split` go
from a pair to a compressed key and back, field by field; `Compressed.decompress` gives
the values of the function at all indices without making the pair.
-/
import PointSharing.MultiPoint.Evaluation

namespace PointSharing.MultiPoint

/-- A serialized compressed key with its declared sizes. -/
structure Compressed where
  /-- The serialized key. -/
  bytes : Bytes
  /-- The declared number of bytes of an output. -/
  dataSize : Nat
  /-- The declared number of bits of an index. -/
  rangeSize : Nat
  /-- The declared number of special points. -/
  points : Nat
  deriving DecidableEq

namespace Compressed

/-- The fields that the two keys of a pair share. -/
def sharedFields : List Field := [.rangeSize, .rangePoints, .levelCorrections, .payload]

/-- Refuses a pair that differs in some part. -/
def checkAgree (agree : Bool) (part : PairPart) : Except Error Unit :=
  if agree then .ok () else .error (.pairMismatch part)

/-- The compressed key of a pair, of which the first key has to be that of party A.  Both keys
have to be well formed before they are compared. -/
def ofPair (pair : Pair Key) : Except Error Compressed := do
  let ⟨a, b⟩ := pair
  let _ ← a.parse false
  let _ ← b.parse false
  checkAgree (a.rangeSize == b.rangeSize) (.field .rangeSize)
  checkAgree (a.points == b.points) (.field .rangePoints)
  checkAgree (a.dataSize == b.dataSize) .dataSize
  let plain ← Layout.multiPoint a.rangeSize a.points a.dataSize false
  checkAgree (plain.read a.bytes .party == [Party.a.toByte]
    && plain.read b.bytes .party == [Party.b.toByte]) (.field .party)
  sharedFields.forM fun field =>
    checkAgree (plain.read a.bytes field == plain.read b.bytes field) (.field field)
  let layout ← Layout.compressed a.rangeSize a.points a.dataSize
  let content : Field → Bytes
    | .secondRootSeed => plain.read b.bytes .rootSeed
    | field => plain.read a.bytes field
  return ⟨layout.build content, a.dataSize, a.rangeSize, a.points⟩

/-- The layout of a compressed key, if its bytes agree with its declared sizes. -/
def checkedLayout (key : Compressed) : Except Error Layout := do
  checkRangeSize key.rangeSize
  checkPointCount key.points
  let layout ← Layout.compressed key.rangeSize key.points key.dataSize
  layout.check key.bytes
  layout.checkHeader key.bytes .rangeSize key.rangeSize
  layout.checkHeader key.bytes .rangePoints key.points
  return layout

/-- The field of a compressed key that holds the root seed of a party. -/
def rootField : Party → Field
  | .a => .rootSeed
  | .b => .secondRootSeed

/-- The content of each field in the key of a party. -/
def content (key : Compressed) (layout : Layout) (party : Party) : Field → Bytes
  | .rootSeed => layout.read key.bytes (rootField party)
  | .party => [party.toByte]
  | field => layout.read key.bytes field

/-- The pair that a compressed key stands for. -/
def split (key : Compressed) : Except Error (Pair Key) := do
  let layout ← key.checkedLayout
  let plain ← Layout.multiPoint key.rangeSize key.points key.dataSize false
  return Pair.ofFn fun party =>
    ⟨plain.build (key.content layout party), key.dataSize, key.rangeSize, key.points⟩

/-- What the key of a party holds. -/
def parts (key : Compressed) (layout : Layout) (party : Party) : Parts :=
  Parts.ofFields key.rangeSize key.points key.dataSize false (key.content layout party)

/-- The values of the function at all indices, in ascending order: the sum of what the two
parties would compute. -/
def decompress (prg : Prg) (key : Compressed) : Except Error Bytes := do
  checkFullDomain key.rangeSize
  let layout ← key.checkedLayout
  allocateOutputs (domainSize key.rangeSize) key.dataSize
  let table (party : Party) : Bytes :=
    ((key.parts layout party).evaluator prg key.rangeSize key.dataSize).table
  return Bytes.xor (table .a) (table .b)

end Compressed

/-- The compressed key of the function whose value at each of the special indices is the word of
`data` in the same position, and zero elsewhere. -/
def compress (prg : Prg) (indices : List UInt64) (rangeSize points dataSize : Nat)
    (data : Bytes) : Draws Compressed := do
  let pair ← generate prg indices rangeSize points dataSize data
  Compressed.ofPair pair

end PointSharing.MultiPoint
