/-
Keys of functions with one special point.

A key is a byte string with the sizes that are declared for it.  The declaration is not
part of the bytes and may contradict them, so a key is parsed, and checked, whenever it is
used.  `Parts` is what a key holds; `Parts.content` says how each field of the layout is
written and `Parts.ofFields` how it is read.
-/
import PointSharing.Layout
import PointSharing.Pair
import PointSharing.Point.Correction
import PointSharing.Verification.Tag

namespace PointSharing.Point

/-- A serialized key with its declared sizes. -/
structure Key where
  /-- The serialized key. -/
  bytes : Bytes
  /-- The declared number of bytes of an output. -/
  dataSize : Nat
  /-- The declared number of bits of an index. -/
  rangeSize : Nat
  deriving DecidableEq

/-- What one party's key holds. -/
structure Parts where
  /-- The seed at the root. -/
  rootSeed : Block
  /-- Whose key it is, which gives the control bit at the root. -/
  party : Party
  /-- The corrections, one for each level from the root down. -/
  corrections : List BitCorrection
  /-- The payload, masked by the leaves at the special index. -/
  payload : Bytes
  /-- What is added to the tag of a leaf whose control bit is set; zero in a key without
  proofs. -/
  proofCorrection : Tag
  deriving DecidableEq

namespace Parts

/-- The content of each field of a key. -/
def content (parts : Parts) (rangeSize : Nat) : Field → Bytes
  | .rangeSize => [UInt8.ofNat rangeSize]
  | .rootSeed => parts.rootSeed.toBytes
  | .rootBit => [parts.party.toByte]
  | .levelCorrections => parts.corrections.flatMap BitCorrection.toBytes
  | .payload => parts.payload
  | .proofCorrection => parts.proofCorrection.toBytes
  | .rangePoints | .party | .secondRootSeed => []

/-- What the fields of a key with `rangeSize` levels say. -/
def ofFields (rangeSize : Nat) (field : Field → Bytes) : Parts where
  rootSeed := Block.ofBytes (field .rootSeed)
  party := Party.ofByte ((field .rootBit).headD 0)
  corrections :=
    (Bytes.words bitCorrectionSize rangeSize (field .levelCorrections)).map BitCorrection.ofBytes
  payload := field .payload
  proofCorrection := Tag.ofBytes (field .proofCorrection)

end Parts

/-- The parts of a key, if its bytes agree with its declared sizes. -/
def Key.parse (key : Key) (verifiable : Bool) : Except Error Parts := do
  checkRangeSize key.rangeSize
  let layout ← Layout.point key.rangeSize key.dataSize verifiable
  layout.check key.bytes
  layout.checkHeader key.bytes .rangeSize key.rangeSize
  return Parts.ofFields key.rangeSize (layout.read key.bytes)

end PointSharing.Point
