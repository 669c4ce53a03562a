/-
Keys of functions with several special points.

As with a single point, a key is a byte string with declared sizes and is parsed whenever
it is used.  A level has one correction for each special point, and there is one payload
word and, for evaluation with proof, one proof correction for each.
-/
import PointSharing.Layout
import PointSharing.MultiPoint.Correction
import PointSharing.Pair
import PointSharing.Verification.Tag

namespace PointSharing.MultiPoint

/-- A serialized key with its declared sizes. -/
structure Key where
  /-- The serialized key. -/
  bytes : Bytes
  /-- The declared number of bytes of an output. -/
  dataSize : Nat
  /-- The declared number of bits of an index. -/
  rangeSize : Nat
  /-- The declared number of special points. -/
  points : Nat
  deriving DecidableEq

/-- What one party's key holds. -/
structure Parts where
  /-- The seed at the root. -/
  rootSeed : Block
  /-- Whose key it is, which gives the sign vector at the root. -/
  party : Party
  /-- For each level from the root down, one correction for each point. -/
  levels : List (List SignCorrection)
  /-- The payload words, each masked by the leaves at its special index. -/
  payload : List Bytes
  /-- For each point, what is added to the tag of a leaf whose sign vector selects it; nothing
  in a key without proofs. -/
  proofCorrections : List Tag
  /-- The number of special points. -/
  points : Nat
  deriving DecidableEq

/-- The content of the field of level corrections. -/
def encodeLevels (levels : List (List SignCorrection)) : Bytes :=
  levels.flatMap fun corrections => corrections.flatMap SignCorrection.toBytes

/-- The corrections of `rangeSize` levels with `points` corrections each. -/
def decodeLevels (rangeSize points : Nat) (bytes : Bytes) : List (List SignCorrection) :=
  (Bytes.words (signCorrectionSize * points) rangeSize bytes).map fun level =>
    (Bytes.words signCorrectionSize points level).map SignCorrection.ofBytes

namespace Parts

/-- The content of each field of a key. -/
def content (parts : Parts) (rangeSize : Nat) : Field → Bytes
  | .rangeSize => [UInt8.ofNat rangeSize]
  | .rangePoints => [UInt8.ofNat parts.points]
  | .rootSeed => parts.rootSeed.toBytes
  | .party => [parts.party.toByte]
  | .levelCorrections => encodeLevels parts.levels
  | .payload => parts.payload.flatten
  | .proofCorrection => parts.proofCorrections.flatMap Tag.toBytes
  | .rootBit | .secondRootSeed => []

/-- What the fields of a key with the given sizes say. -/
def ofFields (rangeSize points dataSize : Nat) (verifiable : Bool) (field : Field → Bytes) :
    Parts where
  rootSeed := Block.ofBytes (field .rootSeed)
  party := Party.ofByte ((field .party).headD 0)
  levels := decodeLevels rangeSize points (field .levelCorrections)
  payload := Bytes.words dataSize points (field .payload)
  proofCorrections :=
    if verifiable then (Bytes.words tagSize points (field .proofCorrection)).map Tag.ofBytes
    else []
  points := points

end Parts

/-- The parts of a key, if its bytes agree with its declared sizes. -/
def Key.parse (key : Key) (verifiable : Bool) : Except Error Parts := do
  checkRangeSize key.rangeSize
  checkPointCount key.points
  let layout ← Layout.multiPoint key.rangeSize key.points key.dataSize verifiable
  layout.check key.bytes
  layout.checkHeader key.bytes .rangeSize key.rangeSize
  layout.checkHeader key.bytes .rangePoints key.points
  return Parts.ofFields key.rangeSize key.points key.dataSize verifiable (layout.read key.bytes)

end PointSharing.MultiPoint
