/-
The fields that a serialized key can have.

Each kind of key is an ordered selection of these fields; which ones and how long they
are is said by `PointSharing.Layout`.  Here are only the names, because errors mention
them too.
-/

namespace PointSharing

/-- A field of a serialized key. -/
inductive Field where
  /-- The number of bits of an index, one byte. -/
  | rangeSize
  /-- The number of special points, one byte. -/
  | rangePoints
  /-- The seed at the root of the tree; in a compressed key, that of party A. -/
  | rootSeed
  /-- The control bit at the root of a single point key, one byte. -/
  | rootBit
  /-- Which party a multi-point key belongs to, one byte. -/
  | party
  /-- In a compressed key, the seed at the root of party B's tree. -/
  | secondRootSeed
  /-- The corrections of every level, from the root down. -/
  | levelCorrections
  /-- The payload words, masked by the leaves they belong to. -/
  | payload
  /-- The tags that make the proofs of the two parties agree. -/
  | proofCorrection
  deriving DecidableEq

namespace Field

/-- The name of a field in messages. -/
def name : Field → String
  | rangeSize => "range size"
  | rangePoints => "range points"
  | rootSeed => "root seed"
  | rootBit => "root bit"
  | party => "party"
  | secondRootSeed => "second root seed"
  | levelCorrections => "level corrections"
  | payload => "payload"
  | proofCorrection => "proof correction"

end Field

end PointSharing
