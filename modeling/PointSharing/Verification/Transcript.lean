/-
Proofs of evaluation.

A proof is a digest of the tags of all leaves that were evaluated, in the order of
evaluation.  The tags are folded into a state of one tag, each step adding the hash of the
state plus the tag.  Two parties that fold the same tags from the same start therefore
have the same proof, whatever else differs between them.
-/
import PointSharing.Digest.Sha256
import PointSharing.Verification.Hash

namespace PointSharing

/-- The two hashes that proofs are made with. -/
structure Hashes where
  /-- Makes tags from leaves. -/
  leaf : MmoHash tagBlocks
  /-- Folds tags. -/
  fold : MmoHash tagBlocks

namespace Hashes

/-- The hashes of AES under two keys. -/
def ofKeys (keys : HashKeys) : Hashes := ⟨MmoHash.ofBlock keys.h1, MmoHash.ofBlock keys.h2⟩

variable (hashes : Hashes)

/-- The tag of the leaf of an index, which binds the index and the leaf's seed. -/
def leafTag (index : UInt64) (seed : Block) : Tag :=
  ⟨hashes.leaf.hash [BitVec.ofNat 128 index.toNat, seed]⟩

/-- Folds a tag into a state. -/
def absorb (state tag : Tag) : Tag := state ^^^ ⟨hashes.fold.hash (state ^^^ tag).toList⟩

/-- The proof for some tags, folded in order from a start. -/
def prove (start : Tag) (tags : List Tag) : Bytes :=
  Sha256.digest (tags.foldl hashes.absorb start).toBytes

@[simp] theorem length_prove (start : Tag) (tags : List Tag) :
    (hashes.prove start tags).length = proofSize :=
  Sha256.length_digest _

end Hashes

end PointSharing
