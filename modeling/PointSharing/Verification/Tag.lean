/-
Proof tags.

A tag is four blocks.  Every leaf that is evaluated contributes one to the proof, and the
state that they are folded into is one too.
-/
import PointSharing.Block
import PointSharing.Limits

namespace PointSharing

/-- Four blocks that stand for a leaf, or for the leaves seen so far. -/
structure Tag where
  /-- The blocks. -/
  blocks : Vector Block tagBlocks
  deriving DecidableEq

namespace Tag

/-- The tag whose blocks are all zero. -/
def zero : Tag := ⟨Vector.replicate tagBlocks 0⟩

instance : XorOp Tag := ⟨fun s t => ⟨Vector.zipWith (· ^^^ ·) s.blocks t.blocks⟩⟩

/-- The blocks in order. -/
def toList (tag : Tag) : List Block := tag.blocks.toList

/-- The sixty-four bytes of a tag. -/
def toBytes (tag : Tag) : Bytes := Block.listToBytes tag.toList

/-- The tag in the first sixty-four bytes of a string.  A block that is not there in full counts
as zero. -/
def ofBytes (bytes : Bytes) : Tag where
  blocks := Vector.ofFn fun i =>
    let rest := bytes.drop (blockSize * i)
    if blockSize ≤ rest.length then Block.ofBytes rest else 0

@[simp] theorem length_toBytes (tag : Tag) : tag.toBytes.length = tagSize := by
  simp [toBytes, Block.listToBytes, toList, List.length_flatMap, List.map_const', tagSize, blockSize]

end Tag

end PointSharing
