/-
Hashes on blocks.

A hash chains the Matyas–Meyer–Oseas compression of a keyed cipher over its input.  Each
output block is a chain of its own, started from the number of the block.  Two such hashes
under public keys are used in proofs: one makes a tag from a leaf, the other folds tags.
Both parties have to use the same two keys.
-/
import PointSharing.Cipher.Aes
import PointSharing.Tape
import PointSharing.Verification.Tag

namespace PointSharing

/-- A hash from lists of blocks to `outBlocks` blocks, given by its cipher. -/
structure MmoHash (outBlocks : Nat) where
  /-- The cipher under the key of the hash. -/
  encrypt : Block → Block

namespace MmoHash

variable {outBlocks : Nat}

/-- The hash of AES under a key. -/
def ofBlock (key : Block) : MmoHash outBlocks :=
  let schedule := Aes.Schedule.ofKey key
  ⟨schedule.encrypt⟩

/-- The hash of AES under a key of sixteen bytes. -/
def ofKey (key : Bytes) : Except Error (MmoHash outBlocks) := return ofBlock (← Block.ofKey key)

/-- The compression of a block: its encryption plus itself. -/
def compress (h : MmoHash outBlocks) (block : Block) : Block := h.encrypt block ^^^ block

/-- The chain over the input from a start. -/
def chain (h : MmoHash outBlocks) (start : Block) (input : List Block) : Block :=
  input.foldl (fun chain block => h.compress (chain ^^^ block)) start

/-- The hash of a list of blocks; output block `i` is the chain from `i`. -/
def hash (h : MmoHash outBlocks) (input : List Block) : Vector Block outBlocks :=
  Vector.ofFn fun i => h.chain (BitVec.ofNat 128 i) input

end MmoHash

/-- The public keys of the two hashes. -/
structure HashKeys where
  /-- The key of the hash that makes tags from leaves. -/
  h1 : Block
  /-- The key of the hash that folds tags. -/
  h2 : Block
  deriving DecidableEq

namespace HashKeys

/-- Two keys of sixteen bytes each; the first is checked first. -/
def ofBytes (h1 h2 : Bytes) : Except Error HashKeys := do
  return ⟨← Block.ofKey h1, ← Block.ofKey h2⟩

/-- Two random keys. -/
def draw : StateM Tape HashKeys := do
  return ⟨← Tape.draw, ← Tape.draw⟩

end HashKeys

end PointSharing
