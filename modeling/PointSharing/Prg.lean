/-
The pseudorandom generator that trees grow from.

All of it comes from one cipher under one key, which both parties share.  A block is
stretched by the Matyas–Meyer–Oseas construction, the encryption of a block plus the
block.  Inputs that must not coincide are kept apart by their lowest bits: these are
cleared in a seed and then hold the number of the output.

The functions on top need nothing of the cipher but that it is a function, so a generator
is given by an arbitrary `encrypt` and `keystream`; `Prg.ofKey` supplies AES.
-/
import PointSharing.Cipher.Keystream
import PointSharing.Node
import PointSharing.SignVector

namespace PointSharing

/-- A block function with a keystream, from which seeds are expanded. -/
structure Prg where
  /-- The cipher under the shared key. -/
  encrypt : Block → Block
  /-- The first bytes of the stream under a key of its own. -/
  keystream : Block → Nat → Bytes
  /-- A stream can be made as long as it is asked for. -/
  length_keystream : ∀ key n, (keystream key n).length = n

namespace Prg

/-- The generator of AES under a key. -/
def ofBlock (key : Block) : Prg :=
  let schedule := Aes.Schedule.ofKey key
  { encrypt := schedule.encrypt
    keystream := Keystream.bytes
    length_keystream := Keystream.length_bytes }

/-- The generator of AES under a key of sixteen bytes. -/
def ofKey (key : Bytes) : Except Error Prg := return ofBlock (← Block.ofKey key)

variable (prg : Prg)

/-- The compression of a block: its encryption plus itself. -/
def compress (block : Block) : Block := prg.encrypt block ^^^ block

/-- The children of a seed with one control bit each, taken from the lowest bit of a child's
seed, which is then cleared.  The lowest bit of the given seed has no influence. -/
def expand (seed : Block) : Fork (Node Bool) :=
  let base := seed &&& ~~~1#128
  let child (block : Block) : Node Bool := ⟨block &&& ~~~1#128, block.getLsbD 0⟩
  ⟨child (prg.compress base), child (prg.compress (base ||| 1#128))⟩

/-- The children of a seed with a sign vector of `points` bits each.  The two lowest bits of the
given seed have no influence. -/
def expandSigns (points : Nat) (seed : Block) : Fork (Node SignVector) :=
  let base := seed &&& ~~~3#128
  let signs := prg.compress (base ||| 2#128)
  ⟨⟨prg.compress base, signs.extractLsb' 0 32 &&& SignVector.mask points⟩,
    ⟨prg.compress (base ||| 1#128), signs.extractLsb' 32 32 &&& SignVector.mask points⟩⟩

/-- The mask of `n` bytes that a leaf's seed gives. -/
def leafMask (seed : Block) (n : Nat) : Bytes := prg.keystream (prg.encrypt seed) n

@[simp] theorem length_leafMask (seed : Block) (n : Nat) : (prg.leafMask seed n).length = n :=
  prg.length_keystream _ n

end Prg

end PointSharing
