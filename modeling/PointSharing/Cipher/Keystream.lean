/-
The keystream of a cipher in counter mode.

The stream is the concatenation of the encryptions of 0, 1, 2, … under one key, each
counter written as sixteen bytes with the most significant first.  A mask of `n` bytes is
the first `n` bytes of it, so a shorter mask is the beginning of a longer one.
-/
import PointSharing.Cipher.Aes

namespace PointSharing.Keystream

/-- The block whose bytes are the number `i`, most significant byte first. -/
def counter (i : Nat) : Block := Block.ofBytes (LittleEndian.encode 16 i).reverse

/-- The first `n` bytes of the stream under `key`. -/
def bytes (key : Block) (n : Nat) : Bytes :=
  let schedule := Aes.Schedule.ofKey key
  ((List.range ((n + 15) / 16)).flatMap fun i =>
    (schedule.encrypt (counter i)).toBytes).take n

@[simp] theorem length_bytes (key : Block) (n : Nat) : (bytes key n).length = n := by
  simp only [bytes, List.length_take, List.length_flatMap, Block.length_toBytes,
    List.map_const', List.length_range, List.sum_replicate_nat]
  omega

end PointSharing.Keystream
