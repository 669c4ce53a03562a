/-
Blocks of 128 bits.

A block is what the cipher works on and what a seed is.  As bytes a block is written with
the least significant byte first, in all keys and hashes alike.
-/
import PointSharing.Error
import PointSharing.LittleEndian

namespace PointSharing

/-- A block of 128 bits: a seed, a cipher key, or a cipher's input or output. -/
abbrev Block := BitVec 128

namespace Block

/-- The sixteen bytes of a block. -/
def toBytes (block : Block) : Bytes := LittleEndian.encode 16 block.toNat

/-- The block in the first sixteen bytes of a string; bytes that are missing count as zero. -/
def ofBytes (bytes : Bytes) : Block := BitVec.ofNat 128 (LittleEndian.decode (bytes.take 16))

@[simp] theorem length_toBytes (block : Block) : block.toBytes.length = 16 :=
  LittleEndian.length_encode 16 block.toNat

/-- A block is read back from the beginning of any string that it was written to. -/
@[simp] theorem ofBytes_toBytes_append (block : Block) (rest : Bytes) :
    ofBytes (block.toBytes ++ rest) = block := by
  have h : (block.toBytes ++ rest).take 16 = block.toBytes := List.take_left' (by simp)
  have hlt := block.isLt
  apply BitVec.eq_of_toNat_eq
  rw [ofBytes, h, toBytes, LittleEndian.decode_encode, BitVec.toNat_ofNat, Nat.shiftLeft_eq]
  omega

@[simp] theorem ofBytes_toBytes (block : Block) : ofBytes block.toBytes = block := by
  simpa using ofBytes_toBytes_append block []

/-- Every string of sixteen bytes is what some block is written as. -/
theorem toBytes_ofBytes {bytes : Bytes} (h : bytes.length = 16) :
    (ofBytes bytes).toBytes = bytes := by
  have htake : bytes.take 16 = bytes := List.take_of_length_le (by omega)
  have hlt := LittleEndian.decode_lt bytes
  rw [h] at hlt
  have hmod : LittleEndian.decode bytes % 2 ^ 128 = LittleEndian.decode bytes :=
    Nat.mod_eq_of_lt (by simpa using hlt)
  rw [ofBytes, htake, toBytes, BitVec.toNat_ofNat, hmod, ← h]
  exact LittleEndian.encode_decode bytes

/-- A key of a cipher or a hash, which has to be sixteen bytes. -/
def ofKey (key : Bytes) : Except Error Block :=
  if key.length = 16 then .ok (ofBytes key) else .error (.keyLength key.length)

/-- The bytes of several blocks, one after the other. -/
def listToBytes (blocks : List Block) : Bytes := blocks.flatMap toBytes

end Block

end PointSharing
