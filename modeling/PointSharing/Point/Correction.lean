/-
Corrections of single point keys, in bytes.

A correction with control bits takes eighteen bytes: the seed, then one byte for each
control bit.  Only the lowest bit of such a byte counts when it is read.
-/
import PointSharing.Node

namespace PointSharing

/-- A correction of a function with one special point. -/
abbrev BitCorrection := Correction Bool

/-- One byte that holds one bit. -/
def byteOfBit (bit : Bool) : UInt8 := if bit then 1 else 0

/-- The lowest bit of a byte. -/
def bitOfByte (byte : UInt8) : Bool := byte &&& 1 == 1

@[simp] theorem bitOfByte_byteOfBit (bit : Bool) : bitOfByte (byteOfBit bit) = bit := by
  cases bit <;> decide

namespace BitCorrection

/-- The eighteen bytes of a correction. -/
def toBytes (c : BitCorrection) : Bytes :=
  c.seed.toBytes ++ [byteOfBit c.left, byteOfBit c.right]

/-- The correction in the first eighteen bytes of a string. -/
def ofBytes (bytes : Bytes) : BitCorrection where
  seed := Block.ofBytes bytes
  left := bitOfByte ((bytes.drop 16).headD 0)
  right := bitOfByte ((bytes.drop 17).headD 0)

@[simp] theorem length_toBytes (c : BitCorrection) : c.toBytes.length = 18 := by
  simp [toBytes]

/-- A correction is read back from the beginning of any string that it was written to. -/
@[simp] theorem ofBytes_toBytes_append (c : BitCorrection) (rest : Bytes) :
    ofBytes (c.toBytes ++ rest) = c := by
  have h16 : (c.seed.toBytes ++ [byteOfBit c.left, byteOfBit c.right] ++ rest).drop 16
      = byteOfBit c.left :: byteOfBit c.right :: rest := by
    rw [List.append_assoc, List.drop_left' (by simp)]
    rfl
  have h17 : (c.seed.toBytes ++ [byteOfBit c.left, byteOfBit c.right] ++ rest).drop 17
      = byteOfBit c.right :: rest := by
    rw [show (17 : Nat) = 16 + 1 from rfl, ← List.drop_drop, h16]
    rfl
  have hseed : Block.ofBytes (c.seed.toBytes ++ [byteOfBit c.left, byteOfBit c.right] ++ rest)
      = c.seed := by
    rw [List.append_assoc]
    exact Block.ofBytes_toBytes_append _ _
  simp only [ofBytes, toBytes, h16, h17, hseed, List.headD_cons, bitOfByte_byteOfBit]

end BitCorrection

end PointSharing
