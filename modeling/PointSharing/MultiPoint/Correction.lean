/-
Corrections of multi-point keys, in bytes.

A correction with sign vectors takes twenty-four bytes: the seed, then four bytes for each
vector, least significant first.  Every string of twenty-four bytes is one.
-/
import PointSharing.Node
import PointSharing.SignVector

namespace PointSharing

/-- The four bytes of a sign vector. -/
def SignVector.toBytes (sign : SignVector) : Bytes := LittleEndian.encode 4 sign.toNat

/-- The sign vector in the first four bytes of a string. -/
def SignVector.ofBytes (bytes : Bytes) : SignVector :=
  BitVec.ofNat 32 (LittleEndian.decode (bytes.take 4))

@[simp] theorem SignVector.length_toBytes (sign : SignVector) : (toBytes sign).length = 4 :=
  LittleEndian.length_encode 4 sign.toNat

/-- A sign vector is read back from the beginning of any string that it was written to. -/
@[simp] theorem SignVector.ofBytes_toBytes_append (sign : SignVector) (rest : Bytes) :
    ofBytes (toBytes sign ++ rest) = sign := by
  have h : (toBytes sign ++ rest).take 4 = toBytes sign := List.take_left' (by simp)
  have hlt := sign.isLt
  apply BitVec.eq_of_toNat_eq
  rw [ofBytes, h, toBytes, LittleEndian.decode_encode, BitVec.toNat_ofNat, Nat.shiftLeft_eq]
  omega

/-- Every string of four bytes is what some sign vector is written as. -/
theorem SignVector.toBytes_ofBytes {bytes : Bytes} (h : bytes.length = 4) :
    toBytes (ofBytes bytes) = bytes := by
  have htake : bytes.take 4 = bytes := List.take_of_length_le (by omega)
  have hlt := LittleEndian.decode_lt bytes
  rw [h] at hlt
  have hmod : LittleEndian.decode bytes % 2 ^ 32 = LittleEndian.decode bytes :=
    Nat.mod_eq_of_lt (by simpa using hlt)
  rw [ofBytes, htake, toBytes, BitVec.toNat_ofNat, hmod, ← h]
  exact LittleEndian.encode_decode bytes

/-- A correction of a function with several special points. -/
abbrev SignCorrection := Correction SignVector

namespace SignCorrection

/-- The correction that changes nothing. -/
def zero : SignCorrection := ⟨0, 0, 0⟩

/-- The twenty-four bytes of a correction. -/
def toBytes (c : SignCorrection) : Bytes :=
  c.seed.toBytes ++ SignVector.toBytes c.left ++ SignVector.toBytes c.right

/-- The correction in the first twenty-four bytes of a string. -/
def ofBytes (bytes : Bytes) : SignCorrection where
  seed := Block.ofBytes bytes
  left := SignVector.ofBytes (bytes.drop 16)
  right := SignVector.ofBytes (bytes.drop 20)

@[simp] theorem length_toBytes (c : SignCorrection) : c.toBytes.length = 24 := by
  simp [toBytes]

/-- A correction is read back from the beginning of any string that it was written to. -/
@[simp] theorem ofBytes_toBytes_append (c : SignCorrection) (rest : Bytes) :
    ofBytes (c.toBytes ++ rest) = c := by
  have hall : c.toBytes ++ rest
      = c.seed.toBytes ++ (SignVector.toBytes c.left ++ (SignVector.toBytes c.right ++ rest)) := by
    simp only [toBytes, List.append_assoc]
  have h16 : (c.toBytes ++ rest).drop 16
      = SignVector.toBytes c.left ++ (SignVector.toBytes c.right ++ rest) := by
    rw [hall, List.drop_left' (by simp)]
  have h20 : (c.toBytes ++ rest).drop 20 = SignVector.toBytes c.right ++ rest := by
    rw [show (20 : Nat) = 16 + 4 from rfl, ← List.drop_drop, h16, List.drop_left' (by simp)]
  simp only [ofBytes, h16, h20, SignVector.ofBytes_toBytes_append]
  rw [hall, Block.ofBytes_toBytes_append]

/-- The sum of the corrections that a sign vector selects from those of a level. -/
def selected (corrections : List SignCorrection) (sign : SignVector) : SignCorrection :=
  sign.sum (· ^^^ ·) zero corrections

end SignCorrection

end PointSharing
