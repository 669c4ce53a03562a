/-
Little-endian numbers.

`encode k x` writes the low `k` bytes of `x`, the least significant first, and `decode`
reads a byte string of any length as a number.  The two are inverse on strings of `k`
bytes and numbers of `8 * k` bits: `decode_encode` and `encode_decode`.
-/
import PointSharing.Bytes

namespace PointSharing.LittleEndian

/-- The low `k` bytes of `x`, least significant first. -/
def encode : Nat → Nat → Bytes
  | 0, _ => []
  | k + 1, x => UInt8.ofNat x :: encode k (x / 256)

/-- The number that a byte string denotes, least significant byte first. -/
def decode : Bytes → Nat
  | [] => 0
  | b :: bytes => b.toNat + 256 * decode bytes

@[simp] theorem length_encode (k x : Nat) : (encode k x).length = k := by
  induction k generalizing x with
  | zero => rfl
  | succ k ih => simp [encode, ih]

/-- One more byte multiplies the number of values by 256. -/
theorem shiftLeft_bytes_succ (k : Nat) : 1 <<< (8 * (k + 1)) = 256 * (1 <<< (8 * k)) := by
  rw [Nat.shiftLeft_eq, Nat.shiftLeft_eq, Nat.mul_succ, Nat.pow_add]
  omega

theorem decode_lt (bytes : Bytes) : decode bytes < 1 <<< (8 * bytes.length) := by
  induction bytes with
  | nil => simp [decode]
  | cons b bytes ih =>
    have hb := b.toNat_lt
    rw [List.length_cons, shiftLeft_bytes_succ, decode]
    omega

theorem decode_encode (k x : Nat) : decode (encode k x) = x % (1 <<< (8 * k)) := by
  induction k generalizing x with
  | zero => simp [encode, decode, Nat.mod_one]
  | succ k ih =>
    have hsplit : x % (256 * (1 <<< (8 * k))) = x % 256 + 256 * (x / 256 % (1 <<< (8 * k))) :=
      Nat.mod_mul
    rw [shiftLeft_bytes_succ, hsplit, encode, decode, ih, UInt8.toNat_ofNat']

theorem encode_decode (bytes : Bytes) : encode bytes.length (decode bytes) = bytes := by
  induction bytes with
  | nil => rfl
  | cons b bytes ih =>
    have hb := b.toNat_lt
    have hdiv : (b.toNat + 256 * decode bytes) / 256 = decode bytes := by omega
    have hmod : UInt8.ofNat (b.toNat + 256 * decode bytes) = b := by
      apply UInt8.toNat_inj.mp
      rw [UInt8.toNat_ofNat']
      omega
    simp only [decode, List.length_cons, encode, hdiv, hmod, ih]

end PointSharing.LittleEndian
