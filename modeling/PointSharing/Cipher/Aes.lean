/-
The block cipher AES with a key of 128 bits.

A state is four columns of four bytes, and a column is a 32-bit word with row 0 in its
low byte, so that a block read with the least significant byte first falls into columns
with no byte moved.  In a round, each byte of a new column comes from another column (the
row shift), goes through the substitution box, and is multiplied into the column (the
mixing).  The last two steps are one table look-up: row `r` contributes its entry of
`mixTable` rotated by `r` bytes.

The tables are computed from the arithmetic of the field of 256 elements they come from,
so there is no constant to trust except the field's polynomial and the affine map.
-/
import PointSharing.Block

namespace PointSharing.Aes

/-! ### The field of 256 elements -/

/-- Multiplication by `x` modulo `x^8 + x^4 + x^3 + x + 1`. -/
def double (a : UInt8) : UInt8 :=
  if a &&& 0x80 = 0 then a <<< 1 else (a <<< 1) ^^^ 0x1b

/-- The product of two field elements, by the low `bits` bits of the second. -/
def multiply (a b : UInt8) : (bits : Nat) → UInt8
  | 0 => 0
  | bits + 1 =>
    (if b &&& 1 = 0 then 0 else a) ^^^ multiply (double a) (b >>> 1) bits

/-- The inverse of a field element, which is its 254th power; zero goes to zero. -/
def inverse (a : UInt8) : UInt8 :=
  let square (b : UInt8) : UInt8 := multiply b b 8
  -- 254 = 2 + 4 + 8 + 16 + 32 + 64 + 128
  ((List.range 7).foldl (fun (acc, power) _ =>
    (multiply acc (square power) 8, square power)) ((1 : UInt8), a)).1

/-- A byte turned left by some bits. -/
def rotate (a : UInt8) (bits : UInt8) : UInt8 := (a <<< bits) ||| (a >>> (8 - bits))

/-- The substitution of one byte: the inverse followed by an affine map. -/
def substitution (a : UInt8) : UInt8 :=
  let b := inverse a
  b ^^^ rotate b 1 ^^^ rotate b 2 ^^^ rotate b 3 ^^^ rotate b 4 ^^^ 0x63

/-! ### Tables -/

/-- The substitution of every byte. -/
def substitutionTable : Vector UInt8 256 := Vector.ofFn fun i => substitution (UInt8.ofFin i)

/-- The substitution of a byte, looked up. -/
def substitute (a : UInt8) : UInt8 := substitutionTable.get a.toFin

/-- The column to which a byte of row 0 contributes `2, 1, 1, 3` times its substitution. -/
def mixTable : Vector UInt32 256 := Vector.ofFn fun i =>
  let s := substitution (UInt8.ofFin i)
  let s2 := double s
  s2.toUInt32 ||| (s.toUInt32 <<< 8) ||| (s.toUInt32 <<< 16) ||| ((s2 ^^^ s).toUInt32 <<< 24)

/-! ### States and rounds -/

/-- Four columns of four bytes. -/
structure State where
  /-- Column 0, the low 32 bits of a block. -/
  c0 : UInt32
  /-- Column 1. -/
  c1 : UInt32
  /-- Column 2. -/
  c2 : UInt32
  /-- Column 3, the high 32 bits of a block. -/
  c3 : UInt32

namespace State

/-- The columns of a block. -/
def ofBlock (block : Block) : State where
  c0 := UInt32.ofBitVec (block.extractLsb' 0 32)
  c1 := UInt32.ofBitVec (block.extractLsb' 32 32)
  c2 := UInt32.ofBitVec (block.extractLsb' 64 32)
  c3 := UInt32.ofBitVec (block.extractLsb' 96 32)

/-- The block with the given columns. -/
def toBlock (s : State) : Block :=
  s.c3.toBitVec ++ s.c2.toBitVec ++ s.c1.toBitVec ++ s.c0.toBitVec

/-- Adds a round key. -/
def add (s k : State) : State :=
  ⟨s.c0 ^^^ k.c0, s.c1 ^^^ k.c1, s.c2 ^^^ k.c2, s.c3 ^^^ k.c3⟩

end State

/-- The byte of a column in a row. -/
def row (column : UInt32) (r : UInt32) : UInt8 := (column >>> (8 * r)).toUInt8

/-- A column whose bytes move one row down for each turn, the last to the top. -/
def turn (column : UInt32) (rows : UInt32) : UInt32 :=
  (column <<< (8 * rows)) ||| (column >>> (32 - 8 * rows))

/-- The mixed column made from the bytes that the row shift brings together. -/
def mixedColumn (a b c d : UInt32) : UInt32 :=
  mixTable.get (row a 0).toFin ^^^ turn (mixTable.get (row b 1).toFin) 1 ^^^
    turn (mixTable.get (row c 2).toFin) 2 ^^^ turn (mixTable.get (row d 3).toFin) 3

/-- The column of substituted bytes without mixing, as in the last round. -/
def plainColumn (a b c d : UInt32) : UInt32 :=
  (substitute (row a 0)).toUInt32 ||| ((substitute (row b 1)).toUInt32 <<< 8) |||
    ((substitute (row c 2)).toUInt32 <<< 16) ||| ((substitute (row d 3)).toUInt32 <<< 24)

/-- The four columns that the row shift gathers, each built by `column`. -/
def gather (column : UInt32 → UInt32 → UInt32 → UInt32 → UInt32) (s : State) : State :=
  ⟨column s.c0 s.c1 s.c2 s.c3, column s.c1 s.c2 s.c3 s.c0,
    column s.c2 s.c3 s.c0 s.c1, column s.c3 s.c0 s.c1 s.c2⟩

/-! ### Keys -/

/-- The round key that follows another; `round` is the constant of the round. -/
def nextRoundKey (k : State) (round : UInt8) : State :=
  let last := k.c3
  -- the bytes of the last column move one row up and are substituted
  let fresh := plainColumn (turn last 3) (turn last 3) (turn last 3) (turn last 3)
  let c0 := k.c0 ^^^ fresh ^^^ round.toUInt32
  let c1 := k.c1 ^^^ c0
  let c2 := k.c2 ^^^ c1
  ⟨c0, c1, c2, k.c3 ^^^ c2⟩

/-- The round keys after `k`, one for each round, the constant doubling each time. -/
def roundKeys (k : State) (round : UInt8) : (rounds : Nat) → List State
  | 0 => []
  | rounds + 1 =>
    let next := nextRoundKey k round
    next :: roundKeys next (double round) rounds

/-- A key made ready for encryption. -/
structure Schedule where
  /-- Added to the input. -/
  whitening : State
  /-- The keys of the rounds, ten in number. -/
  rounds : List State

/-- The schedule of a key. -/
def Schedule.ofKey (key : Block) : Schedule :=
  let k := State.ofBlock key
  ⟨k, roundKeys k 1 10⟩

/-- The rounds from a state on; the last does not mix. -/
def finish (s : State) : List State → State
  | [] => s
  | [last] => (gather plainColumn s).add last
  | k :: next :: keys => finish ((gather mixedColumn s).add k) (next :: keys)

/-- The encryption of one block. -/
def Schedule.encrypt (schedule : Schedule) (block : Block) : Block :=
  (finish ((State.ofBlock block).add schedule.whitening) schedule.rounds).toBlock

end PointSharing.Aes
