/-
The source of random blocks.

Key generation is a deterministic function of its arguments and of an endless sequence of
blocks, the tape, from which it takes one block after the other.  The number of blocks
taken is part of the state, so that what a call draws, and that a refused call draws
nothing, can be stated.
-/
import PointSharing.Block

namespace PointSharing

/-- An endless sequence of random blocks and how many of them have been taken. -/
structure Tape where
  /-- The sequence. -/
  block : Nat → Block
  /-- How many blocks have been taken from its beginning. -/
  drawn : Nat := 0

namespace Tape

/-- The tape that holds the given bytes, sixteen to a block, followed by zeros. -/
def ofBytes (bytes : Bytes) : Tape where
  block i := Block.ofBytes (bytes.drop (16 * i))

/-- Takes the next block. -/
def draw : StateM Tape Block := do
  let tape ← get
  set { tape with drawn := tape.drawn + 1 }
  return tape.block tape.drawn

end Tape

/-- A computation that may be refused and draws from a tape. -/
abbrev Draws (α : Type) := ExceptT Error (StateM Tape) α

end PointSharing
