/-
Sharing a function with one special point between two parties: a distributed point function.

Both parties grow the same tree from roots of their own.  On the path to the special index
their seeds are unrelated and their control bits differ; at every other node their states
are the same.  A level's correction keeps this up: it is added by the party whose control
bit is set, so by both or neither off the path and by exactly one on it.  Its seed is what
the parties' children differ by on the side that the path leaves, which makes them equal
there; its bits make the controls equal on that side and different on the other.

At the special leaf exactly one party adds the payload of the key, so that is the payload
of the function masked by both leaves.
-/
import PointSharing.Domain
import PointSharing.Point.Key
import PointSharing.Prg
import PointSharing.Tape
import PointSharing.Tree

namespace PointSharing.Point

/-- The state of a party at the root. -/
def rootNode (party : Party) (seed : Block) : Node Bool := ⟨seed, party.bit⟩

/-! ### One level -/

/-- The correction for a node on the special path, from what its two parties expand to and the
side on which the path goes on. -/
def correctionFor (forks : Pair (Fork (Node Bool))) (right : Bool) : BitCorrection :=
  let difference := forks.a ^^^ forks.b
  { seed := (difference.side !right).seed
    left := difference.left.control ^^^ !right
    right := difference.right.control ^^^ right }

/-- The level with a given correction: a node's children are corrected if its control bit is
set. -/
def level (prg : Prg) (correction : BitCorrection) : Tree.Level (Node Bool) := fun node =>
  let fork := prg.expand node.seed
  if node.control then fork ^^^ correction.toFork else fork

/-- Follows a path from a pair of states on it: the corrections of its levels, and the states at
its end. -/
def grow (prg : Prg) : List Bool → Pair (Node Bool) → List BitCorrection × Pair (Node Bool)
  | [], nodes => ([], nodes)
  | right :: path, nodes =>
    let correction := correctionFor (nodes.map fun node => prg.expand node.seed) right
    let (corrections, leaves) :=
      grow prg path (nodes.map fun node => (level prg correction node).side right)
    (correction :: corrections, leaves)

/-! ### A whole function -/

/-- All that generation computes, before it is written into keys. -/
structure Shares where
  /-- The seeds at the root. -/
  roots : Pair Block
  /-- The corrections, which both keys have. -/
  corrections : List BitCorrection
  /-- The states at the special leaf. -/
  leaves : Pair (Node Bool)
  /-- The masked payload, which both keys have. -/
  payload : Bytes

namespace Shares

/-- The shares that given roots lead to. -/
def ofRoots (prg : Prg) (roots : Pair Block) (path : List Bool) (data : Bytes) : Shares :=
  let root := Pair.ofFn fun party => rootNode party (roots.get party)
  let (corrections, leaves) := grow prg path root
  let mask (leaf : Node Bool) : Bytes := prg.leafMask leaf.seed data.length
  { roots, corrections, leaves
    payload := Bytes.xor (Bytes.xor data (mask leaves.a)) (mask leaves.b) }

/-- The special index and payload of a function of the given sizes are acceptable. -/
def checkArguments (index : UInt64) (rangeSize dataSize : Nat) (data : Bytes) :
    Except Error Unit := do
  checkRangeSize rangeSize
  checkPayload data dataSize
  checkIndex index rangeSize

/-- The shares of the function that is `data` at `index` and zero elsewhere.  Nothing is drawn
before all arguments have been checked. -/
def draw (prg : Prg) (index : UInt64) (rangeSize dataSize : Nat) (data : Bytes) :
    Draws Shares := do
  checkArguments index rangeSize dataSize data
  let rootA ← Tape.draw
  let rootB ← Tape.draw
  return ofRoots prg ⟨rootA, rootB⟩ (path index rangeSize) data

/-- What the key of a party holds. -/
def parts (shares : Shares) (proofCorrection : Tag) (party : Party) : Parts where
  rootSeed := shares.roots.get party
  party := party
  corrections := shares.corrections
  payload := shares.payload
  proofCorrection := proofCorrection

/-- The two keys; with a proof correction they are keys for evaluation with proof. -/
def toKeys (shares : Shares) (rangeSize dataSize : Nat) (proofCorrection : Option Tag) :
    Except Error (Pair Key) := do
  let layout ← Layout.point rangeSize dataSize proofCorrection.isSome
  return Pair.ofFn fun party =>
    let parts := shares.parts (proofCorrection.getD Tag.zero) party
    { bytes := layout.build (parts.content rangeSize), dataSize, rangeSize }

end Shares

/-- The key pair of the function that is `data` at `index` and zero elsewhere. -/
def generate (prg : Prg) (index : UInt64) (rangeSize dataSize : Nat) (data : Bytes) :
    Draws (Pair Key) := do
  let shares ← Shares.draw prg index rangeSize dataSize data
  shares.toKeys rangeSize dataSize none

end PointSharing.Point
