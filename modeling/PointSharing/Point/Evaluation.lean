/-
Evaluating one key of a function with one special point.

The output at an index is the mask of its leaf, to which the payload is added if the
leaf's control bit is set.  The sum of the two parties' outputs is then zero wherever their
leaves are the same, and the payload of the function at the special index.
-/
import PointSharing.Evaluation
import PointSharing.Point.Shares

namespace PointSharing.Point

namespace Parts

/-- The output at a leaf. -/
def output (prg : Prg) (parts : Parts) (dataSize : Nat) (leaf : Node Bool) : Bytes :=
  let mask := prg.leafMask leaf.seed dataSize
  if leaf.control then Bytes.xor mask parts.payload else mask

/-- The tree of a party, for indices and outputs of the given sizes. -/
def evaluator (prg : Prg) (parts : Parts) (rangeSize dataSize : Nat) :
    Evaluator (Node Bool) where
  rangeSize := rangeSize
  dataSize := dataSize
  root := rootNode parts.party parts.rootSeed
  levels := parts.corrections.map (level prg)
  output := parts.output prg dataSize

end Parts

/-- The tree of a key without proofs. -/
def Key.evaluator (prg : Prg) (key : Key) : Except Error (Evaluator (Node Bool)) := do
  let parts ← key.parse false
  return parts.evaluator prg key.rangeSize key.dataSize

/-- A party's share of the value at an index. -/
def evaluate (prg : Prg) (key : Key) (index : UInt64) : Except Error Bytes := do
  let evaluator ← key.evaluator prg
  evaluator.evaluate index

/-- A party's shares of the values at all indices, in ascending order. -/
def evaluateAll (prg : Prg) (key : Key) : Except Error Bytes := do
  checkFullDomain key.rangeSize
  let evaluator ← key.evaluator prg
  evaluator.evaluateAll

end PointSharing.Point
