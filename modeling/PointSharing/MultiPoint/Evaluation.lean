/-
Evaluating one key of a function with several special points.

The output at an index is the mask of its leaf plus the payload words that the leaf's sign
vector selects.  Two parties whose leaves are the same have the same output; at the
special index of point `k` their sign vectors differ in the bit of `k`, and the sum of
their outputs is the payload of point `k`.
-/
import PointSharing.Evaluation
import PointSharing.MultiPoint.Shares

namespace PointSharing.MultiPoint

namespace Parts

/-- The output at a leaf. -/
def output (prg : Prg) (parts : Parts) (dataSize : Nat) (leaf : Node SignVector) : Bytes :=
  leaf.control.sum Bytes.xor (prg.leafMask leaf.seed dataSize) parts.payload

/-- The tree of a party, for indices and outputs of the given sizes. -/
def evaluator (prg : Prg) (parts : Parts) (rangeSize dataSize : Nat) :
    Evaluator (Node SignVector) where
  rangeSize := rangeSize
  dataSize := dataSize
  root := rootNode parts.party parts.rootSeed
  levels := parts.levels.map (level prg parts.points)
  output := parts.output prg dataSize

end Parts

/-- The tree of a key without proofs. -/
def Key.evaluator (prg : Prg) (key : Key) : Except Error (Evaluator (Node SignVector)) := do
  let parts ← key.parse false
  return parts.evaluator prg key.rangeSize key.dataSize

/-- A party's share of the value at an index. -/
def evaluate (prg : Prg) (key : Key) (index : UInt64) : Except Error Bytes := do
  let evaluator ← key.evaluator prg
  evaluator.evaluate index

/-- A party's shares of the values at all indices, in ascending order. -/
def evaluateAll (prg : Prg) (key : Key) : Except Error Bytes := do
  checkFullDomain key.rangeSize
  let evaluator ← key.evaluator prg
  evaluator.evaluateAll

end PointSharing.MultiPoint
