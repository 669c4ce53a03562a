/-
Evaluating with proof, for functions with one special point.

On the special path the parties' leaves differ, and so would their tags.  The proof
correction is what the tags at the special index differ by; the party whose control bit is
set there adds it, and both fold the same tag.  Elsewhere the leaves are the same, and so
is what is folded.
-/
import PointSharing.Point.Evaluation
import PointSharing.Verification.Prover
import PointSharing.Verification.Setup

namespace PointSharing.Point

/-- What the parties' tags differ by at the special index. -/
def Shares.proofCorrection (hashes : Hashes) (shares : Shares) (index : UInt64) : Tag :=
  hashes.leafTag index shares.leaves.a.seed ^^^ hashes.leafTag index shares.leaves.b.seed

namespace Parts

/-- The tag of a leaf, corrected if the leaf's control bit is set. -/
def tag (hashes : Hashes) (parts : Parts) (index : UInt64) (leaf : Node Bool) : Tag :=
  let tag := hashes.leafTag index leaf.seed
  if leaf.control then tag ^^^ parts.proofCorrection else tag

/-- The tree of a party with its tags, for indices and outputs of the given sizes. -/
def prover (setup : Setup) (parts : Parts) (rangeSize dataSize : Nat) :
    Prover (Node Bool) :=
  let hashes := setup.hashes
  { toEvaluator := parts.evaluator setup.prg rangeSize dataSize
    hashes
    start := parts.proofCorrection
    tag := parts.tag hashes }

end Parts

/-- The tree of a key with proofs. -/
def Key.prover (setup : Setup) (key : Key) : Except Error (Prover (Node Bool)) := do
  let parts ← key.parse true
  return parts.prover setup key.rangeSize key.dataSize

namespace Verified

/-- The key pair of the function that is `data` at `index` and zero elsewhere, for evaluation
with proof. -/
def generate (setup : Setup) (index : UInt64) (rangeSize dataSize : Nat) (data : Bytes) :
    Draws (Pair Key) := do
  let shares ← Shares.draw setup.prg index rangeSize dataSize data
  shares.toKeys rangeSize dataSize (some (shares.proofCorrection setup.hashes index))

/-- A party's share of the value at an index, with its proof. -/
def evaluate (setup : Setup) (key : Key) (index : UInt64) : Except Error Proved := do
  let prover ← key.prover setup
  prover.proveAt [index]

/-- A party's shares of the values at some indices, in their order, with one proof.  The domain has
to be one that may be visited as a whole. -/
def evaluateBatch (setup : Setup) (key : Key) (indices : List UInt64) :
    Except Error Proved := do
  checkFullDomain key.rangeSize
  let prover ← key.prover setup
  prover.proveAt indices

/-- A party's shares of the values at all indices, in ascending order, with one proof. -/
def evaluateAll (setup : Setup) (key : Key) : Except Error Proved := do
  checkFullDomain key.rangeSize
  let prover ← key.prover setup
  prover.proveAll

end Verified

end PointSharing.Point
