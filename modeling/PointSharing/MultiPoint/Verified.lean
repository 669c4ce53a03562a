/-
Evaluating with proof, for functions with several special points.

Each point has a proof correction, what the parties' tags differ by at its special index.
A leaf's tag is corrected by those that its sign vector selects: at equal leaves both
parties add the same, and at the special index of point `k` what they add differs by
exactly the correction of `k`, which is what their tags differ by.  Both fold the same.
-/
import PointSharing.MultiPoint.Evaluation
import PointSharing.Verification.Prover
import PointSharing.Verification.Setup

namespace PointSharing.MultiPoint

/-- What the parties' tags differ by at each of the special indices. -/
def Shares.proofCorrections (hashes : Hashes) (shares : Shares) (indices : List UInt64) :
    List Tag :=
  List.zipWith (fun index leaf =>
    hashes.leafTag index leaf.a.seed ^^^ hashes.leafTag index leaf.b.seed) indices shares.leaves

namespace Parts

/-- The tag of a leaf with the corrections that the leaf's sign vector selects. -/
def tag (hashes : Hashes) (parts : Parts) (index : UInt64) (leaf : Node SignVector) : Tag :=
  leaf.control.sum (· ^^^ ·) (hashes.leafTag index leaf.seed) parts.proofCorrections

/-- What the folding of tags starts from: the sum of all corrections. -/
def initialTag (parts : Parts) : Tag := parts.proofCorrections.foldl (· ^^^ ·) Tag.zero

/-- The tree of a party with its tags, for indices and outputs of the given sizes. -/
def prover (setup : Setup) (parts : Parts) (rangeSize dataSize : Nat) :
    Prover (Node SignVector) :=
  let hashes := setup.hashes
  { toEvaluator := parts.evaluator setup.prg rangeSize dataSize
    hashes
    start := parts.initialTag
    tag := parts.tag hashes }

end Parts

/-- The tree of a key with proofs. -/
def Key.prover (setup : Setup) (key : Key) : Except Error (Prover (Node SignVector)) := do
  let parts ← key.parse true
  return parts.prover setup key.rangeSize key.dataSize

namespace Verified

/-- The key pair of the function whose value at each of the special indices is the word of
`data` in the same position, and zero elsewhere, for evaluation with proof. -/
def generate (setup : Setup) (indices : List UInt64) (rangeSize points dataSize : Nat)
    (data : Bytes) : Draws (Pair Key) := do
  let shares ← Shares.draw setup.prg indices rangeSize points dataSize data
  shares.toKeys rangeSize points dataSize
    (some (shares.proofCorrections setup.hashes indices))

/-- A party's share of the value at an index, with its proof. -/
def evaluate (setup : Setup) (key : Key) (index : UInt64) : Except Error Proved := do
  let prover ← key.prover setup
  prover.proveAt [index]

/-- A party's shares of the values at some indices, in their order, with one proof.  The domain has
to be one that may be visited as a whole. -/
def evaluateBatch (setup : Setup) (key : Key) (indices : List UInt64) :
    Except Error Proved := do
  checkFullDomain key.rangeSize
  let prover ← key.prover setup
  prover.proveAt indices

/-- A party's shares of the values at all indices, in ascending order, with one proof. -/
def evaluateAll (setup : Setup) (key : Key) : Except Error Proved := do
  checkFullDomain key.rangeSize
  let prover ← key.prover setup
  prover.proveAll

end Verified

end PointSharing.MultiPoint
