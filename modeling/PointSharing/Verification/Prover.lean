/-
Evaluating with proof.

Besides its output, every leaf that is visited contributes a tag to the proof.  A prover
says which tag, and from where the folding of tags starts; both have to be chosen such
that two parties with the keys of one pair fold the same tags.
-/
import PointSharing.Evaluation
import PointSharing.Verification.Transcript

namespace PointSharing

/-- A tree with an output and a tag at every leaf. -/
structure Prover (σ : Type) extends Evaluator σ where
  /-- The hashes that proofs are made with. -/
  hashes : Hashes
  /-- What the folding of tags starts from. -/
  start : Tag
  /-- The tag that the leaf of an index contributes. -/
  tag : UInt64 → σ → Tag

/-- Outputs together with the proof that they come from the leaves they should come from. -/
structure Proved where
  /-- The outputs at all visited leaves, one after the other. -/
  output : Bytes
  /-- The proof, which has to be the same for both parties. -/
  proof : Bytes
  deriving DecidableEq

namespace Prover

variable {σ : Type} (prover : Prover σ)

/-- The outputs at some leaves, given with their indices, and one proof for all of them. -/
def visit (leaves : List (UInt64 × σ)) : Proved where
  output := leaves.flatMap fun (_, leaf) => prover.output leaf
  proof := prover.hashes.prove prover.start <|
    leaves.map fun (index, leaf) => prover.tag index leaf

/-- The outputs at some indices of the domain, in the order of the indices, with one proof, if the
outputs fit into a buffer. -/
def proveAt (indices : List UInt64) : Except Error Proved := do
  checkQueries indices prover.rangeSize
  allocateOutputs indices.length prover.dataSize
  return prover.visit <| indices.map fun index => (index, prover.leafAt index)

/-- The outputs at all indices with one proof, if they fit into a buffer. -/
def proveAll : Except Error Proved := do
  allocate (domainSize prover.rangeSize * prover.dataSize)
  return prover.visit <| prover.leaves.zipIdx.map fun (leaf, i) => (UInt64.ofNat i, leaf)

end Prover

end PointSharing
