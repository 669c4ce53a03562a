/-
Evaluating any well-formed key of a function with several special points with proof.

As with one special point, what is needed of a key is only that it is parsed.  Which proof
corrections a leaf's sign vector selects, and what the folding of tags starts from, is the same
whether the leaf is reached by following a path or by widening the tree.
-/
import PointSharing.MultiPoint.Verified
import PointSharing.Proofs.MultiPoint.Evaluation
import PointSharing.Proofs.Verification.Prover

namespace PointSharing.MultiPoint

variable {setup : Setup} {key : Key}

theorem Key.prover_eq (setup : Setup) {parts : Parts} (h : key.parse true = .ok parts) :
    key.prover setup = .ok (parts.prover setup key.rangeSize key.dataSize) := by
  unfold prover
  rw [h]
  rfl

namespace Verified

section

variable {prover : Prover (Node SignVector)}

theorem evaluate_eq (h : key.prover setup = .ok prover) (x : UInt64) :
    evaluate setup key x = prover.proveAt [x] := by
  unfold evaluate
  rw [h]
  rfl

theorem evaluateBatch_eq (h : key.prover setup = .ok prover)
    (hn : key.rangeSize ≤ maxFullDomainBits) (queries : List UInt64) :
    evaluateBatch setup key queries = prover.proveAt queries := by
  unfold evaluateBatch
  rw [checkFullDomain_eq_ok_iff.mpr hn, h]
  rfl

theorem evaluateAll_eq (h : key.prover setup = .ok prover)
    (hn : key.rangeSize ≤ maxFullDomainBits) : evaluateAll setup key = prover.proveAll := by
  unfold evaluateAll
  rw [checkFullDomain_eq_ok_iff.mpr hn, h]
  rfl

end

/-- **However a key is evaluated with proof, it is the same evaluation.** -/
theorem modesAgree_of_parse_points (setup : Setup) {parts : Parts}
    (hparse : key.parse true = .ok parts) (hn : key.rangeSize ≤ 32) :
    ModesAgree key.rangeSize key.dataSize (evaluate setup key) (evaluateBatch setup key)
      (evaluateAll setup key) := by
  have hformed := (Key.parse_eq_ok_iff.mp hparse).1
  have hlevels : (parts.evaluator setup.prg key.rangeSize key.dataSize).levels.length
      = key.rangeSize := (Parts.sized_evaluator setup.prg (Key.length_levels hparse) _).levels
  have hagree : ModesAgree key.rangeSize key.dataSize _ _ _ :=
    (parts.prover setup key.rangeSize key.dataSize).modesAgree hlevels hformed.supported
  have hprover := Key.prover_eq setup hparse
  rwa [← funext (evaluate_eq hprover), ← funext (evaluateBatch_eq hprover hn),
    ← evaluateAll_eq hprover hn] at hagree

/-- With corrections, a payload and a byte of the party that no generation would make. -/
theorem modesAgree_of_parse_points_one_byte_repeated :
    let key : Key := ⟨1 :: 1 :: List.replicate 107 0xab, 2, 1, 1⟩
    ∃ parts proved singles all, key.parse true = .ok parts ∧
      evaluateBatch ⟨.ofBlock 0, ⟨1, 2⟩⟩ key [1, 0, 0] = .ok proved ∧
      [1, 0, 0].mapM (evaluate ⟨.ofBlock 0, ⟨1, 2⟩⟩ key) = .ok singles ∧
      proved.output = singles.flatMap Proved.output ∧
      evaluateBatch ⟨.ofBlock 0, ⟨1, 2⟩⟩ key [1] = evaluate ⟨.ofBlock 0, ⟨1, 2⟩⟩ key 1 ∧
      evaluateAll ⟨.ofBlock 0, ⟨1, 2⟩⟩ key = .ok all ∧
      evaluateBatch ⟨.ofBlock 0, ⟨1, 2⟩⟩ key [0, 1] = .ok all := by
  intro key
  have hparse : key.parse true = .ok _ :=
    Key.parse_eq_ok_iff.mpr ⟨by constructor <;> decide, rfl⟩
  have hqueries : ∀ x ∈ [1, 0, (0 : UInt64)], x.toNat < domainSize 1 := by simp [domainSize]
  have hagree := modesAgree_of_parse_points ⟨.ofBlock 0, ⟨1, 2⟩⟩ hparse (by decide)
  obtain ⟨proved, singles, hbatch, hsingles, houtput⟩ :=
    hagree.outputs [1, 0, 0] hqueries (by decide)
  obtain ⟨all, hall, hlist⟩ := hagree.wholeDomain (by decide)
  exact ⟨_, proved, singles, all, hparse, hbatch, hsingles, houtput, hagree.singleton 1, hall,
    hlist⟩

end Verified

end PointSharing.MultiPoint
