/-
Evaluating any well-formed key of a function with several special points.

As with one special point, it does not matter where a key comes from: a key that is parsed has
one level of corrections for each declared bit, and a leaf's output has the declared size
however many payload words its sign vector selects, and whatever these are.
-/
import PointSharing.MultiPoint.Evaluation
import PointSharing.Proofs.Evaluation
import PointSharing.Proofs.MultiPoint.Key
import PointSharing.Proofs.SignVector

namespace PointSharing.MultiPoint

variable {prg : Prg}

theorem Parts.length_output (parts : Parts) (d : Nat) (leaf : Node SignVector) :
    (parts.output prg d leaf).length = d :=
  SignVector.sum_closed (.bytes d) (prg.length_leafMask leaf.seed d) leaf.control

theorem Parts.sized_evaluator (prg : Prg) {parts : Parts} {n : Nat}
    (h : parts.levels.length = n) (d : Nat) : (parts.evaluator prg n d).Sized where
  levels := (List.length_map _).trans h
  output := parts.length_output d

theorem Parts.length_levels_ofFields (n points d : Nat) (verifiable : Bool)
    (field : Field → Bytes) : (ofFields n points d verifiable field).levels.length = n := by
  simp [ofFields, decodeLevels]

theorem Key.length_levels {key : Key} {verifiable : Bool} {parts : Parts}
    (h : key.parse verifiable = .ok parts) : parts.levels.length = key.rangeSize := by
  obtain ⟨-, rfl⟩ := Key.parse_eq_ok_iff.mp h
  exact Parts.length_levels_ofFields _ _ _ _ _

/-! ### Keys without proofs -/

theorem Key.evaluator_eq (prg : Prg) {key : Key} {parts : Parts} (h : key.parse false = .ok parts) :
    key.evaluator prg = .ok (parts.evaluator prg key.rangeSize key.dataSize) := by
  unfold evaluator
  rw [h]
  rfl

theorem evaluate_eq {key : Key} {parts : Parts} (h : key.parse false = .ok parts) (x : UInt64) :
    evaluate prg key x = (parts.evaluator prg key.rangeSize key.dataSize).evaluate x := by
  unfold evaluate
  rw [Key.evaluator_eq prg h]
  rfl

theorem evaluateAll_eq {key : Key} {parts : Parts} (h : key.parse false = .ok parts)
    (hn : key.rangeSize ≤ maxFullDomainBits) :
    evaluateAll prg key = (parts.evaluator prg key.rangeSize key.dataSize).evaluateAll := by
  unfold evaluateAll
  rw [checkFullDomain_eq_ok_iff.mpr hn, Key.evaluator_eq prg h]
  rfl

/-- **The words of an evaluation of the whole domain are the outputs at each index.** -/
theorem words_of_evaluateAll_points (prg : Prg) {key : Key} {parts : Parts}
    (hparse : key.parse false = .ok parts) (hn : key.rangeSize ≤ 32)
    (hsize : domainSize key.rangeSize * key.dataSize ≤ maxBuffer) :
    ∃ shares, evaluateAll prg key = .ok shares ∧
      shares.length = domainSize key.rangeSize * key.dataSize ∧
      ∀ index : UInt64, index.toNat < domainSize key.rangeSize →
        evaluate prg key index
          = .ok ((shares.drop (index.toNat * key.dataSize)).take key.dataSize) := by
  have hsized := Parts.sized_evaluator prg (Key.length_levels hparse) key.dataSize
  have hsupported := (Key.parse_eq_ok_iff.mp hparse).1.supported
  obtain ⟨shares, hall, hlength, hwords⟩ := hsized.evaluateAll hsupported hsize
  refine ⟨shares, (evaluateAll_eq hparse hn).trans hall, hlength, ?_⟩
  intro index hindex
  exact (evaluate_eq hparse index).trans (hwords index hindex)

/-- With corrections, a payload and a byte of the party that no generation would make. -/
theorem words_of_evaluateAll_points_one_byte_repeated :
    ∃ parts shares, Key.parse ⟨2 :: 2 :: List.replicate 117 0xab, 2, 2, 2⟩ false = .ok parts ∧
      evaluateAll (.ofBlock 0) ⟨2 :: 2 :: List.replicate 117 0xab, 2, 2, 2⟩ = .ok shares ∧
      shares.length = 8 ∧
      evaluate (.ofBlock 0) ⟨2 :: 2 :: List.replicate 117 0xab, 2, 2, 2⟩ 3
        = .ok ((shares.drop 6).take 2) := by
  have hparse : Key.parse ⟨2 :: 2 :: List.replicate 117 0xab, 2, 2, 2⟩ false = .ok _ :=
    Key.parse_eq_ok_iff.mpr ⟨by constructor <;> decide, rfl⟩
  obtain ⟨shares, hall, hlength, hwords⟩ :=
    words_of_evaluateAll_points (.ofBlock 0) hparse (by decide) (by decide)
  exact ⟨_, shares, hparse, hall, hlength, hwords 3 (by decide)⟩

end PointSharing.MultiPoint
