/-
Evaluating any well-formed key of a function with one special point.

Nothing here asks where a key comes from.  A key that is parsed has as many corrections as its
declared number of bits, because the field of corrections is cut into that many words, and
every leaf has an output of the declared size, whatever is added into its mask.  So the outputs
at all indices are the outputs at each of them, also if the corrections are such that no two
parties could cancel.
-/
import PointSharing.Point.Evaluation
import PointSharing.Proofs.Evaluation
import PointSharing.Proofs.Point.Key

namespace PointSharing.Point

variable {prg : Prg}

theorem Parts.length_output (parts : Parts) (d : Nat) (leaf : Node Bool) :
    (parts.output prg d leaf).length = d := by
  unfold output
  split <;> simp

theorem Parts.sized_evaluator (prg : Prg) {parts : Parts} {n : Nat}
    (h : parts.corrections.length = n) (d : Nat) : (parts.evaluator prg n d).Sized where
  levels := (List.length_map _).trans h
  output := parts.length_output d

theorem Key.length_corrections {key : Key} {verifiable : Bool} {parts : Parts}
    (h : key.parse verifiable = .ok parts) : parts.corrections.length = key.rangeSize := by
  obtain ⟨-, rfl⟩ := Key.parse_eq_ok_iff.mp h
  simp [Parts.ofFields]

/-! ### Keys without proofs -/

theorem Key.evaluator_eq (prg : Prg) {key : Key} {parts : Parts} (h : key.parse false = .ok parts) :
    key.evaluator prg = .ok (parts.evaluator prg key.rangeSize key.dataSize) := by
  unfold evaluator
  rw [h]
  rfl

theorem evaluate_eq {key : Key} {parts : Parts} (h : key.parse false = .ok parts) (x : UInt64) :
    evaluate prg key x = (parts.evaluator prg key.rangeSize key.dataSize).evaluate x := by
  unfold evaluate
  rw [Key.evaluator_eq prg h]
  rfl

theorem evaluateAll_eq {key : Key} {parts : Parts} (h : key.parse false = .ok parts)
    (hn : key.rangeSize ≤ maxFullDomainBits) :
    evaluateAll prg key = (parts.evaluator prg key.rangeSize key.dataSize).evaluateAll := by
  unfold evaluateAll
  rw [checkFullDomain_eq_ok_iff.mpr hn, Key.evaluator_eq prg h]
  rfl

/-- **The words of an evaluation of the whole domain are the outputs at each index.** -/
theorem words_of_evaluateAll (prg : Prg) {key : Key} {parts : Parts}
    (hparse : key.parse false = .ok parts) (hn : key.rangeSize ≤ 32)
    (hsize : domainSize key.rangeSize * key.dataSize ≤ maxBuffer) :
    ∃ shares, evaluateAll prg key = .ok shares ∧
      shares.length = domainSize key.rangeSize * key.dataSize ∧
      ∀ index : UInt64, index.toNat < domainSize key.rangeSize →
        evaluate prg key index
          = .ok ((shares.drop (index.toNat * key.dataSize)).take key.dataSize) := by
  have hsized := Parts.sized_evaluator prg (Key.length_corrections hparse) key.dataSize
  have hsupported := (Key.parse_eq_ok_iff.mp hparse).1.supported
  obtain ⟨shares, hall, hlength, hwords⟩ := hsized.evaluateAll hsupported hsize
  refine ⟨shares, (evaluateAll_eq hparse hn).trans hall, hlength, ?_⟩
  intro index hindex
  exact (evaluate_eq hparse index).trans (hwords index hindex)

/-- With corrections and a payload that no generation would make. -/
theorem words_of_evaluateAll_one_byte_repeated :
    ∃ parts shares, Key.parse ⟨2 :: List.replicate 55 0xab, 2, 2⟩ false = .ok parts ∧
      evaluateAll (.ofBlock 0) ⟨2 :: List.replicate 55 0xab, 2, 2⟩ = .ok shares ∧
      shares.length = 8 ∧
      evaluate (.ofBlock 0) ⟨2 :: List.replicate 55 0xab, 2, 2⟩ 3
        = .ok ((shares.drop 6).take 2) := by
  have hparse : Key.parse ⟨2 :: List.replicate 55 0xab, 2, 2⟩ false = .ok _ :=
    Key.parse_eq_ok_iff.mpr ⟨by constructor <;> decide, rfl⟩
  obtain ⟨shares, hall, hlength, hwords⟩ :=
    words_of_evaluateAll (.ofBlock 0) hparse (by decide) (by decide)
  exact ⟨_, shares, hparse, hall, hlength, hwords 3 (by decide)⟩

end PointSharing.Point
