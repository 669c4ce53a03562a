/-
Evaluation with proof, for functions with several special points.

Every point has a proof correction of its own, and a leaf's sign vector selects from all of
them.  At the special index of a point both parties add what party A selects, and party B
adds the correction of the point once more.  That correction is what the tags of the two
leaves differ by, so the corrected tags are the same.  Which corrections are selected on
top of that depends on the leaf, but not on the party.
-/
import PointSharing.Proofs.MultiPoint.Prover
import PointSharing.Proofs.MultiPoint.Sharing

namespace PointSharing.MultiPoint

variable {prg : Prg} {indices : List UInt64} {n points d : Nat} {data : Bytes}

namespace Shares

section

variable {roots : Pair Block} {growth : Growth}
  (hgrowth : Separates prg points indices n roots n growth)
  (hspecial : SpecialIndices indices n points)

include hgrowth hspecial

theorem length_proofCorrections (hashes : Hashes) :
    ((ofGrowth prg roots growth points d data).proofCorrections hashes indices).length
      = points := by
  unfold proofCorrections ofGrowth
  rw [List.length_zipWith, length_leaves hgrowth hspecial, hspecial.count, Nat.min_self]

/-- The correction of a point is what the tags at its special index differ by. -/
theorem proofCorrections_getElem? (hashes : Hashes) {k : Nat} {x : UInt64}
    (hk : indices[k]? = some x) :
    let states := statesAt prg points growth.levels roots n x.toNat
    ((ofGrowth prg roots growth points d data).proofCorrections hashes indices)[k]?
      = some (hashes.leafTag x states.a.seed ^^^ hashes.leafTag x states.b.seed) :=
  List.getElem?_zipWith_eq_some.mpr ⟨_, _, hk, leaves_getElem? hgrowth hspecial hk, rfl⟩

/-- At a special index the selected corrections make the parties' tags the same. -/
theorem tag_special (hashes : Hashes) {k : Nat} {x : UInt64} (hk : indices[k]? = some x) :
    let shares := ofGrowth prg roots growth points d data
    let corrections := shares.proofCorrections hashes indices
    let states := statesAt prg points growth.levels roots n x.toNat
    (shares.parts points corrections .a).tag hashes x states.a
      = (shares.parts points corrections .b).tag hashes x states.b := by
  intro shares corrections states
  obtain ⟨hlt, -⟩ := List.getElem?_eq_some_iff.mp hk
  have hpoint : k < maxPoints := Nat.lt_of_lt_of_le (hspecial.count ▸ hlt) hspecial.supported
  exact SignVector.sum_eq_sum_of_xor_eq_single hpoint (control_special hgrowth hspecial hk)
    (proofCorrections_getElem? hgrowth hspecial hashes hk)

end

variable {setup : Setup} {roots : Pair Block} {growth : Growth}

theorem agree (hgrowth : Separates setup.prg points indices n roots n growth)
    (hspecial : SpecialIndices indices n points) (hdata : data.length = points * d) :
    let shares := ofGrowth setup.prg roots growth points d data
    let corrections := shares.proofCorrections setup.hashes indices
    Prover.Agree n d (value indices d data)
      ((shares.parts points corrections .a).prover setup n d)
      ((shares.parts points corrections .b).prover setup n d) := by
  intro shares corrections
  refine ⟨addUp hgrowth hspecial hdata corrections, rfl, rfl, ?_⟩
  intro x hx
  show (shares.parts points corrections .a).tag setup.hashes x
      (statesAt setup.prg points growth.levels roots n x.toNat).a
    = (shares.parts points corrections .b).tag setup.hashes x
      (statesAt setup.prg points growth.levels roots n x.toNat).b
  by_cases hmem : x ∈ indices
  · obtain ⟨k, hk⟩ := List.mem_iff_getElem?.mp hmem
    exact tag_special hgrowth hspecial setup.hashes hk
  · rw [states_ordinary hgrowth hspecial hx hmem]
    rfl

theorem prover_key (hgrowth : Separates prg points indices n roots n growth)
    (hspecial : SpecialIndices indices n points) (hn : n ≤ maxRangeBits)
    (hdata : data.length = points * d) {corrections : List Tag}
    (hcorrections : corrections.length = points) (party : Party)
    (hsize : (Layout.multiPointTable n points d true).size ≤ maxSize) :
    let shares := ofGrowth prg roots growth points d data
    (shares.key n points d (some corrections) party).prover setup
      = .ok ((shares.parts points corrections party).prover setup n d) := by
  intro shares
  have hsome : ∀ tags ∈ some corrections, tags.length = points := by
    simpa using hcorrections
  exact Key.prover_eq setup (parse_key hgrowth hspecial hn hdata hsome party hsize)

end Shares

namespace Verified

/-- Keys with proofs are generated for all acceptable arguments, if they can be addressed. -/
theorem exists_generate (setup : Setup) (tape : Tape) (hn : n ≤ maxRangeBits)
    (hspecial : SpecialIndices indices n points) (hpayload : points * d ≤ maxSize)
    (hd : data.length = points * d)
    (hsize : (Layout.multiPointTable n points d true).size ≤ maxSize) :
    ∃ keys rest, (generate setup indices n points d data).runOn tape = (.ok keys, rest) :=
  ⟨_, _, (Shares.runOn_draw_toKeys_eq_ok_iff fun shares =>
    some (shares.proofCorrections setup.hashes indices)).mpr
      ⟨⟨hn, hspecial, hpayload, hd⟩, hsize, rfl, rfl⟩⟩

/-- **Whatever is queried, both parties have the same proof, and their outputs add up to the
values of the function.** -/
theorem reconstructs_of_generate_points {setup : Setup} {tape rest : Tape} {keys : Pair Key}
    (hdata : data.length < 1 <<< 63)
    (h : (generate setup indices n points d data).runOn tape = (.ok keys, rest)) :
    (∀ x : UInt64, x.toNat < domainSize n →
      Reconstructs (value indices d data x) (evaluate setup keys.a x)
        (evaluate setup keys.b x)) ∧
    (n ≤ 32 → ∀ queries : List UInt64, (∀ x ∈ queries, x.toNat < domainSize n) →
      queries.length * d ≤ maxBuffer →
      Reconstructs (queries.flatMap (value indices d data)) (evaluateBatch setup keys.a queries)
        (evaluateBatch setup keys.b queries)) ∧
    (n ≤ 32 → domainSize n * d ≤ maxBuffer →
      Reconstructs (table n (value indices d data)) (evaluateAll setup keys.a)
        (evaluateAll setup keys.b)) := by
  obtain ⟨⟨hn, hspecial, -, hd⟩, hsize, hkeys, -⟩ :=
    (Shares.runOn_draw_toKeys_eq_ok_iff fun shares =>
      some (shares.proofCorrections setup.hashes indices)).mp h
  let shares := Shares.ofTape setup.prg indices n points d data tape
  let corrections := shares.proofCorrections setup.hashes indices
  have hgrowth := Shares.separates_growOn setup.prg tape hspecial
  have hcorrections : corrections.length = points :=
    Shares.length_proofCorrections hgrowth hspecial setup.hashes
  have hagree := Shares.agree hgrowth hspecial hd
  have hproverA : keys.a.prover setup
      = .ok ((shares.parts points corrections .a).prover setup n d) := by
    rw [← hkeys]
    exact Shares.prover_key hgrowth hspecial hn hd hcorrections .a hsize
  have hproverB : keys.b.prover setup
      = .ok ((shares.parts points corrections .b).prover setup n d) := by
    rw [← hkeys]
    exact Shares.prover_key hgrowth hspecial hn hd hcorrections .b hsize
  have hrangeA : keys.a.rangeSize = n := by
    rw [← hkeys]
    rfl
  have hrangeB : keys.b.rangeSize = n := by
    rw [← hkeys]
    rfl
  refine ⟨?_, ?_, ?_⟩
  · intro x hx
    have hword : d ≤ data.length := hd ▸ Nat.le_mul_of_pos_left d hspecial.positive
    rw [evaluate_eq hproverA, evaluate_eq hproverB]
    exact hagree.proveAt_singleton hx (Nat.le_trans hword (le_maxBuffer_of_lt hdata))
  · intro h32 queries hqueries hlength
    rw [evaluateBatch_eq hproverA (hrangeA ▸ h32), evaluateBatch_eq hproverB (hrangeB ▸ h32)]
    exact hagree.proveAt hqueries hlength
  · intro h32 hlength
    rw [evaluateAll_eq hproverA (hrangeA ▸ h32), evaluateAll_eq hproverB (hrangeB ▸ h32)]
    exact hagree.proveAll hn hlength

/-- With two of four indices, and with one query twice. -/
theorem reconstructs_of_generate_points_two_bits :
    ∃ keys rest, (generate ⟨.ofBlock 0, ⟨1, 2⟩⟩ [1, 2] 2 2 1 [7, 9]).runOn (.ofBytes [])
        = (.ok keys, rest) ∧
      Reconstructs [9] (evaluate ⟨.ofBlock 0, ⟨1, 2⟩⟩ keys.a 2)
        (evaluate ⟨.ofBlock 0, ⟨1, 2⟩⟩ keys.b 2) ∧
      Reconstructs [0, 7, 7] (evaluateBatch ⟨.ofBlock 0, ⟨1, 2⟩⟩ keys.a [3, 1, 1])
        (evaluateBatch ⟨.ofBlock 0, ⟨1, 2⟩⟩ keys.b [3, 1, 1]) ∧
      Reconstructs [0, 7, 9, 0] (evaluateAll ⟨.ofBlock 0, ⟨1, 2⟩⟩ keys.a)
        (evaluateAll ⟨.ofBlock 0, ⟨1, 2⟩⟩ keys.b) := by
  have hspecial : SpecialIndices [1, 2] 2 2 :=
    ⟨by simp [domainSize], by decide, rfl, by decide, by decide⟩
  have hqueries : ∀ x ∈ [3, 1, (1 : UInt64)], x.toNat < domainSize 2 := by simp [domainSize]
  have hd : ([7, 9] : Bytes).length = 2 * 1 := rfl
  obtain ⟨keys, rest, hrun⟩ :=
    exists_generate ⟨.ofBlock 0, ⟨1, 2⟩⟩ (.ofBytes []) (by decide) hspecial (by decide) hd
      (by decide)
  obtain ⟨hone, hbatch, hall⟩ := reconstructs_of_generate_points (by decide) hrun
  exact ⟨keys, rest, hrun, hone 2 (by decide), hbatch (by decide) _ hqueries (by decide),
    hall (by decide) (by decide)⟩

end Verified

end PointSharing.MultiPoint
