/-
Evaluation with proof, for functions with one special point.

The proof correction is what the tags of the two special leaves differ by, so the one party
that adds it there contributes the other party's tag.  Everywhere else the leaves are the
same and so are their tags.  With that the parties agree at every single index, and then
for every list of queries and for the whole domain.
-/
import PointSharing.Proofs.Point.Prover
import PointSharing.Proofs.Point.Sharing

namespace PointSharing.Point

variable {prg : Prg} {index : UInt64} {n d : Nat} {data : Bytes} {roots : Pair Block}

namespace Shares

/-- Where the parties' leaves differ, the correction makes their tags the same. -/
theorem tag_leaves_eq (hashes : Hashes) :
    let shares := ofRoots prg roots (path index n) data
    let correction := shares.proofCorrection hashes index
    (shares.parts correction .a).tag hashes index shares.leaves.a
      = (shares.parts correction .b).tag hashes index shares.leaves.b := by
  intro shares correction
  have hopposed : shares.leaves.b.control = !shares.leaves.a.control := opposed_leaves
  unfold Parts.tag
  rw [hopposed]
  cases shares.leaves.a.control
  · simp only [Bool.not_false, if_true, Bool.false_eq_true, if_false]
    show _ = _ ^^^ (_ ^^^ _)
    rw [LawfulXor.comm (hashes.leafTag index shares.leaves.a.seed), xor_xor_cancel_left]
  · simp only [Bool.not_true, if_true, Bool.false_eq_true, if_false]
    exact xor_xor_cancel_left _ _

theorem agree (setup : Setup) (roots : Pair Block) (data : Bytes)
    (hindex : index.toNat < domainSize n) :
    let shares := ofRoots setup.prg roots (path index n) data
    let correction := shares.proofCorrection setup.hashes index
    Prover.Agree n data.length (value index data)
      ((shares.parts correction .a).prover setup n data.length)
      ((shares.parts correction .b).prover setup n data.length) := by
  intro shares correction
  refine ⟨addUp setup.prg roots data hindex correction, rfl, rfl, ?_⟩
  intro x hx
  by_cases h : x = index
  · subst h
    have hleafA : ((shares.parts correction .a).prover setup n data.length).leafAt x
        = shares.leaves.a := leafAt_special correction .a
    have hleafB : ((shares.parts correction .b).prover setup n data.length).leafAt x
        = shares.leaves.b := leafAt_special correction .b
    rw [hleafA, hleafB]
    exact tag_leaves_eq setup.hashes
  · exact congrArg ((shares.parts correction .a).tag setup.hashes x)
      (leafAt_ordinary hindex hx h correction)

theorem prover_key (setup : Setup) (hn : n ≤ maxRangeBits) (correction : Tag) (party : Party)
    (hsize : (Layout.pointTable n data.length true).size ≤ maxSize) :
    let shares := ofRoots prg roots (path index n) data
    (shares.key n data.length (some correction) party).prover setup
      = .ok ((shares.parts correction party).prover setup n data.length) := by
  intro shares
  exact Key.prover_eq setup (parse_key hn (some correction) party hsize)

end Shares

namespace Verified

/-- Keys with proofs are generated for all acceptable arguments, if they can be addressed. -/
theorem exists_generate (setup : Setup) (tape : Tape) (hn : n ≤ maxRangeBits)
    (hd : data.length = d) (hindex : index.toNat < domainSize n)
    (hsize : (Layout.pointTable n d true).size ≤ maxSize) :
    ∃ keys rest, (generate setup index n d data).runOn tape = (.ok keys, rest) :=
  ⟨_, _, (Shares.runOn_draw_toKeys_eq_ok_iff fun shares =>
    some (shares.proofCorrection setup.hashes index)).mpr ⟨⟨hn, hd, hindex⟩, hsize, rfl, rfl⟩⟩

/-- **Whatever is queried, both parties have the same proof, and their outputs add up to the
values of the function.** -/
theorem reconstructs_of_generate {setup : Setup} {tape rest : Tape} {keys : Pair Key}
    (hdata : data.length < 1 <<< 63)
    (h : (generate setup index n d data).runOn tape = (.ok keys, rest)) :
    (∀ x : UInt64, x.toNat < domainSize n →
      Reconstructs (value index data x) (evaluate setup keys.a x) (evaluate setup keys.b x)) ∧
    (n ≤ 32 → ∀ queries : List UInt64, (∀ x ∈ queries, x.toNat < domainSize n) →
      queries.length * d ≤ maxBuffer →
      Reconstructs (queries.flatMap (value index data)) (evaluateBatch setup keys.a queries)
        (evaluateBatch setup keys.b queries)) ∧
    (n ≤ 32 → domainSize n * d ≤ maxBuffer →
      Reconstructs (table n (value index data)) (evaluateAll setup keys.a)
        (evaluateAll setup keys.b)) := by
  obtain ⟨⟨hn, hd, hindex⟩, hsize, hkeys, -⟩ :=
    (Shares.runOn_draw_toKeys_eq_ok_iff fun shares =>
      some (shares.proofCorrection setup.hashes index)).mp h
  subst hd
  let shares := Shares.ofTape setup.prg index n data tape
  let correction := shares.proofCorrection setup.hashes index
  have hagree := Shares.agree setup shares.roots data hindex
  have hproverA : keys.a.prover setup
      = .ok ((shares.parts correction .a).prover setup n data.length) := by
    rw [← hkeys]
    exact Shares.prover_key setup hn correction .a hsize
  have hproverB : keys.b.prover setup
      = .ok ((shares.parts correction .b).prover setup n data.length) := by
    rw [← hkeys]
    exact Shares.prover_key setup hn correction .b hsize
  have hrangeA : keys.a.rangeSize = n := by
    rw [← hkeys]
    rfl
  have hrangeB : keys.b.rangeSize = n := by
    rw [← hkeys]
    rfl
  refine ⟨?_, ?_, ?_⟩
  · intro x hx
    rw [evaluate_eq hproverA, evaluate_eq hproverB]
    exact hagree.proveAt_singleton hx (le_maxBuffer_of_lt hdata)
  · intro h32 queries hqueries hlength
    rw [evaluateBatch_eq hproverA (hrangeA ▸ h32), evaluateBatch_eq hproverB (hrangeB ▸ h32)]
    exact hagree.proveAt hqueries hlength
  · intro h32 hlength
    rw [evaluateAll_eq hproverA (hrangeA ▸ h32), evaluateAll_eq hproverB (hrangeB ▸ h32)]
    exact hagree.proveAll hn hlength

/-- With two bits, and with one query twice. -/
theorem reconstructs_of_generate_two_bits :
    ∃ keys rest, (generate ⟨.ofBlock 0, ⟨1, 2⟩⟩ 1 2 1 [7]).runOn (.ofBytes [])
        = (.ok keys, rest) ∧
      Reconstructs [7] (evaluate ⟨.ofBlock 0, ⟨1, 2⟩⟩ keys.a 1)
        (evaluate ⟨.ofBlock 0, ⟨1, 2⟩⟩ keys.b 1) ∧
      Reconstructs [0, 7, 7] (evaluateBatch ⟨.ofBlock 0, ⟨1, 2⟩⟩ keys.a [3, 1, 1])
        (evaluateBatch ⟨.ofBlock 0, ⟨1, 2⟩⟩ keys.b [3, 1, 1]) ∧
      Reconstructs [0, 7, 0, 0] (evaluateAll ⟨.ofBlock 0, ⟨1, 2⟩⟩ keys.a)
        (evaluateAll ⟨.ofBlock 0, ⟨1, 2⟩⟩ keys.b) := by
  have hindex : (1 : UInt64).toNat < domainSize 2 := by decide
  have hd : ([7] : Bytes).length = 1 := rfl
  have hqueries : ∀ x ∈ [3, 1, (1 : UInt64)], x.toNat < domainSize 2 := by simp [domainSize]
  obtain ⟨keys, rest, hrun⟩ :=
    exists_generate ⟨.ofBlock 0, ⟨1, 2⟩⟩ (.ofBytes []) (by decide) hd hindex (by decide)
  obtain ⟨hone, hbatch, hall⟩ := reconstructs_of_generate (by decide) hrun
  exact ⟨keys, rest, hrun, hone 1 (by decide), hbatch (by decide) _ hqueries (by decide),
    hall (by decide) (by decide)⟩

end Verified

end PointSharing.Point
