/-
Evaluation with proof, by one party and by two.

A party visits the leaves of one index, of a list of indices or of the whole domain, in the
order of the indices.  Its outputs depend on nothing but the leaves, so those for a list are those
of its indices, one after the other, and they are the outputs without proof (`SameOutputs`).  The
proof is of the list as a whole, but it depends only on which leaves are visited in which order, and
widening the tree visits them in the order of the list of all indices.  `ModesAgree` puts this
together for one party and any tree of the declared sizes.

The tags of the leaves are folded in the order of the queries, and a fold depends on
nothing but its start and the tags.  So two parties have the same proof for every list of
queries as soon as they start from the same tag and contribute the same tag at every single
index.  `Prover.Agree` asks for just that, next to outputs that add up.
-/
import PointSharing.Proofs.Evaluation
import PointSharing.Verification.Prover

namespace PointSharing

/-- Evaluating one index, some indices and all indices with proof is one evaluation asked for in
three ways, as long as the outputs fit into a buffer. -/
structure ModesAgree (rangeSize dataSize : Nat) (one : UInt64 → Except Error Proved)
    (batch : List UInt64 → Except Error Proved) (all : Except Error Proved) : Prop where
  /-- Some indices have the outputs of each of them, one after the other. -/
  outputs : ∀ indices : List UInt64, (∀ index ∈ indices, index.toNat < domainSize rangeSize) →
    indices.length * dataSize ≤ maxBuffer →
    ∃ proved singles, batch indices = .ok proved ∧ indices.mapM one = .ok singles ∧
      proved.output = singles.flatMap Proved.output
  /-- A single index has the same output and the same proof in a list. -/
  singleton : ∀ index, batch [index] = one index
  /-- The whole domain has the output and the proof of the list of all indices. -/
  wholeDomain : domainSize rangeSize * dataSize ≤ maxBuffer →
    ∃ proved, all = .ok proved ∧ batch (allIndices rangeSize) = .ok proved

/-- Evaluating with proof has the outputs of evaluating without, whenever it succeeds. -/
structure SameOutputs (evaluate : UInt64 → Except Error Bytes) (evaluateAll : Except Error Bytes)
    (one : UInt64 → Except Error Proved) (batch : List UInt64 → Except Error Proved)
    (all : Except Error Proved) : Prop where
  one : ∀ index proved, one index = .ok proved → evaluate index = .ok proved.output
  batch : ∀ indices proved, batch indices = .ok proved →
    ∃ outputs, indices.mapM evaluate = .ok outputs ∧ proved.output = outputs.flatten
  all : ∀ proved, all = .ok proved → evaluateAll = .ok proved.output

/-- Limiting the evaluations that may visit the whole domain changes no output. -/
theorem SameOutputs.checkFullDomain {evaluate : UInt64 → Except Error Bytes}
    {evaluateAll : Except Error Bytes} {one : UInt64 → Except Error Proved}
    {batch : List UInt64 → Except Error Proved} {all : Except Error Proved}
    (h : SameOutputs evaluate evaluateAll one batch all) (rangeSize : Nat) :
    SameOutputs evaluate (PointSharing.checkFullDomain rangeSize >>= fun _ => evaluateAll) one
      (fun indices => PointSharing.checkFullDomain rangeSize >>= fun _ => batch indices)
      (PointSharing.checkFullDomain rangeSize >>= fun _ => all) where
  one := h.one
  batch indices proved hbatch := h.batch indices proved (check_bind_eq_ok_iff.mp hbatch).2
  all proved hall := by
    obtain ⟨hfull, hall⟩ := check_bind_eq_ok_iff.mp hall
    exact check_bind_eq_ok_iff.mpr ⟨hfull, h.all proved hall⟩

/-- Both parties' evaluations succeed with one proof, and their outputs add up to `value`. -/
def Reconstructs (value : Bytes) (a b : Except Error Proved) : Prop :=
  ∃ provedA provedB, a = .ok provedA ∧ b = .ok provedB ∧ provedA.proof = provedB.proof ∧
    provedA.proof.length = proofSize ∧
    reconstruct provedA.output provedB.output = .ok value

namespace Prover

variable {σ : Type}

/-- Each index with its leaf. -/
def visited (p : Prover σ) (indices : List UInt64) : List (UInt64 × σ) :=
  indices.map fun index => (index, p.leafAt index)

/-! ### One party -/

theorem output_visit_visited (p : Prover σ) (indices : List UInt64) :
    (p.visit (p.visited indices)).output
      = indices.flatMap fun index => p.output (p.leafAt index) := by
  simp only [visit, visited, List.flatMap_map]

theorem length_output_visited {p : Prover σ} (hsized : p.Sized) (indices : List UInt64) :
    (p.visit (p.visited indices)).output.length = indices.length * p.dataSize := by
  rw [output_visit_visited, Bytes.length_flatMap_of_forall _ fun index _ => hsized.output _,
    Nat.mul_comm]

theorem proveAt_eq_ok_iff {p : Prover σ} {indices : List UInt64} {proved : Proved} :
    p.proveAt indices = .ok proved ↔
      (∀ index ∈ indices, index.toNat < domainSize p.rangeSize) ∧
        indices.length * p.dataSize ≤ maxBuffer ∧ p.visit (p.visited indices) = proved := by
  unfold proveAt
  rw [check_bind_eq_ok_iff, checkQueries_eq_ok_iff, check_bind_eq_ok_iff,
    allocateOutputs_eq_ok_iff]
  exact and_congr_right fun _ => and_congr_right fun _ => ⟨Except.ok.inj, congrArg Except.ok⟩

theorem proveAt_eq_ok (p : Prover σ) {indices : List UInt64}
    (hindices : ∀ index ∈ indices, index.toNat < domainSize p.rangeSize)
    (hsize : indices.length * p.dataSize ≤ maxBuffer) :
    p.proveAt indices = .ok (p.visit (p.visited indices)) :=
  proveAt_eq_ok_iff.mpr ⟨hindices, hsize, rfl⟩

section

variable (p : Prover σ) (hlevels : p.levels.length = p.rangeSize)
  (hn : p.rangeSize ≤ maxRangeBits)

include hlevels hn

/-- Evaluation of the whole domain visits what a list of all indices visits. -/
theorem zipIdx_leaves_eq_visited :
    (p.leaves.zipIdx.map fun (leaf, i) => (UInt64.ofNat i, leaf))
      = p.visited (allIndices p.rangeSize) := by
  rw [Evaluator.leaves_eq_map_leafAt hlevels hn]
  apply List.ext_getElem?
  intro i
  simp only [visited, allIndices, List.getElem?_map, List.getElem?_zipIdx, Option.map_map]
  cases hi : (List.range (domainSize p.rangeSize))[i]? with
  | none => rfl
  | some j =>
      obtain ⟨hlt, hj⟩ := List.getElem?_eq_some_iff.mp hi
      rw [List.getElem_range] at hj
      simp [← hj]

theorem proveAll_eq : p.proveAll = (allocate (domainSize p.rangeSize * p.dataSize)
    >>= fun _ => .ok (p.visit (p.visited (allIndices p.rangeSize)))) := by
  rw [proveAll, p.zipIdx_leaves_eq_visited hlevels hn]
  rfl

theorem proveAll_eq_ok_iff {proved : Proved} :
    p.proveAll = .ok proved ↔ domainSize p.rangeSize * p.dataSize ≤ maxBuffer ∧
      p.visit (p.visited (allIndices p.rangeSize)) = proved := by
  rw [p.proveAll_eq hlevels hn, check_bind_eq_ok_iff, allocate_eq_ok_iff]
  exact and_congr_right fun _ => ⟨Except.ok.inj, congrArg Except.ok⟩

theorem proveAll_eq_ok (hsize : domainSize p.rangeSize * p.dataSize ≤ maxBuffer) :
    p.proveAll = .ok (p.visit (p.visited (allIndices p.rangeSize))) :=
  (p.proveAll_eq_ok_iff hlevels hn).mpr ⟨hsize, rfl⟩

/-- **The three ways of evaluating a tree of the declared sizes with proof agree.** -/
theorem modesAgree :
    ModesAgree p.rangeSize p.dataSize (fun index => p.proveAt [index]) p.proveAt p.proveAll where
  outputs := by
    intro indices hindices hsize
    have hone : ∀ index ∈ indices,
        p.proveAt [index] = .ok (p.visit (p.visited [index])) := by
      intro index hindex
      -- the list is not empty, so one output is no longer than all of them
      have hone : 1 * p.dataSize ≤ indices.length * p.dataSize :=
        Nat.mul_le_mul_right _ (List.length_pos_of_mem hindex)
      exact p.proveAt_eq_ok (by simpa using hindices index hindex) (Nat.le_trans hone hsize)
    refine ⟨_, _, p.proveAt_eq_ok hindices hsize, mapM_eq_ok_map hone, ?_⟩
    simp only [output_visit_visited, List.flatMap_map, List.flatMap_cons, List.flatMap_nil,
      List.append_nil]
  singleton _ := rfl
  wholeDomain := by
    intro hsize
    refine ⟨_, p.proveAll_eq_ok hlevels hn hsize, p.proveAt_eq_ok ?_ ?_⟩
    · exact fun index => lt_domainSize_of_mem_allIndices hn
    · rwa [length_allIndices]

end

/-- **The proof is all that evaluating a tree with proof adds.** -/
theorem sameOutputs (p : Prover σ) (hsized : p.Sized) (hn : p.rangeSize ≤ maxRangeBits) :
    SameOutputs p.evaluate p.evaluateAll (fun index => p.proveAt [index]) p.proveAt
      p.proveAll where
  one := by
    intro index proved h
    obtain ⟨hindex, -, rfl⟩ := proveAt_eq_ok_iff.mp h
    rw [p.evaluate_eq_ok (hindex index (by simp)), output_visit_visited, List.flatMap_singleton]
  batch := by
    intro indices proved h
    obtain ⟨hindices, -, rfl⟩ := proveAt_eq_ok_iff.mp h
    refine ⟨_, mapM_eq_ok_map fun index hindex => p.evaluate_eq_ok (hindices index hindex), ?_⟩
    rw [output_visit_visited, List.flatMap_def]
  all := by
    intro proved h
    obtain ⟨hsize, rfl⟩ := (p.proveAll_eq_ok_iff hsized.levels hn).mp h
    rw [p.evaluateAll_eq_ok hsize, hsized.table_eq hn, table_eq_flatMap, output_visit_visited]

/-! ### Two parties -/

/-- Two trees whose outputs add up and whose tags are the same at every index. -/
structure Agree (rangeSize dataSize : Nat) (value : UInt64 → Bytes) (a b : Prover σ) : Prop where
  outputs : Evaluator.AddUp rangeSize dataSize value a.toEvaluator b.toEvaluator
  hashes : a.hashes = b.hashes
  start : a.start = b.start
  tags : ∀ index : UInt64, index.toNat < domainSize rangeSize →
    a.tag index (a.leafAt index) = b.tag index (b.leafAt index)

namespace Agree

variable {rangeSize dataSize : Nat} {value : UInt64 → Bytes} {a b : Prover σ}

theorem visit (h : Agree rangeSize dataSize value a b) {indices : List UInt64}
    (hindices : ∀ index ∈ indices, index.toNat < domainSize rangeSize) :
    Reconstructs (indices.flatMap value) (.ok (a.visit (a.visited indices)))
      (.ok (b.visit (b.visited indices))) := by
  refine ⟨_, _, rfl, rfl, ?_, Hashes.length_prove _ _ _, ?_⟩
  · have htags : ((a.visited indices).map fun place => a.tag place.1 place.2)
        = (b.visited indices).map fun place => b.tag place.1 place.2 := by
      simp only [visited, List.map_map]
      exact List.map_congr_left fun index hindex => h.tags index (hindices index hindex)
    show a.hashes.prove a.start ((a.visited indices).map fun place => a.tag place.1 place.2)
      = b.hashes.prove b.start ((b.visited indices).map fun place => b.tag place.1 place.2)
    rw [h.hashes, h.start, htags]
  · rw [output_visit_visited, output_visit_visited]
    exact h.outputs.reconstruct_flatMap hindices

/-- **Any queries, in any order and with repetitions, give one proof and the values.** -/
theorem proveAt (h : Agree rangeSize dataSize value a b) {indices : List UInt64}
    (hindices : ∀ index ∈ indices, index.toNat < domainSize rangeSize)
    (hsize : indices.length * dataSize ≤ maxBuffer) :
    Reconstructs (indices.flatMap value) (a.proveAt indices) (b.proveAt indices) := by
  rw [a.proveAt_eq_ok (by rwa [h.outputs.rangeSize_a]) (by rwa [h.outputs.dataSize_a]),
    b.proveAt_eq_ok (by rwa [h.outputs.rangeSize_b]) (by rwa [h.outputs.dataSize_b])]
  exact h.visit hindices

theorem proveAt_singleton (h : Agree rangeSize dataSize value a b) {index : UInt64}
    (hindex : index.toNat < domainSize rangeSize) (hsize : dataSize ≤ maxBuffer) :
    Reconstructs (value index) (a.proveAt [index]) (b.proveAt [index]) := by
  have hone : [index].length * dataSize ≤ maxBuffer := by simpa using hsize
  simpa using h.proveAt (by simpa using hindex) hone

/-- **The whole domain gives one proof and the table of the function.** -/
theorem proveAll (h : Agree rangeSize dataSize value a b) (hn : rangeSize ≤ maxRangeBits)
    (hsize : domainSize rangeSize * dataSize ≤ maxBuffer) :
    Reconstructs (table rangeSize value) a.proveAll b.proveAll := by
  have ha := h.outputs.rangeSize_a
  have hb := h.outputs.rangeSize_b
  rw [a.proveAll_eq_ok h.outputs.sized_a.levels (by rwa [ha])
      (by rwa [ha, h.outputs.dataSize_a]),
    b.proveAll_eq_ok h.outputs.sized_b.levels (by rwa [hb])
      (by rwa [hb, h.outputs.dataSize_b]), table_eq_flatMap, ha, hb]
  exact h.visit fun index => lt_domainSize_of_mem_allIndices hn

end Agree

end Prover

end PointSharing
