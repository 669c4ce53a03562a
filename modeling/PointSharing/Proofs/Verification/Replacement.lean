/-
What the proof of an evaluation depends on, and what its outputs depend on.

A tree with tags makes its outputs in one place and its tags in another.  With other outputs
(`withOutput`) it is refused the same queries and has the same proofs, and at every leaf its output
is shifted by what the two outputs there differ by.  With other tags (`withTags`) it has the same
outputs.  Both are said of all three ways of evaluating at once, and of refused evaluations too.

Two parties that agree still agree if the outputs of one of them are replaced: they reconstruct
values that are shifted by what was replaced, and no proof tells.
-/
import PointSharing.Pair
import PointSharing.Proofs.Verification.Prover

namespace PointSharing

/-- The pair in which what one party has is replaced. -/
def Pair.replace {α : Type} (pair : Pair α) : Party → α → Pair α
  | .a, x => ⟨x, pair.b⟩
  | .b, x => ⟨pair.a, x⟩

/-- The three ways of evaluating a key with proof. -/
structure ProvedEvaluations where
  /-- At one index. -/
  one : UInt64 → Except Error Proved
  /-- At some indices. -/
  batch : List UInt64 → Except Error Proved
  /-- At all indices. -/
  all : Except Error Proved

namespace ProvedEvaluations

/-- Evaluations of which those that may visit the whole domain are limited to domains of which that
is allowed. -/
def limited (rangeSize : Nat) (e : ProvedEvaluations) : ProvedEvaluations where
  one := e.one
  batch indices := checkFullDomain rangeSize >>= fun _ => e.batch indices
  all := checkFullDomain rangeSize >>= fun _ => e.all

end ProvedEvaluations

/-! ### Comparing evaluations -/

/-- Either both evaluations are refused, for the same reason, or both succeed, with the same proof
and with outputs that differ by `shift`. -/
def ShiftedBy (shift : Bytes) : Except Error Proved → Except Error Proved → Prop
  | .ok proved, .ok proved' => proved'.proof = proved.proof ∧
      proved'.output.length = proved.output.length ∧
      Bytes.xor proved.output proved'.output = shift
  | .error e, .error e' => e' = e
  | _, _ => False

theorem ShiftedBy.of_ok {shift : Bytes} {proved : Proved} {outcome : Except Error Proved}
    (h : ShiftedBy shift (.ok proved) outcome) :
    ∃ proved', outcome = .ok proved' ∧ proved'.proof = proved.proof ∧
      proved'.output.length = proved.output.length ∧
      Bytes.xor proved.output proved'.output = shift := by
  cases outcome with
  | error e => exact absurd h id
  | ok proved' => exact ⟨proved', rfl, h⟩

theorem ShiftedBy.bind {α : Type} {shift : Bytes} {f f' : α → Except Error Proved}
    (h : ∀ a, ShiftedBy shift (f a) (f' a)) (check : Except Error α) :
    ShiftedBy shift (check >>= f) (check >>= f') := by
  cases check with
  | error e => exact rfl
  | ok a => exact h a

/-- Outputs that are the same after a check are the same with it. -/
theorem map_output_bind_congr {α : Type} {f f' : α → Except Error Proved}
    (h : ∀ a, (f' a).map Proved.output = (f a).map Proved.output) (check : Except Error α) :
    (check >>= f').map Proved.output = (check >>= f).map Proved.output := by
  cases check with
  | error e => exact rfl
  | ok a => exact h a

namespace ProvedEvaluations

/-- Whatever is asked, the proofs are the same and the outputs differ by the shifts of the indices
that were asked for. -/
structure Shifted (rangeSize : Nat) (shift : UInt64 → Bytes) (e e' : ProvedEvaluations) :
    Prop where
  one : ∀ index, ShiftedBy (shift index) (e.one index) (e'.one index)
  batch : ∀ indices : List UInt64,
    ShiftedBy (indices.flatMap shift) (e.batch indices) (e'.batch indices)
  all : ShiftedBy (table rangeSize shift) e.all e'.all

/-- Whatever is asked, the outputs are the same, also if the proofs are not. -/
structure OutputsAgree (e e' : ProvedEvaluations) : Prop where
  one : ∀ index, (e'.one index).map Proved.output = (e.one index).map Proved.output
  batch : ∀ indices, (e'.batch indices).map Proved.output = (e.batch indices).map Proved.output
  all : e'.all.map Proved.output = e.all.map Proved.output

/-- Whatever is asked of two parties, if the outputs fit into a buffer they have the same proof and
their outputs add up to the values. -/
structure ReconstructAll (rangeSize dataSize : Nat) (value : UInt64 → Bytes)
    (a b : ProvedEvaluations) : Prop where
  one : ∀ index : UInt64, index.toNat < domainSize rangeSize → dataSize ≤ maxBuffer →
    Reconstructs (value index) (a.one index) (b.one index)
  batch : rangeSize ≤ 32 → ∀ indices : List UInt64,
    (∀ index ∈ indices, index.toNat < domainSize rangeSize) →
    indices.length * dataSize ≤ maxBuffer →
    Reconstructs (indices.flatMap value) (a.batch indices) (b.batch indices)
  all : rangeSize ≤ 32 → domainSize rangeSize * dataSize ≤ maxBuffer →
    Reconstructs (table rangeSize value) a.all b.all

variable {e e' : ProvedEvaluations} {rangeSize : Nat} {shift : UInt64 → Bytes}

theorem Shifted.limited (h : Shifted rangeSize shift e e') (n : Nat) :
    Shifted rangeSize shift (e.limited n) (e'.limited n) where
  one := h.one
  batch indices := ShiftedBy.bind (fun _ => h.batch indices) _
  all := ShiftedBy.bind (fun _ => h.all) _

theorem OutputsAgree.limited (h : OutputsAgree e e') (n : Nat) :
    OutputsAgree (e.limited n) (e'.limited n) where
  one := h.one
  batch indices := map_output_bind_congr (fun _ => h.batch indices) _
  all := map_output_bind_congr (fun _ => h.all) _

end ProvedEvaluations

namespace Prover

variable {σ : Type}

/-- The three ways of evaluating a tree with proof. -/
def evaluations (p : Prover σ) : ProvedEvaluations where
  one index := p.proveAt [index]
  batch := p.proveAt
  all := p.proveAll

/-! ### Other outputs -/

/-- The tree with other outputs at its leaves. -/
def withOutput (p : Prover σ) (output : σ → Bytes) : Prover σ := { p with output := output }

/-- What the outputs at the leaf of an index differ by. -/
def shift (p : Prover σ) (output : σ → Bytes) (index : UInt64) : Bytes :=
  Bytes.xor (p.output (p.leafAt index)) (output (p.leafAt index))

section

variable {p : Prover σ} {output : σ → Bytes} (hsized : p.Sized)
  (houtput : ∀ leaf, (output leaf).length = p.dataSize)

include hsized houtput

theorem shiftedBy_visit (indices : List UInt64) :
    ShiftedBy (indices.flatMap (p.shift output)) (.ok (p.visit (p.visited indices)))
      (.ok ((p.withOutput output).visit (p.visited indices))) := by
  have hlength : ∀ leaf, (output leaf).length = (p.output leaf).length := fun leaf =>
    (houtput leaf).trans (hsized.output leaf).symm
  have hvisit : ((p.withOutput output).visit (p.visited indices)).output
      = indices.flatMap fun index => output (p.leafAt index) := by
    simp only [visit, visited, withOutput, List.flatMap_map]
  refine ⟨rfl, ?_, ?_⟩
  · rw [hvisit, output_visit_visited, List.length_flatMap, List.length_flatMap]
    exact congrArg List.sum (List.map_congr_left fun index _ => hlength _)
  · rw [hvisit, output_visit_visited]
    exact Bytes.xor_flatMap indices fun index _ => (hlength _).symm

theorem shiftedBy_proveAt (indices : List UInt64) :
    ShiftedBy (indices.flatMap (p.shift output)) (p.proveAt indices)
      ((p.withOutput output).proveAt indices) :=
  ShiftedBy.bind (fun _ => ShiftedBy.bind (fun _ => shiftedBy_visit hsized houtput indices) _) _

theorem shiftedBy_proveAll (hn : p.rangeSize ≤ maxRangeBits) :
    ShiftedBy (table p.rangeSize (p.shift output)) p.proveAll (p.withOutput output).proveAll := by
  have hvisit := shiftedBy_visit hsized houtput (allIndices p.rangeSize)
  rw [← p.zipIdx_leaves_eq_visited hsized.levels hn, ← table_eq_flatMap] at hvisit
  exact ShiftedBy.bind (fun _ => hvisit) _

/-- **No proof depends on the outputs.** -/
theorem shifted_withOutput (hn : p.rangeSize ≤ maxRangeBits) :
    p.evaluations.Shifted p.rangeSize (p.shift output) (p.withOutput output).evaluations where
  one index := by
    have hone := shiftedBy_proveAt hsized houtput [index]
    rwa [List.flatMap_singleton] at hone
  batch := shiftedBy_proveAt hsized houtput
  all := shiftedBy_proveAll hsized houtput hn

end

/-! ### Other tags -/

/-- The tree with other tags at its leaves, folded from another start. -/
def withTags (p : Prover σ) (start : Tag) (tag : UInt64 → σ → Tag) : Prover σ :=
  { p with start := start, tag := tag }

theorem output_visit_withTags (p : Prover σ) (start : Tag) (tag : UInt64 → σ → Tag)
    (leaves : List (UInt64 × σ)) :
    ((p.withTags start tag).visit leaves).output = (p.visit leaves).output := rfl

theorem map_output_proveAt_withTags (p : Prover σ) (start : Tag) (tag : UInt64 → σ → Tag)
    (indices : List UInt64) :
    ((p.withTags start tag).proveAt indices).map Proved.output
      = (p.proveAt indices).map Proved.output := by
  refine map_output_bind_congr (fun _ => map_output_bind_congr (fun _ => ?_) _) _
  exact congrArg Except.ok (p.output_visit_withTags start tag _)

theorem map_output_proveAll_withTags (p : Prover σ) (start : Tag) (tag : UInt64 → σ → Tag) :
    (p.withTags start tag).proveAll.map Proved.output = p.proveAll.map Proved.output := by
  refine map_output_bind_congr (fun _ => ?_) _
  exact congrArg Except.ok (p.output_visit_withTags start tag _)

/-- **No output depends on the tags.** -/
theorem outputsAgree_withTags (p : Prover σ) (start : Tag) (tag : UInt64 → σ → Tag) :
    p.evaluations.OutputsAgree (p.withTags start tag).evaluations where
  one index := p.map_output_proveAt_withTags start tag [index]
  batch := p.map_output_proveAt_withTags start tag
  all := p.map_output_proveAll_withTags start tag

/-! ### Two parties -/

namespace Agree

variable {n d : Nat} {value : UInt64 → Bytes} {a b : Prover σ}

theorem symm (h : Agree n d value a b) : Agree n d value b a where
  outputs := by
    refine ⟨h.outputs.sized_b, h.outputs.sized_a, h.outputs.rangeSize_b, h.outputs.rangeSize_a,
      h.outputs.dataSize_b, h.outputs.dataSize_a, ?_⟩
    intro index hindex
    have hlength : (b.output (b.leafAt index)).length = (a.output (a.leafAt index)).length :=
      (h.outputs.length_b _).trans (h.outputs.length_a _).symm
    rw [Bytes.xor_comm hlength]
    exact h.outputs.sum index hindex
  hashes := h.hashes.symm
  start := h.start.symm
  tags index hindex := (h.tags index hindex).symm

theorem reconstructAll (h : Agree n d value a b) (hn : n ≤ maxRangeBits) :
    (a.evaluations.limited n).ReconstructAll n d value (b.evaluations.limited n) where
  one _ hindex hsize := h.proveAt_singleton hindex hsize
  batch h32 indices hindices hsize := by
    simp only [ProvedEvaluations.limited, checkFullDomain_eq_ok_iff.mpr h32]
    exact h.proveAt hindices hsize
  all h32 hsize := by
    simp only [ProvedEvaluations.limited, checkFullDomain_eq_ok_iff.mpr h32]
    exact h.proveAll hn hsize

variable {output : σ → Bytes} (houtput : ∀ leaf, (output leaf).length = d)

include houtput

/-- Replacing the outputs of the second party shifts the values. -/
theorem withOutput_right (h : Agree n d value a b) :
    Agree n d (fun index => Bytes.xor (value index) (b.shift output index)) a
      (b.withOutput output) where
  outputs := by
    have hsized : (b.withOutput output).Sized :=
      ⟨h.outputs.sized_b.levels, fun leaf => (houtput leaf).trans h.outputs.dataSize_b.symm⟩
    refine ⟨h.outputs.sized_a, hsized, h.outputs.rangeSize_a, h.outputs.rangeSize_b,
      h.outputs.dataSize_a, h.outputs.dataSize_b, ?_⟩
    intro index hindex
    have hle : (output (b.leafAt index)).length ≤ (b.output (b.leafAt index)).length :=
      Nat.le_of_eq ((houtput _).trans (h.outputs.length_b _).symm)
    rw [← h.outputs.sum index hindex, shift, Bytes.xor_assoc hle, Bytes.xor_xor_cancel_right]
    rfl
  hashes := h.hashes
  start := h.start
  tags := h.tags

/-- Replacing the outputs of the first party shifts the values. -/
theorem withOutput_left (h : Agree n d value a b) :
    Agree n d (fun index => Bytes.xor (value index) (a.shift output index))
      (a.withOutput output) b :=
  (h.symm.withOutput_right houtput).symm

/-- If the key of one party is replaced by one with other outputs, what is reconstructed is
shifted. -/
theorem reconstructAll_replace {κ : Type} (evaluations : κ → ProvedEvaluations) {keys : Pair κ}
    (held : Party → Prover σ) (h : Agree n d value (held .a) (held .b))
    (hheld : ∀ party, evaluations (keys.get party) = (held party).evaluations.limited n)
    (hn : n ≤ maxRangeBits) {party : Party} {key' : κ}
    (hkey' : evaluations key' = ((held party).withOutput output).evaluations.limited n) :
    let replaced := keys.replace party key'
    (evaluations replaced.a).ReconstructAll n d
      (fun index => Bytes.xor (value index) ((held party).shift output index))
      (evaluations replaced.b) := by
  cases party with
  | a =>
      show (evaluations key').ReconstructAll n d _ (evaluations (keys.get .b))
      rw [hkey', hheld]
      exact (h.withOutput_left houtput).reconstructAll hn
  | b =>
      show (evaluations (keys.get .a)).ReconstructAll n d _ (evaluations key')
      rw [hkey', hheld]
      exact (h.withOutput_right houtput).reconstructAll hn

end Agree

end Prover

end PointSharing
