/-
Where the corrections in a key are padding.

A level has one correction for each active node, and zeros for the points that are left over.  These
are zeros on every tape.  The other corrections depend on the tape: if zeros are drawn, roots
included, the parties have the same seed at every node, and all that is left of a correction is the
bits in which it makes the sign vectors of the active children differ.  An active node has an active
child, so on that tape no correction for an active node is zero.

The places that are zero whatever is drawn are therefore just those of the padding.  Its length
depends on the special indices, so each of the two keys shows how many active nodes there are at
every depth.
-/
import PointSharing.Proofs.MultiPoint.Draws
import PointSharing.Proofs.Serialization

namespace PointSharing.MultiPoint

variable {prg : Prg} {indices indices' : List UInt64} {n depth points d : Nat}
  {roots : Pair Block} {growth : Growth}

/-! ### Padding is zero on every tape -/

/-- The places of a level that are not those of active nodes have a zero correction. -/
def Padded (indices : List UInt64) (n points : Nat) (levels : List (List SignCorrection)) : Prop :=
  ∀ (depth : Nat) (corrections : List SignCorrection), levels[depth]? = some corrections →
    ∀ place, (activePrefixes indices n depth).length ≤ place → place < points →
      corrections[place]? = some SignCorrection.zero

theorem Separates.getElem?_growLevel (h : Separates prg points indices n roots depth growth)
    (tape : Tape) {place : Nat} (hplace : (activePrefixes indices n depth).length ≤ place)
    (hlt : place < points) :
    ((growLevel prg points (branches indices n depth) growth.nodes).run tape).1.1[place]?
      = some SignCorrection.zero := by
  obtain ⟨hlevel, -⟩ := h.run_growLevel_eq tape
  have hlength := Tape.length_run_mapM (correctionAt prg points indices n growth.levels roots depth)
    (activePrefixes indices n depth) tape
  rw [hlevel, List.getElem?_append_right (by omega), List.getElem?_replicate, if_pos (by omega)]

theorem Separates.padded_succ (h : Separates prg points indices n roots depth growth)
    (hpadded : Padded indices n points growth.levels) (tape : Tape) :
    let level := (growLevel prg points (branches indices n depth) growth.nodes).run tape
    Padded indices n points (growth.levels ++ [level.1.1]) := by
  intro level e corrections hlevel place hplace hlt
  by_cases habove : e < growth.levels.length
  · rw [List.getElem?_append_left habove] at hlevel
    exact hpadded e corrections hlevel place hplace hlt
  · obtain ⟨hbound, -⟩ := List.getElem?_eq_some_iff.mp hlevel
    rw [List.length_append, List.length_singleton] at hbound
    have hlast : e = growth.levels.length := by omega
    rw [hlast, List.getElem?_concat_length] at hlevel
    rw [hlast, h.length] at hplace
    rw [← Option.some.inj hlevel]
    exact h.getElem?_growLevel tape hplace hlt

theorem padded_grow (prg : Prg) (roots : Pair Block) (hspecial : SpecialIndices indices n points)
    (hdepth : depth ≤ n) (tape : Tape) :
    Padded indices n points ((grow prg points indices n roots depth).run tape).1.levels := by
  induction depth generalizing tape with
  | zero =>
      intro e corrections hlevel
      cases hlevel
  | succ depth ih =>
      have hbefore := separates_grow prg roots hspecial (Nat.le_of_succ_le hdepth) tape
      exact hbefore.padded_succ (ih (by omega) tape)
        ((grow prg points indices n roots depth).run tape).2

/-! ### On a tape of zeros nothing else is -/

/-- The correction that only makes the sign vectors of the active children differ. -/
def ownCorrection (branch : Branch) : SignCorrection :=
  ⟨0, ownSign branch.left, ownSign branch.right⟩

/-- The level in which every correction does only that. -/
def ownLevel (indices : List UInt64) (n points depth : Nat) : List SignCorrection :=
  let corrections := (branches indices n depth).map ownCorrection
  corrections ++ List.replicate (points - corrections.length) SignCorrection.zero

/-- Nothing but zeros can be drawn. -/
def OfZeros (tape : Tape) : Prop := ∀ i, tape.block i = 0

theorem seed_of_mem_ownLevel {correction : SignCorrection}
    (h : correction ∈ ownLevel indices n points depth) : correction.seed = 0 := by
  rcases List.mem_append.mp h with hown | hzero
  · obtain ⟨branch, -, rfl⟩ := List.mem_map.mp hown
    rfl
  · rw [List.eq_of_mem_replicate hzero]
    rfl

/-- Parties with the same seed need no more than their own bits. -/
theorem run_correctionFor_of_zeros (branch : Branch) {states : Pair (Node SignVector)}
    (hseed : states.a.seed = states.b.seed) {tape : Tape} (htape : OfZeros tape) :
    let correction := (correctionFor branch (forksOf prg points states)).run tape
    correction.1 = ownCorrection branch ∧ OfZeros correction.2 := by
  let fork := prg.expandSigns points states.b.seed
  have hforks : forksOf prg points states = ⟨fork, fork⟩ := by
    show Pair.mk (prg.expandSigns points states.a.seed) fork = ⟨fork, fork⟩
    rw [hseed]
  have hseeds : ∀ right, ((fork ^^^ fork).side right).seed = 0 := by
    intro right
    cases right <;> exact BitVec.xor_self
  have hsigns : ∀ right (own : SignVector), ((fork ^^^ fork).side right).control ^^^ own = own := by
    intro right own
    have hself : ∀ sign : SignVector, sign ^^^ sign ^^^ own = own := by
      intro sign
      rw [BitVec.xor_self, BitVec.zero_xor]
    cases right <;> exact hself _
  rw [hforks]
  unfold correctionFor
  -- the seed is drawn for two active children, and otherwise what the parties differ by
  cases branch.isSplit with
  | true => exact ⟨(Correction.mk.injEq ..).mpr ⟨htape _, hsigns false _, hsigns true _⟩, htape⟩
  | false => exact ⟨(Correction.mk.injEq ..).mpr ⟨hseeds _, hsigns false _, hsigns true _⟩, htape⟩

theorem seed_selected {corrections : List SignCorrection}
    (h : ∀ correction ∈ corrections, correction.seed = 0) (sign : SignVector) :
    (SignCorrection.selected corrections sign).seed = 0 := by
  refine SignVector.sum_inv (P := fun sum : SignCorrection => sum.seed = 0) ?_
    (show SignCorrection.zero.seed = 0 from rfl) sign
  intro sum correction hcorrection hsum
  rw [Correction.seed_xor, hsum, h correction hcorrection]
  rfl

theorem seed_side_level {corrections : List SignCorrection}
    (h : ∀ correction ∈ corrections, correction.seed = 0) (node : Node SignVector) (right : Bool) :
    ((level prg points corrections node).side right).seed
      = ((prg.expandSigns points node.seed).side right).seed := by
  simp only [side_level, seed_toFork_side, seed_selected h]
  exact BitVec.xor_zero

/-- Both parties have the same seeds everywhere, and the corrections do nothing about seeds. -/
structure Alike (prg : Prg) (points : Nat) (indices : List UInt64) (n : Nat) (roots : Pair Block)
    (depth : Nat) (levels : List (List SignCorrection)) : Prop where
  own : levels = (List.range depth).map (ownLevel indices n points)
  seeds : ∀ node, (statesAt prg points levels roots depth node).a.seed
    = (statesAt prg points levels roots depth node).b.seed

/-- On a tape of zeros one more level is made from own bits only. -/
theorem Separates.run_growLevel_of_zeros (h : Separates prg points indices n roots depth growth)
    (halike : Alike prg points indices n roots depth growth.levels) {tape : Tape}
    (htape : OfZeros tape) :
    let level := (growLevel prg points (branches indices n depth) growth.nodes).run tape
    level.1.1 = ownLevel indices n points depth ∧ OfZeros level.2 := by
  intro level
  obtain ⟨hlevel, hrest⟩ := h.run_growLevel_eq tape
  obtain ⟨hcorrections, hzeros⟩ := Tape.run_mapM_eq_map (P := OfZeros)
    (f := correctionAt prg points indices n growth.levels roots depth)
    (g := fun node => ownCorrection (branchAt indices n depth node))
    (l := activePrefixes indices n depth)
    (fun node _ tape htape => run_correctionFor_of_zeros _ (halike.seeds node) htape) htape
  refine ⟨hlevel.trans ?_, hrest ▸ hzeros⟩
  rw [hcorrections, ownLevel, branches_eq_map, List.map_map]
  rfl

theorem Alike.step {levels : List (List SignCorrection)}
    (h : Alike prg points indices n roots depth levels) :
    Alike prg points indices n roots (depth + 1) (levels ++ [ownLevel indices n points depth]) := by
  have hlength : levels.length = depth := by
    rw [h.own, List.length_map, List.length_range]
  refine ⟨?_, ?_⟩
  · rw [h.own, List.range_succ, List.map_append, List.map_singleton]
  · intro node
    simp only [statesAt_succ prg points hlength, Pair.map,
      seed_side_level fun _ => seed_of_mem_ownLevel, h.seeds]

/-- **If nothing but zeros can be drawn, all levels are made from own bits only.** -/
theorem alike_grow (prg : Prg) (hroots : roots.a = roots.b)
    (hspecial : SpecialIndices indices n points) (hdepth : depth ≤ n) {tape : Tape}
    (htape : OfZeros tape) :
    let grown := (grow prg points indices n roots depth).run tape
    Alike prg points indices n roots depth grown.1.levels ∧ OfZeros grown.2 := by
  induction depth generalizing tape with
  | zero => exact ⟨⟨rfl, fun _ => hroots⟩, htape⟩
  | succ depth ih =>
      intro grown
      obtain ⟨hbefore, hmid⟩ := ih (by omega) htape
      have hseparates := separates_grow prg roots hspecial (Nat.le_of_succ_le hdepth) tape
      obtain ⟨hlevel, hrest⟩ := hseparates.run_growLevel_of_zeros hbefore hmid
      have hlevels : grown.1.levels = _ ++ [ownLevel indices n points depth] :=
        congrArg (fun level => _ ++ [level]) hlevel
      exact ⟨hlevels ▸ hbefore.step, hrest⟩

theorem ownSign_ne_zero {point : Nat} (h : point < maxPoints) : ownSign (some point) ≠ 0 := by
  intro hzero
  have hbit := SignVector.getLsbD_single h point
  rw [show SignVector.single point = 0 from hzero, beq_self_eq_true] at hbit
  exact absurd hbit (by simp)

/-- An active node has an active child, in whose bit the sign vectors are made to differ. -/
theorem ownCorrection_ne_zero (h : SpecialIndices indices n points) (hdepth : depth < n)
    {node : Nat} (hnode : node ∈ activePrefixes indices n depth) :
    ownCorrection (branchAt indices n depth node) ≠ SignCorrection.zero := by
  obtain ⟨child, hchild, rfl⟩ := (mem_activePrefixes_iff_exists_child hdepth).mp hnode
  obtain ⟨point, hpoint⟩ := List.mem_iff_getElem?.mp hchild
  have hside := side_branchAt_eq_some h.ascending hpoint
  have hlt : point < maxPoints := Nat.lt_of_lt_of_le (h.position_lt hpoint) h.supported
  intro hzero
  have hown : ∀ right, ownSign ((branchAt indices n depth (child / 2)).side right) = 0 := by
    intro right
    cases right
    · exact congrArg Correction.left hzero
    · exact congrArg Correction.right hzero
  exact ownSign_ne_zero hlt (hside ▸ hown (child.testBit 0))

theorem getElem?_ownLevel {place node : Nat}
    (h : (activePrefixes indices n depth)[place]? = some node) :
    (ownLevel indices n points depth)[place]?
      = some (ownCorrection (branchAt indices n depth node)) := by
  obtain ⟨hlt, hnode⟩ := List.getElem?_eq_some_iff.mp h
  rw [ownLevel, branches_eq_map, List.map_map, List.getElem?_append_left (by simpa using hlt),
    List.getElem?_map, h]
  rfl

/-! ### What a key shows -/

/-- The places of corrections where a key has zeros, whatever is drawn and whatever the values at
the special indices are. -/
def unusedEntries (prg : Prg) (indices : List UInt64) (n points d : Nat) : Set (Nat × Nat) :=
  { place | place.1 < n ∧ place.2 < points ∧
    ∀ (data : Bytes) (tape rest : Tape) (keys : Pair Key) (layout : Layout),
      (generate prg indices n points d data).runOn tape = (.ok keys, rest) →
      Layout.multiPoint n points d false = .ok layout →
      ∀ party, correctionWord layout points (keys.get party).bytes place.1 place.2
        = Bytes.zeros signCorrectionSize }

theorem toBytes_eq_zeros_iff {correction : SignCorrection} :
    correction.toBytes = Bytes.zeros signCorrectionSize ↔ correction = SignCorrection.zero := by
  have hzero : SignCorrection.zero.toBytes = Bytes.zeros signCorrectionSize := by decide
  constructor
  · intro h
    have hread := SignCorrection.ofBytes_toBytes_append correction []
    rwa [h, ← hzero, SignCorrection.ofBytes_toBytes_append, eq_comm] at hread
  · rintro rfl
    exact hzero

section

variable (prg) (hspecial : SpecialIndices indices n points)

include hspecial

/-- In whatever is generated, the places past those of the active nodes are zero. -/
theorem mem_unusedEntries {place : Nat} (hdepth : depth < n)
    (hplace : (activePrefixes indices n depth).length ≤ place) (hlt : place < points) :
    (depth, place) ∈ unusedEntries prg indices n points d := by
  refine ⟨hdepth, hlt, ?_⟩
  intro data tape rest keys layout hrun htable party
  let shares := Shares.ofTape prg indices n points d data tape
  have hwritten := Shares.writtenTo (fun _ => none) Shares.noProofs hrun
  have hlayout : layout = _ := Except.ok.inj (htable.symm.trans hwritten.table)
  obtain ⟨corrections, hlevel⟩ : ∃ corrections, shares.levels[depth]? = some corrections :=
    ⟨_, List.getElem?_eq_getElem (hwritten.levels.symm ▸ hdepth)⟩
  have hpadded : Padded indices n points shares.levels :=
    padded_grow prg (Shares.rootsOf tape) hspecial (Nat.le_refl n) (tape.skip 2)
  rw [hlayout, hwritten.word party depth place _ _ hlevel
    (hpadded depth corrections hlevel place hplace hlt), toBytes_eq_zeros_iff]

variable (hn : n ≤ maxRangeBits) (hdata : points * d < 1 <<< 63)

include hn hdata

/-- If zeros are drawn, the keys for any values have the bits of an active node in its place. -/
theorem not_mem_unusedEntries {place node : Nat} (hdepth : depth < n)
    (hnode : (activePrefixes indices n depth)[place]? = some node) :
    (depth, place) ∉ unusedEntries prg indices n points d := by
  rintro ⟨-, -, hunused⟩
  let tape : Tape := ⟨fun _ => 0, 0⟩
  let data := Bytes.zeros (points * d)
  let shares := Shares.ofTape prg indices n points d data tape
  have hlength : data.length = points * d := Bytes.length_zeros _
  have hrun := (runOn_generate prg tape hn hspecial hlength (by omega)).2
  have hwritten := Shares.writtenTo (fun _ => none) Shares.noProofs hrun
  -- the levels do not depend on the values, so those of any data will do
  have halike : Alike prg points indices n ⟨0, 0⟩ n shares.levels :=
    (alike_grow prg rfl hspecial (Nat.le_refl n)
      (show OfZeros (tape.skip 2) from fun _ => rfl)).1
  have hlevel : shares.levels[depth]? = some (ownLevel indices n points depth) := by
    rw [halike.own, List.getElem?_map, List.getElem?_range hdepth]
    rfl
  have hword := hwritten.word .a depth place _ _ hlevel (getElem?_ownLevel hnode)
  have hzeros := hunused data tape _ _ _ hrun hwritten.table .a
  exact ownCorrection_ne_zero hspecial hdepth (List.mem_of_getElem? hnode)
    (toBytes_eq_zeros_iff.mp (hword.symm.trans hzeros))

/-- The unused entries are those past the active nodes of their depth. -/
theorem mem_unusedEntries_iff {place : Nat} :
    (depth, place) ∈ unusedEntries prg indices n points d ↔
      depth < n ∧ (activePrefixes indices n depth).length ≤ place ∧ place < points := by
  constructor
  · intro hmem
    have hdepth : depth < n := hmem.1
    refine ⟨hdepth, ?_, hmem.2.1⟩
    by_contra hused
    have hnode := List.getElem?_eq_getElem (Nat.lt_of_not_le hused)
    exact not_mem_unusedEntries prg hspecial hn hdata hdepth hnode hmem
  · rintro ⟨hdepth, hplace, hlt⟩
    exact mem_unusedEntries prg hspecial hdepth hplace hlt

/-- Fewer active nodes leave more entries unused. -/
theorem unusedEntries_subset_iff (hspecial' : SpecialIndices indices' n points) :
    unusedEntries prg indices n points d ⊆ unusedEntries prg indices' n points d ↔
      ∀ depth < n, (activePrefixes indices' n depth).length
        ≤ (activePrefixes indices n depth).length := by
  constructor
  · intro hsubset depth hdepth
    by_contra hless
    have hlt : (activePrefixes indices n depth).length < points :=
      Nat.lt_of_lt_of_le (Nat.lt_of_not_le hless) hspecial'.length_activePrefixes_le
    have hmem := hsubset ((mem_unusedEntries_iff prg hspecial hn hdata).mpr
      ⟨hdepth, Nat.le_refl _, hlt⟩)
    exact hless ((mem_unusedEntries_iff prg hspecial' hn hdata).mp hmem).2.1
  · intro hcount place hmem
    obtain ⟨hdepth, hplace, hlt⟩ := (mem_unusedEntries_iff prg hspecial hn hdata).mp hmem
    exact (mem_unusedEntries_iff prg hspecial' hn hdata).mpr
      ⟨hdepth, Nat.le_trans (hcount _ hdepth) hplace, hlt⟩

end

/-- **Keys for two lists of special indices have the same unused entries exactly if the lists have as
many active nodes at every depth.**  This is what a key shows of its list: how many beginnings of
each length the special indices have. -/
theorem unusedEntries_eq_iff (prg : Prg) (hn : n ≤ 64) (h : SpecialIndices indices n points)
    (h' : SpecialIndices indices' n points) (hdata : points * d < 1 <<< 63) :
    unusedEntries prg indices n points d = unusedEntries prg indices' n points d ↔
      ∀ depth < n, (activePrefixes indices n depth).length
        = (activePrefixes indices' n depth).length := by
  rw [Set.Subset.antisymm_iff, unusedEntries_subset_iff prg h hn hdata h',
    unusedEntries_subset_iff prg h' hn hdata h]
  constructor
  · rintro ⟨hle, hge⟩ depth hdepth
    exact Nat.le_antisymm (hge depth hdepth) (hle depth hdepth)
  · intro hcount
    exact ⟨fun depth hdepth => Nat.le_of_eq (hcount depth hdepth).symm,
      fun depth hdepth => Nat.le_of_eq (hcount depth hdepth)⟩

/-- With two points in the lower or in the upper half of four indices. -/
theorem unusedEntries_eq_halves :
    SpecialIndices [0, 1] 2 2 ∧ SpecialIndices [2, 3] 2 2 ∧
      unusedEntries (.ofBlock 0) [0, 1] 2 2 1 = unusedEntries (.ofBlock 0) [2, 3] 2 2 1 := by
  have hlower : SpecialIndices [0, 1] 2 2 :=
    ⟨by simp [domainSize], by decide, rfl, by decide, by decide⟩
  have hupper : SpecialIndices [2, 3] 2 2 :=
    ⟨by simp [domainSize], by decide, rfl, by decide, by decide⟩
  exact ⟨hlower, hupper,
    (unusedEntries_eq_iff (.ofBlock 0) (by decide) hlower hupper (by decide)).mpr (by decide)⟩

/-- With two points in one half of four indices, or with one in each half: in the first case only
one node is active at depth one, and the second entry there is not used. -/
theorem unusedEntries_ne_two_bits :
    SpecialIndices [0, 1] 2 2 ∧ SpecialIndices [0, 2] 2 2 ∧
      unusedEntries (.ofBlock 0) [0, 1] 2 2 1 ≠ unusedEntries (.ofBlock 0) [0, 2] 2 2 1 := by
  have hone : SpecialIndices [0, 1] 2 2 :=
    ⟨by simp [domainSize], by decide, rfl, by decide, by decide⟩
  have hboth : SpecialIndices [0, 2] 2 2 :=
    ⟨by simp [domainSize], by decide, rfl, by decide, by decide⟩
  refine ⟨hone, hboth, ?_⟩
  intro heq
  have hmem : (1, 1) ∈ unusedEntries (.ofBlock 0) [0, 1] 2 2 1 :=
    mem_unusedEntries (.ofBlock 0) hone (by decide) (by decide) (by decide)
  have hnode : (activePrefixes [0, 2] 2 1)[1]? = some 1 := by decide
  rw [heq] at hmem
  exact not_mem_unusedEntries (.ofBlock 0) hboth (by decide) (by decide) (by decide) hnode hmem

end PointSharing.MultiPoint
