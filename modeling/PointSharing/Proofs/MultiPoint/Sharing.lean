/-
The shares of a function with several special points add up to it.

The outline is that of a single point: generation is taken apart, the keys are parsed to the
parts that they were built from, and the outputs at a leaf are added.  All that is used of
the trees is the invariant `Separates` at the leaves, so it does not matter what was drawn
on the way down.

The sums of payload words need more care than with one point.  Both parties add the words
that party A's sign vector selects, and these cancel whatever they are; party B's vector
differs in the bit of the point and so adds the word of the point once more.
-/
import PointSharing.Proofs.MultiPoint.Evaluation
import PointSharing.Proofs.MultiPoint.Tree

namespace PointSharing.MultiPoint

variable {prg : Prg} {indices : List UInt64} {n points d : Nat} {data : Bytes} {tape : Tape}

/-! ### Generation -/

namespace Shares

theorem checkArguments_eq_ok_iff :
    checkArguments indices n points d data = .ok () ↔
      n ≤ maxRangeBits ∧ SpecialIndices indices n points ∧ points * d ≤ maxSize ∧
        data.length = points * d := by
  unfold checkArguments
  simp only [check_bind_eq_ok_iff, outputLength_bind_eq_ok_iff, checkRangeSize_eq_ok_iff,
    checkPointCount_eq_ok_iff, checkIndexCount_eq_ok_iff, checkPayload_eq_ok_iff,
    checkSpecialIndices_eq_ok_iff]
  constructor
  · rintro ⟨hn, ⟨hpos, hle⟩, hcount, hsize, hdata, hdomain, hascending⟩
    exact ⟨hn, ⟨hdomain, hascending, hcount, hpos, hle⟩, hsize, hdata⟩
  · rintro ⟨hn, hspecial, hsize, hdata⟩
    exact ⟨hn, ⟨hspecial.positive, hspecial.supported⟩, hspecial.count, hsize, hdata,
      hspecial.inDomain, hspecial.ascending⟩

/-- The key of a party, if it can be addressed. -/
def key (shares : Shares) (n points d : Nat) (proofCorrections : Option (List Tag))
    (party : Party) : Key where
  bytes := (Layout.multiPointTable n points d proofCorrections.isSome).build
    ((shares.parts points (proofCorrections.getD []) party).content n)
  dataSize := d
  rangeSize := n
  points := points

theorem toKeys_eq (shares : Shares) (hpoints : 0 < points) (n d : Nat)
    (proofCorrections : Option (List Tag)) :
    shares.toKeys n points d proofCorrections =
      if (Layout.multiPointTable n points d proofCorrections.isSome).size ≤ maxSize
      then .ok (Pair.ofFn (shares.key n points d proofCorrections))
      else .error (.inputSize maxSize d) := by
  unfold toKeys
  rw [Layout.multiPoint_eq hpoints]
  split <;> rfl

/-- The roots that are drawn from a tape. -/
def rootsOf (tape : Tape) : Pair Block := ⟨tape.block tape.drawn, tape.block (tape.drawn + 1)⟩

/-- What grows on a tape after the roots have been drawn, and the tape after it. -/
def growOn (prg : Prg) (indices : List UInt64) (n points : Nat) (tape : Tape) : Growth × Tape :=
  (grow prg points indices n (rootsOf tape) n).run { tape with drawn := tape.drawn + 2 }

theorem separates_growOn (prg : Prg) (tape : Tape) (hspecial : SpecialIndices indices n points) :
    Separates prg points indices n (rootsOf tape) n (growOn prg indices n points tape).1 :=
  separates_grow prg (rootsOf tape) hspecial (Nat.le_refl n) _

/-- The shares with a given growth. -/
def ofGrowth (prg : Prg) (roots : Pair Block) (growth : Growth) (points dataSize : Nat)
    (data : Bytes) : Shares where
  roots := roots
  levels := growth.levels
  leaves := growth.nodes
  payload := List.zipWith (maskWord prg) (Bytes.words dataSize points data) growth.nodes

/-- The shares that are drawn from a tape. -/
def ofTape (prg : Prg) (indices : List UInt64) (n points d : Nat) (data : Bytes) (tape : Tape) :
    Shares :=
  ofGrowth prg (rootsOf tape) (growOn prg indices n points tape).1 points d data

/-- Generation with or without proof corrections: what is refused draws nothing. -/
theorem runOn_draw_toKeys (corrections : Shares → Option (List Tag)) :
    Draws.runOn (do
      let shares ← draw prg indices n points d data
      shares.toKeys n points d (corrections shares)) tape
    = match checkArguments indices n points d data with
      | .ok () =>
        let shares := ofTape prg indices n points d data tape
        (shares.toKeys n points d (corrections shares), (growOn prg indices n points tape).2)
      | .error e => (.error e, tape) := by
  unfold draw
  cases h : checkArguments indices n points d data with
  | error e => simp only [Draws.runOn_bind, Draws.runOn_liftExcept]
  | ok u =>
      simp only [Draws.runOn_bind, Draws.runOn_liftExcept, Draws.runOn_liftState, Tape.run_draw,
        Draws.runOn_pure]
      rfl

/-- What is generated, and when. -/
theorem runOn_draw_toKeys_eq_ok_iff (corrections : Shares → Option (List Tag)) {keys : Pair Key}
    {rest : Tape} :
    let shares := ofTape prg indices n points d data tape
    Draws.runOn (do
      let shares ← draw prg indices n points d data
      shares.toKeys n points d (corrections shares)) tape = (.ok keys, rest) ↔
    (n ≤ maxRangeBits ∧ SpecialIndices indices n points ∧ points * d ≤ maxSize ∧
        data.length = points * d) ∧
      (Layout.multiPointTable n points d (corrections shares).isSome).size ≤ maxSize ∧
      Pair.ofFn (shares.key n points d (corrections shares)) = keys ∧
      (growOn prg indices n points tape).2 = rest := by
  intro shares
  rw [runOn_draw_toKeys]
  cases hchecked : checkArguments indices n points d data with
  | error e =>
      refine ⟨fun h => ?_, fun h => ?_⟩
      · cases h
      · rw [checkArguments_eq_ok_iff.mpr h.1] at hchecked
        cases hchecked
  | ok u =>
      have haccepted := checkArguments_eq_ok_iff.mp hchecked
      simp only [toKeys_eq _ haccepted.2.1.positive, haccepted, true_and, and_true]
      by_cases hsize :
          (Layout.multiPointTable n points d (corrections shares).isSome).size ≤ maxSize
      · rw [if_pos hsize, Prod.mk.injEq, Except.ok.injEq]
        simp only [hsize, true_and]
        rfl
      · rw [if_neg hsize]
        simp [hsize]

/-! ### Reading the keys -/

theorem leafAt_parts (shares : Shares) (corrections : List Tag) (party : Party) (x : UInt64) :
    ((shares.parts points corrections party).evaluator prg n d).leafAt x
      = (statesAt prg points shares.levels shares.roots n x.toNat).get party := by
  cases party <;> rfl

theorem noProofs : ∀ tags ∈ (none : Option (List Tag)), tags.length = points := by
  simp

theorem length_of_mem_payload (roots : Pair Block) (growth : Growth)
    (hdata : data.length = points * d) :
    ∀ word ∈ (ofGrowth prg roots growth points d data).payload, word.length = d := by
  intro word hword
  obtain ⟨k, hk⟩ := List.mem_iff_getElem?.mp hword
  obtain ⟨w, leaf, hw, -, rfl⟩ := List.getElem?_zipWith_eq_some.mp hk
  rw [maskWord, Bytes.length_xor, Bytes.length_xor]
  exact Bytes.length_of_mem_words hdata (List.mem_of_getElem? hw)

section

variable {roots : Pair Block} {growth : Growth}
  (hgrowth : Separates prg points indices n roots n growth)
  (hspecial : SpecialIndices indices n points)

include hgrowth hspecial

theorem length_leaves : growth.nodes.length = points := by
  rw [hgrowth.nodes, List.length_map, activePrefixes_self hspecial.ascending, List.length_map,
    hspecial.count]

theorem sized_parts (hn : n ≤ maxRangeBits) (hdata : data.length = points * d)
    {corrections : Option (List Tag)} (hcorrections : ∀ tags ∈ corrections, tags.length = points)
    (party : Party) :
    ((ofGrowth prg roots growth points d data).parts points (corrections.getD []) party).Sized
      n d corrections.isSome where
  supported := hn
  points_pos := hspecial.positive
  points_le := hspecial.supported
  levels := hgrowth.length
  corrections := hgrowth.corrections
  payload := by
    simp only [parts, ofGrowth, List.length_zipWith, Bytes.length_words,
      length_leaves hgrowth hspecial, Nat.min_self]
  words := length_of_mem_payload roots growth hdata
  proofCorrections := by
    cases corrections with
    | none => rfl
    | some tags => exact hcorrections tags rfl

/-- A party reads from its key what generation wrote into it. -/
theorem parse_key (hn : n ≤ maxRangeBits) (hdata : data.length = points * d)
    {corrections : Option (List Tag)} (hcorrections : ∀ tags ∈ corrections, tags.length = points)
    (party : Party)
    (hsize : (Layout.multiPointTable n points d corrections.isSome).size ≤ maxSize) :
    ((ofGrowth prg roots growth points d data).key n points d corrections party).parse
        corrections.isSome
      = .ok ((ofGrowth prg roots growth points d data).parts points (corrections.getD []) party) :=
  Key.parse_build (sized_parts hgrowth hspecial hn hdata hcorrections party) hsize

/-! ### The leaves -/

/-- At the special index of a point both parties arrive at the point's leaf. -/
theorem leaves_getElem? {k : Nat} {x : UInt64} (hk : indices[k]? = some x) :
    growth.nodes[k]? = some (statesAt prg points growth.levels roots n x.toNat) := by
  rw [hgrowth.nodes, activePrefixes_self hspecial.ascending, List.getElem?_map, List.getElem?_map,
    hk]
  rfl

/-- At the special index of a point the sign vectors differ in the bit of the point. -/
theorem control_special {k : Nat} {x : UInt64} (hk : indices[k]? = some x) :
    let states := statesAt prg points growth.levels roots n x.toNat
    states.a.control ^^^ states.b.control = SignVector.single k := by
  refine hgrowth.active k x.toNat ?_
  rw [activePrefixes_self hspecial.ascending, List.getElem?_map, hk]
  rfl

/-- Away from the special indices both parties arrive at the same leaf. -/
theorem states_ordinary {x : UInt64} (hx : x.toNat < domainSize n) (hmem : x ∉ indices) :
    (statesAt prg points growth.levels roots n x.toNat).a
      = (statesAt prg points growth.levels roots n x.toNat).b := by
  refine hgrowth.inactive x.toNat hx ?_
  rw [activePrefixes_self hspecial.ascending, List.mem_map]
  rintro ⟨index, hindex, heq⟩
  rw [UInt64.toNat_inj.mp heq] at hindex
  exact hmem hindex

/-- The word of a point, masked by the leaves at its special index. -/
theorem payload_getElem? {k : Nat} {x : UInt64} (hk : indices[k]? = some x) :
    (ofGrowth prg roots growth points d data).payload[k]?
      = some (maskWord prg ((data.drop (k * d)).take d)
          (statesAt prg points growth.levels roots n x.toNat)) := by
  obtain ⟨hlt, -⟩ := List.getElem?_eq_some_iff.mp hk
  refine List.getElem?_zipWith_eq_some.mpr ⟨_, _, ?_, leaves_getElem? hgrowth hspecial hk, rfl⟩
  exact Bytes.getElem?_words data (hspecial.count ▸ hlt)

end

/-! ### Adding the outputs -/

/-- What both vectors pick cancels, the item of the bit that they differ in is left. -/
theorem xor_sum_sum {g k : SignVector} {point : Nat} {item maskA maskB : Bytes}
    {payload : List Bytes} (hpoint : point < maxPoints) (hdiff : g ^^^ k = SignVector.single point)
    (hitem : payload[point]? = some item) (hpayload : ∀ word ∈ payload, word.length = d)
    (hmaskA : maskA.length = d) (hmaskB : maskB.length = d) :
    Bytes.xor (g.sum Bytes.xor maskA payload) (k.sum Bytes.xor maskB payload)
      = Bytes.xor (Bytes.xor maskA maskB) item := by
  have hcommon : Bytes.xor (g.sum Bytes.xor maskA payload) (g.sum Bytes.xor maskB payload)
      = Bytes.xor maskA maskB := SignVector.sum_same (.bytes d) hmaskA hmaskB g
  have hle : item.length ≤ (g.sum Bytes.xor maskB payload).length := by
    rw [SignVector.sum_closed (.bytes d) hmaskB g, hpayload item (List.mem_of_getElem? hitem)]
  rw [SignVector.sum_of_xor_eq_single SelfInverse.bytes hpoint hdiff hitem, Bytes.xor_assoc hle,
    hcommon]

section

variable {roots : Pair Block} {growth : Growth}
  (hgrowth : Separates prg points indices n roots n growth)
  (hspecial : SpecialIndices indices n points)

include hgrowth hspecial

/-- At the special index of a point the sum is the word of the point. -/
theorem xor_output_special (hdata : data.length = points * d) {k : Nat} {x : UInt64}
    (hk : indices[k]? = some x) (corrections : List Tag) :
    let shares := ofGrowth prg roots growth points d data
    let states := statesAt prg points growth.levels roots n x.toNat
    Bytes.xor ((shares.parts points corrections .a).output prg d states.a)
      ((shares.parts points corrections .b).output prg d states.b)
        = (data.drop (k * d)).take d := by
  intro shares states
  obtain ⟨hlt, -⟩ := List.getElem?_eq_some_iff.mp hk
  have hpoint : k < points := hspecial.count ▸ hlt
  have hword : ((data.drop (k * d)).take d).length = d :=
    Bytes.length_of_mem_words hdata (List.mem_of_getElem? (Bytes.getElem?_words data hpoint))
  refine (xor_sum_sum (Nat.lt_of_lt_of_le hpoint hspecial.supported)
    (control_special hgrowth hspecial hk) (payload_getElem? hgrowth hspecial hk)
    (length_of_mem_payload roots growth hdata) (prg.length_leafMask _ _)
    (prg.length_leafMask _ _)).trans ?_
  rw [maskWord, hword]
  exact Bytes.xor_masked ((prg.length_leafMask _ _).trans hword.symm)
    ((prg.length_leafMask _ _).trans hword.symm)

theorem addUp (hdata : data.length = points * d) (corrections : List Tag) :
    let shares := ofGrowth prg roots growth points d data
    Evaluator.AddUp n d (value indices d data)
      ((shares.parts points corrections .a).evaluator prg n d)
      ((shares.parts points corrections .b).evaluator prg n d) := by
  intro shares
  refine ⟨Parts.sized_evaluator prg hgrowth.length _, Parts.sized_evaluator prg hgrowth.length _,
    rfl, rfl, rfl, rfl, ?_⟩
  intro x hx
  rw [leafAt_parts, leafAt_parts]
  unfold value
  cases hposition : indices.idxOf? x with
  | some k =>
      obtain ⟨hlt, hk, -⟩ := List.idxOf?_eq_some_iff.mp hposition
      exact xor_output_special hgrowth hspecial hdata (List.getElem?_eq_some_iff.mpr ⟨hlt, hk⟩)
        corrections
  | none =>
      have hmem : x ∉ indices := List.idxOf?_eq_none_iff.mp hposition
      have hstates := states_ordinary hgrowth hspecial hx hmem
      show Bytes.xor ((shares.parts points corrections .a).output prg d
          (statesAt prg points growth.levels roots n x.toNat).a) _ = _
      rw [hstates]
      refine (Bytes.xor_self _).trans ?_
      exact congrArg Bytes.zeros (Parts.length_output _ _ _)

end

end Shares

/-! ### The shared function -/

/-- Within the limits nothing is refused, and the keys can be addressed. -/
theorem runOn_generate (prg : Prg) (tape : Tape) (hn : n ≤ maxRangeBits)
    (hspecial : SpecialIndices indices n points) (hd : data.length = points * d)
    (hdata : data.length < 1 <<< 63) :
    (Layout.multiPointTable n points d false).size ≤ maxSize ∧
      (generate prg indices n points d data).runOn tape
        = (.ok (Pair.ofFn ((Shares.ofTape prg indices n points d data tape).key n points d none)),
          (Shares.growOn prg indices n points tape).2) := by
  have hpayload : points * d ≤ maxSize := by
    rw [maxSize]
    omega
  have hsize : (Layout.multiPointTable n points d false).size ≤ maxSize :=
    Layout.size_multiPointTable_le hn hspecial.supported (hd ▸ hdata) false
  exact ⟨hsize, (Shares.runOn_draw_toKeys_eq_ok_iff fun _ => none).mpr
    ⟨⟨hn, hspecial, hpayload, hd⟩, hsize, rfl, rfl⟩⟩

theorem evaluatePair_eq {pair : Pair Key} {x : UInt64} {shareA shareB : Bytes}
    (ha : evaluate prg pair.a x = .ok shareA) (hb : evaluate prg pair.b x = .ok shareB) :
    evaluatePair prg pair x = reconstruct shareA shareB := by
  unfold evaluatePair
  rw [ha, hb]
  rfl

/-- **The shares of every index add up to the value of the function there.** -/
theorem evaluatePair_generate_points (prg : Prg) (tape : Tape) {indices : List UInt64}
    {n points d : Nat} {data : Bytes} (hn : n ≤ 64) (hpos : 1 ≤ points) (hle : points ≤ 32)
    (hcount : indices.length = points) (hascending : indices.Pairwise (· < ·))
    (hindices : ∀ index ∈ indices, index.toNat < domainSize n) (hd : data.length = points * d)
    (hdata : data.length < 1 <<< 63) :
    ∃ keys rest, (generate prg indices n points d data).runOn tape = (.ok keys, rest) ∧
      ∀ x : UInt64, x.toNat < domainSize n →
        (∃ shareA shareB, evaluate prg keys.a x = .ok shareA ∧
          evaluate prg keys.b x = .ok shareB) ∧
        evaluatePair prg keys x = .ok (value indices d data x) := by
  have hspecial : SpecialIndices indices n points := ⟨hindices, hascending, hcount, hpos, hle⟩
  have hgrowth := Shares.separates_growOn prg tape hspecial
  obtain ⟨hsize, hrun⟩ := runOn_generate prg tape hn hspecial hd hdata
  let shares := Shares.ofTape prg indices n points d data tape
  refine ⟨_, _, hrun, ?_⟩
  intro x hx
  obtain ⟨shareA, shareB, ha, hb, hsum⟩ := (Shares.addUp hgrowth hspecial hd []).evaluate hx
  have hevalA : evaluate prg (shares.key n points d none .a) x = .ok shareA :=
    (evaluate_eq (Shares.parse_key hgrowth hspecial hn hd Shares.noProofs .a hsize) x).trans ha
  have hevalB : evaluate prg (shares.key n points d none .b) x = .ok shareB :=
    (evaluate_eq (Shares.parse_key hgrowth hspecial hn hd Shares.noProofs .b hsize) x).trans hb
  refine ⟨⟨shareA, shareB, hevalA, hevalB⟩, ?_⟩
  have hpair : evaluatePair prg (Pair.ofFn (shares.key n points d none)) x
      = reconstruct shareA shareB := evaluatePair_eq hevalA hevalB
  exact hpair.trans hsum

/-- With all 64 bits, and the first and the last index. -/
theorem evaluatePair_generate_points_ends :
    ∃ keys rest, (generate (.ofBlock 0) [0, 0xffffffffffffffff] 64 2 1 [7, 9]).runOn (.ofBytes [])
        = (.ok keys, rest) ∧
      evaluatePair (.ofBlock 0) keys 0 = .ok [7] ∧
      evaluatePair (.ofBlock 0) keys 1 = .ok [0] ∧
      evaluatePair (.ofBlock 0) keys 0xffffffffffffffff = .ok [9] := by
  have hascending : [0, (0xffffffffffffffff : UInt64)].Pairwise (· < ·) := by decide
  have hindices : ∀ index ∈ [0, (0xffffffffffffffff : UInt64)], index.toNat < domainSize 64 := by
    simp [domainSize]
  have hd : ([7, 9] : Bytes).length = 2 * 1 := rfl
  obtain ⟨keys, rest, hrun, hsum⟩ :=
    evaluatePair_generate_points (.ofBlock 0) (.ofBytes []) (by decide) (by decide) (by decide)
      rfl hascending hindices hd (by decide)
  exact ⟨keys, rest, hrun, (hsum 0 (by decide)).2, (hsum 1 (by decide)).2, (hsum _ (by decide)).2⟩

end PointSharing.MultiPoint
