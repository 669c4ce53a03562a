/-
The shares of a function with one special point add up to it.

Generation is taken apart first: it refuses unacceptable arguments without drawing, and
otherwise draws two roots and writes what grows from them into two keys.  Both ways of
generating, with and without a proof correction, are one computation with a parameter.

Then the keys are evaluated.  Each is parsed to the parts it was built from, so a party
walks the tree that generation grew.  Off the special path both outputs are the same mask.
At the special leaf exactly one party adds the payload, so the masks and the payload are
added once each, and the payload is the data under the same two masks.
-/
import PointSharing.Proofs.Draws
import PointSharing.Proofs.Point.Evaluation
import PointSharing.Proofs.Point.Tree

namespace PointSharing.Point

variable {prg : Prg} {index : UInt64} {n d : Nat} {data : Bytes} {tape : Tape}

/-! ### Generation -/

namespace Shares

theorem checkArguments_eq_ok_iff :
    checkArguments index n d data = .ok () ↔
      n ≤ maxRangeBits ∧ data.length = d ∧ index.toNat < domainSize n := by
  unfold checkArguments
  rw [check_bind_eq_ok_iff, check_bind_eq_ok_iff, checkRangeSize_eq_ok_iff,
    checkPayload_eq_ok_iff, checkIndex_eq_ok_iff]

/-- The key of a party, if it can be addressed. -/
def key (shares : Shares) (n d : Nat) (proofCorrection : Option Tag) (party : Party) : Key where
  bytes := (Layout.pointTable n d proofCorrection.isSome).build
    ((shares.parts (proofCorrection.getD Tag.zero) party).content n)
  dataSize := d
  rangeSize := n

theorem toKeys_eq (shares : Shares) (n d : Nat) (proofCorrection : Option Tag) :
    shares.toKeys n d proofCorrection =
      if (Layout.pointTable n d proofCorrection.isSome).size ≤ maxSize
      then .ok (Pair.ofFn (shares.key n d proofCorrection)) else .error (.inputSize maxSize d) := by
  unfold toKeys
  rw [Layout.point_eq]
  split <;> rfl

/-- The shares that are drawn from a tape. -/
def ofTape (prg : Prg) (index : UInt64) (n : Nat) (data : Bytes) (tape : Tape) : Shares :=
  ofRoots prg ⟨tape.block tape.drawn, tape.block (tape.drawn + 1)⟩ (path index n) data

/-- Generation with or without a proof correction: what is refused draws nothing. -/
theorem runOn_draw_toKeys (correction : Shares → Option Tag) :
    Draws.runOn (do
      let shares ← draw prg index n d data
      shares.toKeys n d (correction shares)) tape
    = match checkArguments index n d data with
      | .ok () =>
        let shares := ofTape prg index n data tape
        (shares.toKeys n d (correction shares), { tape with drawn := tape.drawn + 2 })
      | .error e => (.error e, tape) := by
  unfold draw
  cases h : checkArguments index n d data with
  | error e => simp only [Draws.runOn_bind, Draws.runOn_liftExcept]
  | ok u =>
      simp only [Draws.runOn_bind, Draws.runOn_liftExcept, Draws.runOn_liftState, Tape.run_draw,
        Draws.runOn_pure]
      rfl

/-- What is generated, and when. -/
theorem runOn_draw_toKeys_eq_ok_iff (correction : Shares → Option Tag) {keys : Pair Key}
    {rest : Tape} :
    let shares := ofTape prg index n data tape
    Draws.runOn (do
      let shares ← draw prg index n d data
      shares.toKeys n d (correction shares)) tape = (.ok keys, rest) ↔
    (n ≤ maxRangeBits ∧ data.length = d ∧ index.toNat < domainSize n) ∧
      (Layout.pointTable n d (correction shares).isSome).size ≤ maxSize ∧
      Pair.ofFn (shares.key n d (correction shares)) = keys ∧
      { tape with drawn := tape.drawn + 2 } = rest := by
  intro shares
  rw [runOn_draw_toKeys, ← checkArguments_eq_ok_iff]
  cases hchecked : checkArguments index n d data with
  | error e => simp
  | ok u =>
      simp only [toKeys_eq, true_and]
      by_cases hsize : (Layout.pointTable n d (correction shares).isSome).size ≤ maxSize
      · rw [if_pos hsize, Prod.mk.injEq, Except.ok.injEq]
        simp only [hsize, true_and]
        rfl
      · rw [if_neg hsize]
        simp [hsize]

/-! ### Reading the keys -/

variable {roots : Pair Block}

theorem sized_parts (hn : n ≤ maxRangeBits) (correction : Option Tag) (party : Party) :
    ((ofRoots prg roots (path index n) data).parts (correction.getD Tag.zero) party).Sized
      n data.length correction.isSome where
  supported := hn
  corrections := (length_grow prg _ _).trans (length_path index n)
  payload := by simp only [parts, ofRoots, Bytes.length_xor]
  proofCorrection := by
    cases correction with
    | none => exact fun _ => rfl
    | some tag => exact fun h => nomatch h

/-- A party reads from its key what generation wrote into it. -/
theorem parse_key (hn : n ≤ maxRangeBits) (correction : Option Tag) (party : Party)
    (hsize : (Layout.pointTable n data.length correction.isSome).size ≤ maxSize) :
    ((ofRoots prg roots (path index n) data).key n data.length correction party).parse
        correction.isSome
      = .ok ((ofRoots prg roots (path index n) data).parts (correction.getD Tag.zero) party) :=
  Key.parse_build (sized_parts hn correction party) hsize

/-- The states of both parties at the root. -/
def rootNodes (roots : Pair Block) : Pair (Node Bool) :=
  Pair.ofFn fun party => rootNode party (roots.get party)

theorem opposed_rootNodes (roots : Pair Block) : Opposed (rootNodes roots) := rfl

theorem leafAt_parts (shares : Shares) (correction : Tag) (party : Party) (x : UInt64) :
    ((shares.parts correction party).evaluator prg n d).leafAt x
      = (statesAt prg shares.corrections (path x n) (rootNodes shares.roots)).get party := by
  cases party <;> rfl

theorem leafAt_special (correction : Tag) (party : Party) :
    (((ofRoots prg roots (path index n) data).parts correction party).evaluator prg n d).leafAt
        index
      = (ofRoots prg roots (path index n) data).leaves.get party := by
  rw [leafAt_parts]
  exact congrArg (Pair.get · party) (statesAt_grow prg (path index n) (rootNodes roots))

theorem opposed_leaves : Opposed (ofRoots prg roots (path index n) data).leaves :=
  opposed_grow prg (opposed_rootNodes roots) (path index n)

/-- Away from the special index both parties arrive at the same leaf. -/
theorem leafAt_ordinary (hindex : index.toNat < domainSize n) {x : UInt64}
    (hx : x.toNat < domainSize n) (hne : x ≠ index) (correction : Tag) :
    (((ofRoots prg roots (path index n) data).parts correction .a).evaluator prg n d).leafAt x
      = (((ofRoots prg roots (path index n) data).parts correction .b).evaluator prg n
          d).leafAt x := by
  rw [leafAt_parts, leafAt_parts]
  refine statesAt_eq_of_ne prg (opposed_rootNodes roots) (by simp) ?_
  intro hpath
  exact hne (UInt64.toNat_inj.mp (nodePath_injective hx hindex hpath))

/-! ### Adding the outputs -/

/-- At the special leaf exactly one party adds the masked payload. -/
theorem xor_output_leaves (correction : Tag) :
    let shares := ofRoots prg roots (path index n) data
    Bytes.xor ((shares.parts correction .a).output prg data.length shares.leaves.a)
      ((shares.parts correction .b).output prg data.length shares.leaves.b) = data := by
  intro shares
  have hopposed : shares.leaves.b.control = !shares.leaves.a.control := opposed_leaves
  let maskA := prg.leafMask shares.leaves.a.seed data.length
  let maskB := prg.leafMask shares.leaves.b.seed data.length
  have hmasked : Bytes.xor (Bytes.xor maskA maskB) (Bytes.xor (Bytes.xor data maskA) maskB)
      = data :=
    Bytes.xor_masked (prg.length_leafMask _ _) (prg.length_leafMask _ _)
  unfold Parts.output
  rw [hopposed]
  cases shares.leaves.a.control
  · simp only [Bool.not_false, if_true, Bool.false_eq_true, if_false]
    rw [Bytes.xor_assoc (by simp [shares, parts, ofRoots])]
    exact hmasked
  · simp only [Bool.not_true, if_true, Bool.false_eq_true, if_false]
    rw [Bytes.xor_right_comm]
    exact hmasked

theorem addUp (prg : Prg) (roots : Pair Block) (data : Bytes)
    (hindex : index.toNat < domainSize n) (correction : Tag) :
    let shares := ofRoots prg roots (path index n) data
    Evaluator.AddUp n data.length (value index data)
      ((shares.parts correction .a).evaluator prg n data.length)
      ((shares.parts correction .b).evaluator prg n data.length) := by
  intro shares
  have hlevels : shares.corrections.length = n := (length_grow prg _ _).trans (length_path index n)
  refine ⟨Parts.sized_evaluator prg hlevels _, Parts.sized_evaluator prg hlevels _,
    rfl, rfl, rfl, rfl, ?_⟩
  intro x hx
  unfold value
  by_cases h : x = index
  · subst h
    rw [leafAt_special, leafAt_special, if_pos rfl]
    exact xor_output_leaves correction
  · rw [leafAt_ordinary hindex hx h, if_neg h]
    refine (Bytes.xor_self _).trans ?_
    exact congrArg Bytes.zeros (Parts.length_output _ _ _)

end Shares

/-! ### The shared function -/

theorem evaluatePair_eq {pair : Pair Key} {x : UInt64} {shareA shareB : Bytes}
    (ha : evaluate prg pair.a x = .ok shareA) (hb : evaluate prg pair.b x = .ok shareB) :
    evaluatePair prg pair x = reconstruct shareA shareB := by
  unfold evaluatePair
  rw [ha, hb]
  rfl

/-- **The shares of every index add up to the value of the function there.** -/
theorem evaluatePair_generate (prg : Prg) (tape : Tape) {index : UInt64} {n d : Nat}
    {data : Bytes} (hn : n ≤ 64) (hindex : index.toNat < domainSize n) (hd : data.length = d)
    (hdata : data.length < 1 <<< 63) :
    ∃ keys rest, (generate prg index n d data).runOn tape = (.ok keys, rest) ∧
      ∀ x : UInt64, x.toNat < domainSize n →
        (∃ shareA shareB, evaluate prg keys.a x = .ok shareA ∧
          evaluate prg keys.b x = .ok shareB) ∧
        evaluatePair prg keys x = .ok (value index data x) := by
  subst hd
  have hsize : (Layout.pointTable n data.length false).size ≤ maxSize := by
    rw [Layout.size_pointTable]
    simp only [bitCorrectionSize, maxSize, Bool.false_eq_true, if_false]
    omega
  let shares := Shares.ofTape prg index n data tape
  have hrun : (generate prg index n data.length data).runOn tape
      = (.ok (Pair.ofFn (shares.key n data.length none)), { tape with drawn := tape.drawn + 2 }) :=
    (Shares.runOn_draw_toKeys_eq_ok_iff fun _ => none).mpr ⟨⟨hn, rfl, hindex⟩, hsize, rfl, rfl⟩
  refine ⟨_, _, hrun, ?_⟩
  intro x hx
  obtain ⟨shareA, shareB, ha, hb, hsum⟩ :=
    (Shares.addUp prg shares.roots data hindex Tag.zero).evaluate hx
  have hevalA : evaluate prg (shares.key n data.length none .a) x = .ok shareA :=
    (evaluate_eq (Shares.parse_key hn none .a hsize) x).trans ha
  have hevalB : evaluate prg (shares.key n data.length none .b) x = .ok shareB :=
    (evaluate_eq (Shares.parse_key hn none .b hsize) x).trans hb
  refine ⟨⟨shareA, shareB, hevalA, hevalB⟩, ?_⟩
  have hpair : evaluatePair prg (Pair.ofFn (shares.key n data.length none)) x
      = reconstruct shareA shareB := evaluatePair_eq hevalA hevalB
  exact hpair.trans hsum

/-- With all 64 bits and the last index. -/
theorem evaluatePair_generate_last :
    ∃ keys rest, (generate (.ofBlock 0) 0xffffffffffffffff 64 2 [7, 9]).runOn (.ofBytes [])
        = (.ok keys, rest) ∧
      evaluatePair (.ofBlock 0) keys 0xffffffffffffffff = .ok [7, 9] ∧
      evaluatePair (.ofBlock 0) keys 0xfffffffffffffffe = .ok [0, 0] := by
  have hindex : (0xffffffffffffffff : UInt64).toNat < domainSize 64 := by decide
  have hd : ([7, 9] : Bytes).length = 2 := rfl
  obtain ⟨keys, rest, hrun, hsum⟩ :=
    evaluatePair_generate (.ofBlock 0) (.ofBytes []) (by decide) hindex hd (by decide)
  exact ⟨keys, rest, hrun, (hsum _ (by decide)).2, (hsum _ (by decide)).2⟩

end PointSharing.Point
