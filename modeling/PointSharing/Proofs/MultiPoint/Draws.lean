/-
What generation with several special points draws, and where it ends up in the keys.

Besides the two roots one block is drawn for every active node with two active children.  How
many of these there are does not depend on the points: going down a level, every such node
makes the list of active nodes one longer, and no other node does, so from the root to the
leaves there are as many as makes one node into one for each point.

Where the blocks are is shown level by level.  The induction is on the depth and goes along
with `Separates`, which says in which order the corrections of a level are made and that the
positions of the nodes are those at which they are stored: the next level appends the seeds
that were drawn for its depth, and those of the levels above stay what they are.
-/
import PointSharing.Proofs.MultiPoint.Decompression
import PointSharing.Proofs.MultiPoint.Verified

namespace PointSharing.MultiPoint

variable {indices : List UInt64} {n depth points : Nat}

/-! ### Nodes with two active children -/

/-- Both children of a node are active. -/
def splits (indices : List UInt64) (n depth node : Nat) : Bool :=
  [2 * node, 2 * node + 1].all (· ∈ activePrefixes indices n (depth + 1))

/-- The active nodes above `depth` both of whose children are active, with their depths: from the
root down, and in ascending order at each depth. -/
def splitNodes (indices : List UInt64) (n depth : Nat) : List (Nat × Nat) :=
  (List.range depth).flatMap fun d =>
    ((activePrefixes indices n d).filter (splits indices n d)).map (d, ·)

theorem isSplit_branchAt (node : Nat) :
    (branchAt indices n depth node).isSplit = splits indices n depth node := by
  rw [Bool.eq_iff_iff]
  simp [Branch.isSplit, branchAt, splits, List.isSome_idxOf?]

theorem length_activeSides (h : depth < n) {node : Nat}
    (hnode : node ∈ activePrefixes indices n depth) :
    (activeSides indices n depth node).length
      = 1 + if splits indices n depth node then 1 else 0 := by
  obtain ⟨child, hchild, rfl⟩ := (mem_activePrefixes_iff_exists_child h).mp hnode
  have hside : child = 2 * (child / 2) ∨ child = 2 * (child / 2) + 1 := by omega
  unfold activeSides splits
  by_cases hleft : 2 * (child / 2) ∈ activePrefixes indices n (depth + 1) <;>
    by_cases hright : 2 * (child / 2) + 1 ∈ activePrefixes indices n (depth + 1)
  · simp [hleft, hright]
  · simp [hleft, hright]
  · simp [hleft, hright]
  · rcases hside with heq | heq
    · exact absurd (heq ▸ hchild) hleft
    · exact absurd (heq ▸ hchild) hright

theorem length_flatMap_eq_add {α β : Type} {l : List α} {f : α → List β} {p : α → Bool}
    (h : ∀ x ∈ l, (f x).length = 1 + if p x then 1 else 0) :
    (l.flatMap f).length = l.length + (l.filter p).length := by
  induction l with
  | nil => rfl
  | cons x l ih =>
      rw [List.flatMap_cons, List.length_append, h x (by simp),
        ih fun y hy => h y (by simp [hy]), List.filter_cons]
      cases p x <;> simp <;> omega

/-- A node with two active children adds one to the number of active nodes of the next depth. -/
theorem length_activePrefixes_succ (hindices : indices.Pairwise (· < ·)) (h : depth < n) :
    (activePrefixes indices n (depth + 1)).length
      = (activePrefixes indices n depth).length
        + ((activePrefixes indices n depth).filter (splits indices n depth)).length := by
  rw [activePrefixes_succ hindices h]
  exact length_flatMap_eq_add fun node hnode => length_activeSides h hnode

theorem splitNodes_succ (indices : List UInt64) (n depth : Nat) :
    splitNodes indices n (depth + 1) = splitNodes indices n depth
      ++ ((activePrefixes indices n depth).filter (splits indices n depth)).map (depth, ·) := by
  rw [splitNodes, List.range_succ, List.flatMap_append, List.flatMap_singleton]
  rfl

theorem length_splitNodes_add_one (h : SpecialIndices indices n points) (hdepth : depth ≤ n) :
    (splitNodes indices n depth).length + 1 = (activePrefixes indices n depth).length := by
  induction depth with
  | zero =>
      rw [activePrefixes_zero h.ascending h.ne_nil h.inDomain]
      rfl
  | succ depth ih =>
      have hbefore := ih (by omega)
      rw [splitNodes_succ, List.length_append, List.length_map,
        length_activePrefixes_succ h.ascending hdepth]
      omega

/-- **There is one node with two active children less than there are points.** -/
theorem length_splitNodes (h : SpecialIndices indices n points) :
    (splitNodes indices n n).length = points - 1 := by
  have hcount := length_splitNodes_add_one h (Nat.le_refl n)
  rw [activePrefixes_self h.ascending, List.length_map, h.count] at hcount
  omega

/-- They are listed from the root down, and in ascending order at each depth. -/
theorem pairwise_splitNodes (hindices : indices.Pairwise (· < ·)) :
    (splitNodes indices n depth).Pairwise (Prod.Lex (· < ·) (· < ·)) := by
  refine List.pairwise_flatMap.mpr ⟨fun d _ => ?_, ?_⟩
  · refine List.pairwise_map.mpr (((pairwise_activePrefixes hindices).filter _).imp ?_)
    exact fun hlt => Prod.Lex.right d hlt
  · refine List.pairwise_lt_range.imp ?_
    intro d e hlt place hplace other hother
    obtain ⟨node, -, rfl⟩ := List.mem_map.mp hplace
    obtain ⟨node', -, rfl⟩ := List.mem_map.mp hother
    exact Prod.Lex.left node node' hlt

/-! ### The seeds of their corrections -/

/-- The seed of the correction that the levels have for an active node: the one in the position of
the node at its depth. -/
def storedSeed (indices : List UInt64) (n : Nat) (levels : List (List SignCorrection))
    (place : Nat × Nat) : Option Block := do
  let corrections ← levels[place.1]?
  let position ← (activePrefixes indices n place.1).idxOf? place.2
  let correction ← corrections[position]?
  return correction.seed

variable {prg : Prg} {roots : Pair Block} {growth : Growth}

theorem took_correctionFor (branch : Branch) (forks : Pair (Fork (Node SignVector)))
    (tape : Tape) :
    tape.Took (if branch.isSplit then [((correctionFor branch forks).run tape).1.seed] else [])
      ((correctionFor branch forks).run tape).2 := by
  unfold correctionFor
  cases branch.isSplit with
  | true => exact Tape.took_draw tape
  | false => exact Tape.Took.nil tape

/-- Looking up the items of a list by their positions in it pairs them with the other list. -/
theorem map_seed_idxOf? {l : List Nat} (hnodup : l.Nodup) {corrections : List SignCorrection}
    (hlength : l.length ≤ corrections.length) (p : Nat → Bool) :
    ((l.filter p).map fun x => (l.idxOf? x).bind fun i => corrections[i]?.map Correction.seed)
      = (((l.zip corrections).filter fun place => p place.1).map
          fun place => place.2.seed).map some := by
  have hfilter : l.filter p
      = ((l.zip corrections).filter fun place => p place.1).map Prod.fst := by
    conv_lhs => rw [← List.map_fst_zip hlength, List.filter_map]
    rfl
  rw [hfilter, List.map_map, List.map_map]
  refine List.map_congr_left fun place hplace => ?_
  obtain ⟨i, hi⟩ := List.mem_iff_getElem?.mp (List.mem_of_mem_filter hplace)
  obtain ⟨hx, hc⟩ := List.getElem?_zip_eq_some.mp hi
  simp only [Function.comp, idxOf?_eq_some_of_nodup hnodup hx, Option.bind_some, hc,
    Option.map_some]

theorem storedSeed_eq (levels : List (List SignCorrection)) (place : Nat × Nat) :
    storedSeed indices n levels place = levels[place.1]?.bind fun corrections =>
      ((activePrefixes indices n place.1).idxOf? place.2).bind fun i =>
        corrections[i]?.map Correction.seed := by
  unfold storedSeed
  cases levels[place.1]? with
  | none => rfl
  | some corrections =>
      cases (activePrefixes indices n place.1).idxOf? place.2 with
      | none => rfl
      | some i => cases h : corrections[i]? <;> simp [h]

/-- The correction for an active node, on whatever is left of the tape. -/
def correctionAt (prg : Prg) (points : Nat) (indices : List UInt64) (n : Nat)
    (levels : List (List SignCorrection)) (roots : Pair Block) (depth node : Nat) :
    StateM Tape SignCorrection :=
  correctionFor (branchAt indices n depth node)
    (forksOf prg points (statesAt prg points levels roots depth node))

theorem took_correctionAt (levels : List (List SignCorrection)) (node : Nat) (tape : Tape) :
    let correction := (correctionAt prg points indices n levels roots depth node).run tape
    tape.Took (if splits indices n depth node then [correction.1.seed] else []) correction.2 := by
  rw [← isSplit_branchAt]
  exact took_correctionFor _ _ tape

/-- A level has the corrections for the active nodes, in their order, and is padded to the number
of points. -/
theorem Separates.run_growLevel_eq (h : Separates prg points indices n roots depth growth)
    (tape : Tape) :
    let corrected := ((activePrefixes indices n depth).mapM
      (correctionAt prg points indices n growth.levels roots depth)).run tape
    let level := (growLevel prg points (branches indices n depth) growth.nodes).run tape
    level.1.1 = corrected.1
        ++ List.replicate (points - corrected.1.length) SignCorrection.zero ∧
      level.2 = corrected.2 := by
  have hcorrect : (activePrefixes indices n depth).mapM
        (correctionAt prg points indices n growth.levels roots depth)
      = ((branches indices n depth).zip growth.nodes).mapM fun place =>
          correctionFor place.1 (forksOf prg points place.2) := by
    rw [h.zip_branches, List.mapM_map]
    rfl
  rw [hcorrect]
  exact ⟨rfl, rfl⟩

/-- What a longer list has at its end is not paired. -/
theorem zip_append_right {α β : Type} {l : List α} {m : List β} (h : l.length = m.length)
    (padding : List β) : l.zip (m ++ padding) = l.zip m := by
  have happend : (l ++ []).zip (m ++ padding) = l.zip m ++ [].zip padding := List.zip_append h
  rwa [List.append_nil, List.zip_nil_left, List.append_nil] at happend

/-- One level takes a block for each of its nodes with two active children, in their order. -/
theorem Separates.took_growLevel (h : Separates prg points indices n roots depth growth)
    (tape : Tape) :
    let level := (growLevel prg points (branches indices n depth) growth.nodes).run tape
    tape.Took ((((activePrefixes indices n depth).zip level.1.1).filter
      fun place => splits indices n depth place.1).map fun place => place.2.seed) level.2 := by
  intro level
  obtain ⟨hcorrections, hrest⟩ := h.run_growLevel_eq tape
  have hlength : (activePrefixes indices n depth).length
      = (((activePrefixes indices n depth).mapM
          (correctionAt prg points indices n growth.levels roots depth)).run tape).1.length :=
    (Tape.length_run_mapM _ _ tape).symm
  rw [show level.1.1 = _ from hcorrections, show level.2 = _ from hrest, zip_append_right hlength]
  exact Tape.took_run_mapM (took_correctionAt growth.levels) (activePrefixes indices n depth) tape

/-! ### A whole tree -/

theorem lt_of_mem_splitNodes {place : Nat × Nat} (h : place ∈ splitNodes indices n depth) :
    place.1 < depth := by
  obtain ⟨d, hd, hplace⟩ := List.mem_flatMap.mp h
  obtain ⟨node, -, rfl⟩ := List.mem_map.mp hplace
  exact List.mem_range.mp hd

/-- One more level has the seeds of its depth, and leaves those of the depths above. -/
theorem map_storedSeed_splitNodes_succ (hindices : indices.Pairwise (· < ·))
    {levels : List (List SignCorrection)} (hdepth : levels.length = depth)
    {corrections : List SignCorrection}
    (hlength : (activePrefixes indices n depth).length ≤ corrections.length) :
    (splitNodes indices n (depth + 1)).map (storedSeed indices n (levels ++ [corrections]))
      = (splitNodes indices n depth).map (storedSeed indices n levels)
        ++ ((((activePrefixes indices n depth).zip corrections).filter
            fun place => splits indices n depth place.1).map fun place => place.2.seed).map some := by
  rw [splitNodes_succ, List.map_append, List.map_map]
  congr 1
  · refine List.map_congr_left fun place hplace => ?_
    have hlt : place.1 < levels.length := hdepth ▸ lt_of_mem_splitNodes hplace
    rw [storedSeed_eq, storedSeed_eq, List.getElem?_append_left hlt]
  · rw [← map_seed_idxOf? (nodup_activePrefixes hindices) hlength]
    refine List.map_congr_left fun node _ => ?_
    rw [Function.comp, storedSeed_eq, ← hdepth, List.getElem?_concat_length, Option.bind_some]

/-- **Growing takes one block for each node with two active children, from the root down, and they
are the seeds of the corrections for these nodes.** -/
theorem took_grow (prg : Prg) (roots : Pair Block) (hspecial : SpecialIndices indices n points)
    (hdepth : depth ≤ n) (tape : Tape) :
    let grown := (grow prg points indices n roots depth).run tape
    ∃ seeds : List Block,
      (splitNodes indices n depth).map (storedSeed indices n grown.1.levels) = seeds.map some ∧
        tape.Took seeds grown.2 := by
  induction depth generalizing tape with
  | zero => exact ⟨[], rfl, Tape.Took.nil tape⟩
  | succ depth ih =>
      obtain ⟨seeds, hseeds, htook⟩ := ih (by omega) tape
      have hbefore := separates_grow prg roots hspecial (Nat.le_of_succ_le hdepth) tape
      let before := (grow prg points indices n roots depth).run tape
      let level := (growLevel prg points (branches indices n depth) before.1.nodes).run before.2
      have hafter := hbefore.step hspecial hdepth before.2
      have hlength : (activePrefixes indices n depth).length ≤ level.1.1.length := by
        rw [hafter.corrections level.1.1 (by simp [level, before])]
        exact hspecial.length_activePrefixes_le
      have hlevel := hbefore.took_growLevel before.2
      -- what the levels above took stays where it was, the new level takes the rest
      refine ⟨_, ?_, htook.append hlevel⟩
      rw [List.map_append, ← hseeds]
      exact map_storedSeed_splitNodes_succ hspecial.ascending hbefore.length hlength

/-! ### Generated keys -/

/-- What was drawn for two keys and where it is in them: their root seeds, in this order, and then
the seeds of the corrections for the nodes with two active children, which both keys have. -/
structure DrawnFor (tape : Tape) (indices : List UInt64) (n points : Nat) (a b : Parts)
    (rest : Tape) : Prop where
  rest : rest = tape.skip (points + 1)
  rootA : a.rootSeed = tape.block tape.drawn
  rootB : b.rootSeed = tape.block (tape.drawn + 1)
  seedsA : (splitNodes indices n n).map (storedSeed indices n a.levels)
    = ((tape.skip 2).next (points - 1)).map some
  seedsB : (splitNodes indices n n).map (storedSeed indices n b.levels)
    = ((tape.skip 2).next (points - 1)).map some

variable {d : Nat} {data : Bytes}

namespace Shares

theorem drawnFor (prg : Prg) (hspecial : SpecialIndices indices n points) (tape : Tape)
    (d : Nat) (data : Bytes) (corrections : List Tag) :
    let shares := ofTape prg indices n points d data tape
    DrawnFor tape indices n points (shares.parts points corrections .a)
      (shares.parts points corrections .b) (growOn prg indices n points tape).2 := by
  obtain ⟨seeds, hstored, hseeds, hrest⟩ :=
    took_grow prg (rootsOf tape) hspecial (Nat.le_refl n) (tape.skip 2)
  have hcount : seeds.length = points - 1 := by
    have hlength := congrArg List.length hstored
    rw [List.length_map, List.length_map, length_splitNodes hspecial] at hlength
    exact hlength.symm
  rw [hseeds, hcount] at hstored
  have hpos := hspecial.positive
  refine ⟨hrest.trans ?_, rfl, rfl, hstored, hstored⟩
  rw [Tape.skip_skip, hcount, show 2 + (points - 1) = points + 1 by omega]

/-- Generation with or without proof corrections draws the same. -/
theorem exists_drawnFor (prg : Prg) (tape : Tape) (hn : n ≤ maxRangeBits)
    (hspecial : SpecialIndices indices n points) (hd : data.length = points * d)
    (hdata : data.length < 1 <<< 63) (corrections : Shares → Option (List Tag))
    (hcorrections : ∀ tags ∈ corrections (ofTape prg indices n points d data tape),
      tags.length = points) :
    let verifiable := (corrections (ofTape prg indices n points d data tape)).isSome
    ∃ keys a b rest,
      Draws.runOn (do
        let shares ← draw prg indices n points d data
        shares.toKeys n points d (corrections shares)) tape = (.ok keys, rest) ∧
      keys.a.parse verifiable = .ok a ∧ keys.b.parse verifiable = .ok b ∧
      DrawnFor tape indices n points a b rest := by
  intro verifiable
  have hgrowth := separates_growOn prg tape hspecial
  have hpayload : points * d ≤ maxSize := by
    rw [maxSize]
    omega
  have hsize : (Layout.multiPointTable n points d verifiable).size ≤ maxSize :=
    Layout.size_multiPointTable_le hn hspecial.supported (hd ▸ hdata) verifiable
  refine ⟨_, _, _, _, (runOn_draw_toKeys_eq_ok_iff corrections).mpr
      ⟨⟨hn, hspecial, hpayload, hd⟩, hsize, rfl, rfl⟩,
    parse_key hgrowth hspecial hn hd hcorrections .a hsize,
    parse_key hgrowth hspecial hn hd hcorrections .b hsize, ?_⟩
  exact drawnFor prg hspecial tape d data _

end Shares

/-- **Generation with `t` points draws `t + 1` blocks, whatever the points and their values are**:
the two root seeds, and then, from the root down and in ascending order at each depth, the seeds of
the corrections for the nodes with two active children, of which there are `t - 1`. -/
theorem draws_of_generate_points (setup : Setup) (tape : Tape) {indices : List UInt64}
    {n points d : Nat} {data : Bytes} (hn : n ≤ 64) (hpos : 1 ≤ points) (hle : points ≤ 32)
    (hcount : indices.length = points) (hascending : indices.Pairwise (· < ·))
    (hindices : ∀ index ∈ indices, index.toNat < domainSize n) (hd : data.length = points * d)
    (hdata : data.length < 1 <<< 63) :
    (splitNodes indices n n).length = points - 1 ∧
    (splitNodes indices n n).Pairwise (Prod.Lex (· < ·) (· < ·)) ∧
    (∃ keys a b rest,
      (generate setup.prg indices n points d data).runOn tape = (.ok keys, rest) ∧
      keys.a.parse false = .ok a ∧ keys.b.parse false = .ok b ∧
      DrawnFor tape indices n points a b rest) ∧
    (∃ keys a b rest,
      (Verified.generate setup indices n points d data).runOn tape = (.ok keys, rest) ∧
      keys.a.parse true = .ok a ∧ keys.b.parse true = .ok b ∧
      DrawnFor tape indices n points a b rest) ∧
    ∃ key layout rest,
      (compress setup.prg indices n points d data).runOn tape = (.ok key, rest) ∧
      key.checkedLayout = .ok layout ∧
      DrawnFor tape indices n points (key.parts layout .a) (key.parts layout .b) rest := by
  have hspecial : SpecialIndices indices n points := ⟨hindices, hascending, hcount, hpos, hle⟩
  have hgrowth := Shares.separates_growOn setup.prg tape hspecial
  refine ⟨length_splitNodes hspecial, pairwise_splitNodes hascending,
    Shares.exists_drawnFor setup.prg tape hn hspecial hd hdata (fun _ => none) Shares.noProofs,
    ?_, ?_⟩
  · refine Shares.exists_drawnFor setup.prg tape hn hspecial hd hdata
      (fun shares => some (shares.proofCorrections setup.hashes indices)) ?_
    intro tags htags
    rw [← Option.some.inj htags]
    exact Shares.length_proofCorrections hgrowth hspecial setup.hashes
  · obtain ⟨hpaired, hsize, hcompress⟩ :=
      runOn_compress_eq_join setup.prg tape hn hspecial hd hdata
    have hkeys := (runOn_generate setup.prg tape hn hspecial hd hdata).1
    obtain ⟨hpartsA, hpartsB⟩ := hpaired.parts_join hsize
      (Shares.parse_key hgrowth hspecial hn hd Shares.noProofs .a hkeys)
      (Shares.parse_key hgrowth hspecial hn hd Shares.noProofs .b hkeys)
    refine ⟨_, _, _, hcompress,
      Compressed.checkedLayout_eq_ok_iff.mpr ⟨hpaired.wellFormed_join hsize, rfl⟩, ?_⟩
    rw [hpartsA, hpartsB]
    exact Shares.drawnFor setup.prg hspecial tape d data _

/-- With three of four indices, of which the root and one of its children have two active
children, on a tape of which five blocks have been taken. -/
theorem draws_of_generate_points_two_bits :
    let tape : Tape := ⟨fun i => BitVec.ofNat 128 i, 5⟩
    ∃ keys a b, (generate (.ofBlock 0) [1, 2, 3] 2 3 1 [7, 8, 9]).runOn tape
        = (.ok keys, tape.skip 4) ∧
      keys.a.parse false = .ok a ∧ keys.b.parse false = .ok b ∧
      a.rootSeed = 5 ∧ b.rootSeed = 6 ∧
      splitNodes [1, 2, 3] 2 2 = [(0, 0), (1, 1)] ∧
      storedSeed [1, 2, 3] 2 a.levels (0, 0) = some 7 ∧
      storedSeed [1, 2, 3] 2 a.levels (1, 1) = some 8 := by
  intro tape
  have hascending : [1, 2, (3 : UInt64)].Pairwise (· < ·) := by decide
  have hindices : ∀ index ∈ [1, 2, (3 : UInt64)], index.toNat < domainSize 2 := by
    simp [domainSize]
  have hd : ([7, 8, 9] : Bytes).length = 3 * 1 := rfl
  obtain ⟨-, -, ⟨keys, a, b, rest, hrun, ha, hb, hdrawn⟩, -, -⟩ :=
    draws_of_generate_points ⟨.ofBlock 0, ⟨1, 2⟩⟩ tape (by decide) (by decide) (by decide)
      rfl hascending hindices hd (by decide)
  have hsplit : splitNodes [1, 2, 3] 2 2 = [(0, 0), (1, 1)] := by decide
  have hseeds := hdrawn.seedsA
  rw [hsplit] at hseeds
  obtain ⟨hfirst, hrest⟩ := List.cons.inj hseeds
  obtain ⟨hsecond, -⟩ := List.cons.inj hrest
  rw [hdrawn.rest] at hrun
  exact ⟨keys, a, b, hrun, ha, hb, hdrawn.rootA, hdrawn.rootB, hsplit, hfirst, hsecond⟩

end PointSharing.MultiPoint
