/-
What the keys of a function with several special points lead to at every node.

Generation holds the states of the active nodes of one depth at a time, in a list of their own; the
parties go down every path.  Growing to a depth comes first in growing further, so what is held
before a level belongs to the levels that the finished shares begin with, and the invariant
`Separates` of that depth says where it is found in the trees of the parties.

Which node is in which place of the list is said without the list: the nodes above the special
indices are a set, and a node's place is its place in that set.
-/
import Mathlib.Data.Finset.Sort
import PointSharing.Proofs.InnerNodes
import PointSharing.Proofs.Serialization

namespace PointSharing.MultiPoint

variable {prg : Prg} {indices : List UInt64} {n points d depth : Nat}

/-! ### Prefixes -/

/-- What the special indices begin with: the first bits of each, as a number. -/
def prefixes (indices : List UInt64) (n depth : Nat) : Finset Nat :=
  (indices.map fun index => index.toNat >>> (n - depth)).toFinset

theorem mem_prefixes {node : Nat} :
    node ∈ prefixes indices n depth ↔ ∃ index ∈ indices, index.toNat >>> (n - depth) = node := by
  rw [prefixes, List.mem_toFinset, List.mem_map]

/-- The active nodes are the prefixes in ascending order. -/
theorem activePrefixes_eq_sort (h : indices.Pairwise (· < ·)) :
    activePrefixes indices n depth = (prefixes indices n depth).sort := by
  refine List.Pairwise.eq_of_mem_iff (pairwise_activePrefixes h)
    (Finset.sortedLT_sort _).pairwise fun node => ?_
  rw [Finset.mem_sort, mem_prefixes, mem_activePrefixes]

/-! ### Stopping on the way down -/

/-- The levels that are grown first are the first levels. -/
theorem take_levels_grow (prg : Prg) (roots : Pair Block)
    (hspecial : SpecialIndices indices n points) (tape : Tape) {last : Nat} (hdepth : depth ≤ last)
    (hlast : last ≤ n) :
    ((grow prg points indices n roots last).run tape).1.levels.take depth
      = ((grow prg points indices n roots depth).run tape).1.levels := by
  induction last, hdepth using Nat.le_induction with
  | base =>
      have hgrowth := separates_grow prg roots hspecial hlast tape
      exact List.take_of_length_le (Nat.le_of_eq hgrowth.length)
  | succ last hdepth ih =>
      have hgrowth := separates_grow prg roots hspecial (Nat.le_of_succ_le hlast) tape
      rw [← ih (Nat.le_of_succ_le hlast)]
      exact List.take_append_of_le_length (hgrowth.length.symm ▸ hdepth)

namespace Shares

variable {shares : Shares} {tape : Tape} {held : List (Pair (Node SignVector))}

/-- The states that generation on a tape holds before the level at some depth, and after the last
level. -/
structure HeldAt (prg : Prg) (indices : List UInt64) (n points : Nat) (tape : Tape)
    (shares : Shares) (depth : Nat) (held : List (Pair (Node SignVector))) : Prop where
  /-- The first levels end with these states. -/
  before : ((grow prg points indices n shares.roots depth).run (tape.skip 2)).1
    = ⟨shares.levels.take depth, held⟩
  /-- The corrections of the next level are made from them. -/
  next : depth < n → shares.levels[depth]? = some
    ((growLevel prg points (branches indices n depth) held).run
      ((grow prg points indices n shares.roots depth).run (tape.skip 2)).2).1.1
  /-- After the last level they are the leaves. -/
  last : depth = n → held = shares.leaves

theorem exists_heldAt (prg : Prg) (hspecial : SpecialIndices indices n points) (d : Nat)
    (data : Bytes) (tape : Tape) (hdepth : depth ≤ n) :
    ∃ held, HeldAt prg indices n points tape (ofTape prg indices n points d data tape) depth
      held := by
  let grown (depth : Nat) : Growth :=
    ((grow prg points indices n (rootsOf tape) depth).run (tape.skip 2)).1
  have htake : ∀ {m}, m ≤ n → (grown n).levels.take m = (grown m).levels := fun hm =>
    take_levels_grow prg (rootsOf tape) hspecial (tape.skip 2) hm (Nat.le_refl n)
  refine ⟨(grown depth).nodes, ?_, ?_, ?_⟩
  · exact (Growth.mk.injEq ..).mpr ⟨(htake hdepth).symm, rfl⟩
  · intro hlt
    have hlength : (grown depth).levels.length = depth :=
      (separates_grow prg (rootsOf tape) hspecial hdepth (tape.skip 2)).length
    let level := (growLevel prg points (branches indices n depth) (grown depth).nodes).run
      ((grow prg points indices n (rootsOf tape) depth).run (tape.skip 2)).2
    -- the level is the last of those that are grown one step further
    have hlevels : (grown n).levels.take (depth + 1) = (grown depth).levels ++ [level.1.1] :=
      htake hlt
    show (grown n).levels[depth]? = some level.1.1
    rw [← List.getElem?_take_of_lt (Nat.lt_succ_self depth), hlevels,
      List.getElem?_append_right (Nat.le_of_eq hlength), hlength, Nat.sub_self]
    rfl
  · rintro rfl
    rfl

/-! ### The states of the parties -/

theorem stateAt_parts (corrections : List Tag) (party : Party) (depth node : Nat) :
    ((shares.parts points corrections party).evaluator prg n d).stateAt depth node
      = (statesAt prg points (shares.levels.take depth) shares.roots depth node).get party := by
  cases party
  · exact congrArg (fun levels => Tree.descend levels _ _) List.map_take.symm
  · exact congrArg (fun levels => Tree.descend levels _ _) List.map_take.symm

/-- What is held separates the parties at its depth. -/
theorem HeldAt.separates (h : HeldAt prg indices n points tape shares depth held)
    (hspecial : SpecialIndices indices n points) (hdepth : depth ≤ n) :
    Separates prg points indices n shares.roots depth ⟨shares.levels.take depth, held⟩ := by
  have hgrowth := separates_grow prg shares.roots hspecial hdepth (tape.skip 2)
  rwa [h.before] at hgrowth

/-- What is held are the states that the parties come to at the active nodes. -/
theorem HeldAt.eq_map (h : HeldAt prg indices n points tape shares depth held)
    (hspecial : SpecialIndices indices n points) (hdepth : depth ≤ n) :
    held = (activePrefixes indices n depth).map
      (statesAt prg points (shares.levels.take depth) shares.roots depth) :=
  (h.separates hspecial hdepth).nodes

end Shares

/-- **At every node above or at a leaf the sign vectors that two generated keys lead to differ in
exactly the bit of the node's place among the prefixes, where generation holds the same states; at a
node that no special index begins with both keys lead to the same state.**  The nodes are those of
any depth, down to the leaves. -/
theorem states_of_generate_points {data : Bytes} {tape rest : Tape} {keys : Pair Key}
    (h : (generate prg indices n points d data).runOn tape = (.ok keys, rest)) :
    ∃ shares a b,
      (Shares.draw prg indices n points d data).runOn tape = (.ok shares, rest) ∧
      keys.a.parse false = .ok a ∧ keys.b.parse false = .ok b ∧
      ∀ depth ≤ n, ∃ held, shares.HeldAt prg indices n points tape depth held ∧
        ∀ node < domainSize depth,
          let states : Pair (Node SignVector) := ⟨(a.evaluator prg n d).stateAt depth node,
            (b.evaluator prg n d).stateAt depth node⟩
          (∀ place : Nat, (prefixes indices n depth).sort[place]? = some node →
            states.a.control ^^^ states.b.control = SignVector.single place ∧
              held[place]? = some states) ∧
          (node ∉ prefixes indices n depth → states.a = states.b) := by
  obtain ⟨⟨-, hspecial, -, -⟩, -, -, -⟩ :=
    (Shares.runOn_draw_toKeys_eq_ok_iff fun _ => none).mp h
  let shares := Shares.ofTape prg indices n points d data tape
  have hwritten : shares.WrittenTo none n points d _ keys :=
    Shares.writtenTo (fun _ => none) Shares.noProofs h
  refine ⟨shares, _, _, Shares.runOn_draw (fun _ => none) h, hwritten.parse .a,
    hwritten.parse .b, ?_⟩
  intro depth hdepth
  obtain ⟨held, hheld⟩ : ∃ held, shares.HeldAt prg indices n points tape depth held :=
    Shares.exists_heldAt prg hspecial d data tape hdepth
  refine ⟨held, hheld, ?_⟩
  intro node hnode states
  have hseparates := hheld.separates hspecial hdepth
  have hstates : states
      = statesAt prg points (shares.levels.take depth) shares.roots depth node :=
    (Pair.mk.injEq ..).mpr ⟨Shares.stateAt_parts [] .a depth node,
      Shares.stateAt_parts [] .b depth node⟩
  rw [hstates, ← activePrefixes_eq_sort hspecial.ascending]
  refine ⟨fun place hplace => ?_, fun hnone => ?_⟩
  · refine ⟨hseparates.active place node hplace, ?_⟩
    rw [hheld.eq_map hspecial hdepth, List.getElem?_map, hplace]
    rfl
  · refine hseparates.inactive node hnode fun hactive => hnone ?_
    exact mem_prefixes.mpr (mem_activePrefixes.mp hactive)

/-- With three of four indices: the two nodes at depth one are both above special indices, and of
the leaves all but the one of index one are special. -/
theorem states_of_generate_points_two_bits :
    ∃ keys rest a b,
      (generate (.ofBlock 0) [0, 2, 3] 2 3 1 [7, 8, 9]).runOn (.ofBytes []) = (.ok keys, rest) ∧
      keys.a.parse false = .ok a ∧ keys.b.parse false = .ok b ∧
      let treeA := a.evaluator (.ofBlock 0) 2 1
      let treeB := b.evaluator (.ofBlock 0) 2 1
      (treeA.stateAt 1 1).control ^^^ (treeB.stateAt 1 1).control = SignVector.single 1 ∧
        (treeA.stateAt 2 3).control ^^^ (treeB.stateAt 2 3).control = SignVector.single 2 ∧
        treeA.stateAt 2 1 = treeB.stateAt 2 1 := by
  have hspecial : SpecialIndices [0, 2, (3 : UInt64)] 2 3 :=
    ⟨by simp [domainSize], by decide, rfl, by decide, by decide⟩
  have hrun : (generate (.ofBlock 0) [0, 2, 3] 2 3 1 [7, 8, 9]).runOn (.ofBytes [])
      = (.ok _, _) :=
    (Shares.runOn_draw_toKeys_eq_ok_iff fun _ => none).mpr
      ⟨⟨by decide, hspecial, by decide, rfl⟩, by decide, rfl, rfl⟩
  obtain ⟨shares, a, b, -, ha, hb, hstates⟩ := states_of_generate_points hrun
  obtain ⟨_, -, hone⟩ := hstates 1 (by decide)
  obtain ⟨_, -, htwo⟩ := hstates 2 (by decide)
  have hprefixes : ∀ depth, (prefixes [0, 2, 3] 2 depth).sort
      = activePrefixes [0, 2, 3] 2 depth := fun _ =>
    (activePrefixes_eq_sort hspecial.ascending).symm
  have hmiddle : (prefixes [0, 2, 3] 2 1).sort[1]? = some 1 := by
    rw [hprefixes]
    decide
  have hleaf : (prefixes [0, 2, 3] 2 2).sort[2]? = some 3 := by
    rw [hprefixes]
    decide
  exact ⟨_, _, a, b, hrun, ha, hb, ((hone 1 (by decide)).1 1 hmiddle).1,
    ((htwo 3 (by decide)).1 2 hleaf).1, (htwo 1 (by decide)).2 (by decide)⟩

end PointSharing.MultiPoint
