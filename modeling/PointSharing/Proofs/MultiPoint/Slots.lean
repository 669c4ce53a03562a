/-
The slots of a level.

The states of one depth can be laid out before they are known: one slot for each active node, into
which its parent writes.  That this goes well is a matter of positions.  Every parent has to have an
active child, a child has to be found at a position that there is a slot and a bit of the sign
vectors for, and no slot may be forgotten or written twice.  All of it follows from the list of the
next depth being the present one with every node replaced by its active children: running through
the parents in order runs through the slots in order.

The nodes themselves are words of 64 bits, and the root of a domain of 64 bits is what is left of an
index when all its bits have been shifted out.
-/
import PointSharing.Proofs.MultiPoint.InnerNodes

namespace PointSharing.MultiPoint

variable {prg : Prg} {indices : List UInt64} {n points d depth : Nat} {σ : Type}

/-! ### Words -/

/-- The first bits of an index, in a word: if all bits are shifted out, none are left. -/
def firstBits (n depth : Nat) (index : UInt64) : UInt64 :=
  if n - depth < 64 then index >>> UInt64.ofNat (n - depth) else 0

theorem toNat_firstBits (index : UInt64) :
    (firstBits n depth index).toNat = index.toNat >>> (n - depth) := by
  unfold firstBits
  by_cases h : n - depth < 64
  · have hshift : (UInt64.ofNat (n - depth)).toNat = n - depth :=
      UInt64.toNat_ofNat_of_lt' (Nat.lt_of_lt_of_le h (by decide))
    rw [if_pos h, UInt64.toNat_shiftRight, hshift, Nat.mod_eq_of_lt h]
  · have hle : domainSize maxRangeBits ≤ domainSize (n - depth) :=
      domainSize_le_domainSize (Nat.le_of_not_lt h)
    rw [if_neg h, UInt64.toNat_zero, eq_comm, shiftRight_eq_zero_iff]
    exact Nat.lt_of_lt_of_le (toNat_lt_domainSize index) hle

/-- What the active nodes of a depth are relied on for. -/
structure PrefixesFit (indices : List UInt64) (n points depth : Nat) : Prop where
  /-- Each is above the one before it, so that it can be searched for. -/
  ascending : (activePrefixes indices n depth).Pairwise (· < ·)
  /-- There are no more of them than there are corrections in a level. -/
  count : (activePrefixes indices n depth).length ≤ points
  /-- They are what is computed in words, also where a whole word is shifted out. -/
  words : activePrefixes indices n depth
    = mergeRuns ((indices.map (firstBits n depth)).map UInt64.toNat)

theorem prefixesFit (hspecial : SpecialIndices indices n points) :
    PrefixesFit indices n points depth := by
  refine ⟨pairwise_activePrefixes hspecial.ascending, hspecial.length_activePrefixes_le, ?_⟩
  have hwords : UInt64.toNat ∘ firstBits n depth
      = fun index => index.toNat >>> (n - depth) := funext toNat_firstBits
  rw [activePrefixes, List.map_map, hwords]

/-- No bit is lost from a node to its children. -/
theorem toNat_children {node : UInt64} (h : node.toNat < domainSize depth) (hdepth : depth < 64) :
    (node <<< 1).toNat = 2 * node.toNat ∧ (node <<< 1 ||| 1).toNat = 2 * node.toNat + 1 := by
  have hlt : node.toNat < domainSize 63 :=
    Nat.lt_of_lt_of_le h (domainSize_le_domainSize (Nat.le_of_lt_succ hdepth))
  have hleft : (node <<< 1).toNat = node.toNat <<< 1 := by
    rw [UInt64.toNat_shiftLeft]
    refine Nat.mod_eq_of_lt ?_
    rw [show (1 : UInt64).toNat % 64 = 1 from rfl, Nat.shiftLeft_eq]
    simp only [domainSize, Nat.one_shiftLeft] at hlt
    omega
  have hright : (node <<< 1 ||| 1).toNat = node.toNat <<< 1 + 1 := by
    rw [UInt64.toNat_or, hleft]
    exact (Nat.shiftLeft_add_eq_or_of_lt (by decide : 1 < 2 ^ 1) node.toNat).symm
  rw [hright, hleft, Nat.shiftLeft_eq]
  omega

/-! ### Writing -/

/-- What is in the slots after some writes, each of which says where and what. -/
def fillSlots (slots : List σ) (writes : List (Nat × σ)) : List σ :=
  writes.foldl (fun slots write => slots.set write.1 write.2) slots

theorem fillSlots_append (done slots : List σ) {writes : List (Nat × σ)}
    (h : writes.map Prod.fst = List.range' done.length slots.length) :
    fillSlots (done ++ slots) writes = done ++ writes.map Prod.snd := by
  -- what has been written grows by one item with each write, and so does the next position
  induction writes generalizing done slots with
  | nil =>
      have hslots : slots = [] := List.eq_nil_of_length_eq_zero (List.range'_eq_nil_iff.mp h.symm)
      rw [hslots]
      rfl
  | cons write writes ih =>
      cases slots with
      | nil => cases h
      | cons slot slots =>
          rw [List.map_cons, List.length_cons, List.range'_succ] at h
          obtain ⟨hfirst, hrest⟩ := List.cons.inj h
          have hset : (done ++ slot :: slots).set write.1 write.2
              = (done ++ [write.2]) ++ slots := by
            rw [hfirst, List.set_append_right _ _ (Nat.le_refl _), Nat.sub_self, List.set_cons_zero,
              List.append_assoc, List.singleton_append]
          have hdone : fillSlots ((done ++ [write.2]) ++ slots) writes
              = (done ++ [write.2]) ++ writes.map Prod.snd :=
            ih (done ++ [write.2]) slots (by rw [List.length_append, List.length_singleton, hrest])
          rw [fillSlots, List.foldl_cons, hset]
          exact hdone.trans (List.append_assoc ..)

/-- If every slot is written once and in order, nothing is left of what was there. -/
theorem fillSlots_eq {slots : List σ} {writes : List (Nat × σ)}
    (h : writes.map Prod.fst = List.range slots.length) :
    fillSlots slots writes = writes.map Prod.snd :=
  fillSlots_append [] slots (h.trans List.range_eq_range')

/-- What a node writes: the state of each active child at the child's position. -/
def childWrites (branch : Branch) (fork : Fork σ) : List (Nat × σ) :=
  [false, true].flatMap fun right =>
    (branch.side right).toList.map fun place => (place, fork.side right)

/-- What the nodes of a depth write for one party, one after the other. -/
def slotWrites (prg : Prg) (points : Nat) (corrections : List SignCorrection)
    (branches : List Branch) (states : List (Node SignVector)) :
    List (Nat × Node SignVector) :=
  (branches.zip states).flatMap fun (branch, state) =>
    childWrites branch (level prg points corrections state)

/-- A search finds the first position of an item that is there. -/
theorem idxOf?_eq_ite (l : List Nat) (x : Nat) :
    l.idxOf? x = if x ∈ l then some (l.idxOf x) else none := by
  by_cases hx : x ∈ l
  · obtain ⟨place, hplace⟩ := Option.isSome_iff_exists.mp (List.isSome_idxOf?.mpr hx)
    rw [if_pos hx, List.idxOf_eq_getD_idxOf?, hplace, Option.getD_some]
  · rw [if_neg hx]
    exact List.idxOf?_eq_none_iff.mpr hx

theorem childWrites_branchAt (node : Nat) (fork : Fork σ) :
    childWrites (branchAt indices n depth node) fork
      = (activeSides indices n depth node).map fun child =>
          ((activePrefixes indices n (depth + 1)).idxOf child, fork.side (child.testBit 0)) := by
  unfold childWrites activeSides branchAt
  by_cases hleft : 2 * node ∈ activePrefixes indices n (depth + 1) <;>
    by_cases hright : 2 * node + 1 ∈ activePrefixes indices n (depth + 1) <;>
    simp [Branch.side, idxOf?_eq_ite, hleft, hright, Fork.side]

/-- Searching for the items of a list without repetitions finds the positions in order. -/
theorem map_idxOf_eq_range {l : List Nat} (h : l.Nodup) :
    l.map (l.idxOf ·) = List.range l.length := by
  refine List.ext_getElem (by simp) fun i hi hi' => ?_
  rw [List.getElem_map, List.getElem_range]
  exact h.idxOf_getElem i _

/-! ### One level -/

/-- **The nodes of a depth write the states of the next depth, from left to right.** -/
theorem Separates.slotWrites_eq {roots : Pair Block} {growth : Growth}
    (h : Separates prg points indices n roots depth growth)
    (hspecial : SpecialIndices indices n points) (hdepth : depth < n)
    (corrections : List SignCorrection) (party : Party) :
    slotWrites prg points corrections (branches indices n depth)
        (growth.nodes.map fun states => states.get party)
      = (activePrefixes indices n (depth + 1)).map fun child =>
          ((activePrefixes indices n (depth + 1)).idxOf child,
            (statesAt prg points (growth.levels ++ [corrections]) roots (depth + 1) child).get
              party) := by
  -- only the list that is run through is replaced, not the one that positions are looked up in
  have hnext := congrArg (List.map fun child =>
    ((activePrefixes indices n (depth + 1)).idxOf child,
      (statesAt prg points (growth.levels ++ [corrections]) roots (depth + 1) child).get party))
    (activePrefixes_succ hspecial.ascending hdepth)
  rw [hnext, List.map_flatMap, slotWrites, branches_eq_map, h.nodes, List.map_map, List.zip_map',
    List.flatMap_map]
  refine List.flatMap_congr fun node _ => ?_
  refine (childWrites_branchAt node _).trans (List.map_congr_left fun child hchild => ?_)
  rw [statesAt_succ prg points h.length, (mem_activeSides.mp hchild).2]
  cases party <;> rfl

/-- What one level relies on, from the states of a depth to those of the next. -/
structure LevelFits (prg : Prg) (indices : List UInt64) (n points depth : Nat)
    (corrections : List SignCorrection) (held next : List (Pair (Node SignVector))) : Prop where
  /-- There are states for every active node. -/
  states : held.length = (activePrefixes indices n depth).length
  /-- There is a branch for every active node. -/
  branched : (branches indices n depth).length = (activePrefixes indices n depth).length
  /-- The level has a correction for every point. -/
  padded : corrections.length = points
  /-- The children of an active node are words. -/
  words : ∀ node : UInt64, node.toNat ∈ activePrefixes indices n depth →
    (node <<< 1).toNat = 2 * node.toNat ∧ (node <<< 1 ||| 1).toNat = 2 * node.toNat + 1
  /-- The branch of a node has the positions at which its children are. -/
  found : ∀ (place node : Nat) (branch : Branch),
    (activePrefixes indices n depth)[place]? = some node →
    (branches indices n depth)[place]? = some branch →
    ∀ right child, branch.side right = some child ↔
      (activePrefixes indices n (depth + 1))[child]? = some (2 * node + right.toNat)
  /-- Every node has an active child. -/
  hasChild : ∀ branch ∈ branches indices n depth, ∃ right, branch.side right ≠ none
  /-- A child's position is that of a slot and of a bit of the sign vectors. -/
  inRange : ∀ branch ∈ branches indices n depth, ∀ right, ∀ child ∈ branch.side right,
    child < next.length ∧ child < points
  /-- There is a slot for every active node of the next depth. -/
  slots : next.length = (activePrefixes indices n (depth + 1)).length
  /-- Each party's slots are written once each. -/
  written : ∀ party, (slotWrites prg points corrections (branches indices n depth)
    (held.map fun states => states.get party)).map Prod.fst = List.range next.length
  /-- Whatever was in a party's slots, the states of the next depth are there afterwards. -/
  filled : ∀ party slots, slots.length = next.length →
    fillSlots slots (slotWrites prg points corrections (branches indices n depth)
      (held.map fun states => states.get party)) = next.map fun states => states.get party

namespace Shares

variable {shares : Shares} {tape : Tape} {held next : List (Pair (Node SignVector))}
  {corrections : List SignCorrection}

/-- The states of a depth write those of the next depth, from left to right. -/
theorem HeldAt.slotWrites_eq (h : HeldAt prg indices n points tape shares depth held)
    (hcorrections : shares.levels[depth]? = some corrections)
    (hspecial : SpecialIndices indices n points) (hdepth : depth < n) (party : Party) :
    slotWrites prg points corrections (branches indices n depth)
        (held.map fun states => states.get party)
      = (activePrefixes indices n (depth + 1)).map fun child =>
          ((activePrefixes indices n (depth + 1)).idxOf child,
            (statesAt prg points (shares.levels.take (depth + 1)) shares.roots (depth + 1)
              child).get party) := by
  have hlevels : shares.levels.take (depth + 1) = shares.levels.take depth ++ [corrections] := by
    rw [List.take_add_one, hcorrections, Option.toList_some]
  rw [hlevels]
  exact (h.separates hspecial (Nat.le_of_lt hdepth)).slotWrites_eq hspecial hdepth corrections party

theorem HeldAt.levelFits (hheld : HeldAt prg indices n points tape shares depth held)
    (hnext : HeldAt prg indices n points tape shares (depth + 1) next)
    (hcorrections : shares.levels[depth]? = some corrections)
    (hspecial : SpecialIndices indices n points) (hn : n ≤ maxRangeBits) (hdepth : depth < n) :
    LevelFits prg indices n points depth corrections held next := by
  have hstates := hheld.eq_map hspecial (Nat.le_of_lt hdepth)
  have hnextStates := hnext.eq_map hspecial hdepth
  have hslots : next.length = (activePrefixes indices n (depth + 1)).length := by
    rw [hnextStates, List.length_map]
  have hwrites := hheld.slotWrites_eq hcorrections hspecial hdepth
  have hwritten : ∀ party, (slotWrites prg points corrections (branches indices n depth)
      (held.map fun states => states.get party)).map Prod.fst = List.range next.length := by
    intro party
    rw [hwrites, List.map_map, hslots]
    exact map_idxOf_eq_range (nodup_activePrefixes hspecial.ascending)
  have hbranches : ∀ branch ∈ branches indices n depth,
      ∃ node ∈ activePrefixes indices n depth, branchAt indices n depth node = branch :=
    fun branch hbranch => List.mem_map.mp hbranch
  refine ⟨?_, List.length_map _, ?_, ?_, ?_, ?_, ?_, hslots, hwritten, ?_⟩
  · rw [hstates, List.length_map]
  · refine (hnext.separates hspecial hdepth).corrections corrections ?_
    exact List.mem_of_getElem?
      ((List.getElem?_take_of_lt (Nat.lt_succ_self depth)).trans hcorrections)
  · intro node hnode
    exact toNat_children
      (lt_domainSize_of_mem_activePrefixes hspecial.inDomain (Nat.le_of_lt hdepth) hnode)
      (Nat.lt_of_lt_of_le hdepth hn)
  · intro place node branch hnode hbranch right child
    rw [branches_eq_map, List.getElem?_map, hnode] at hbranch
    rw [← Option.some.inj hbranch]
    exact side_branchAt_eq_some_iff hspecial.ascending
  · intro branch hbranch
    obtain ⟨node, hnode, rfl⟩ := hbranches branch hbranch
    exact exists_side_branchAt_ne_none hdepth hnode
  · intro branch hbranch right child hchild
    obtain ⟨node, -, rfl⟩ := hbranches branch hbranch
    have hplace := (side_branchAt_eq_some_iff hspecial.ascending).mp hchild
    obtain ⟨hlt, -⟩ := List.getElem?_eq_some_iff.mp hplace
    exact ⟨hslots ▸ hlt, hspecial.position_lt hplace⟩
  · intro party slots hlength
    rw [fillSlots_eq ((hwritten party).trans (by rw [hlength])), hwrites, hnextStates,
      List.map_map, List.map_map]
    rfl

end Shares

/-- **Whatever arguments are accepted, generation meets in every level what it relies on**: the
active nodes are ascending words, no more than points, and each with an active child; a child is
found at a position below the number of points, of which there are at most thirty-two; and each
party's slots are written once each, so that none keeps what was in it before.  After the last level
the active nodes are the special indices, and each point's leaf is the one at its index. -/
theorem slots_of_draw {data : Bytes}
    (h : Shares.checkArguments indices n points d data = .ok ()) (prg : Prg) (tape : Tape) :
    points ≤ 32 ∧ ∃ shares rest,
      (Shares.draw prg indices n points d data).runOn tape = (.ok shares, rest) ∧
      (∀ depth ≤ n, PrefixesFit indices n points depth) ∧
      (∀ depth < n, ∃ corrections held next,
        shares.levels[depth]? = some corrections ∧
        shares.HeldAt prg indices n points tape depth held ∧
        shares.HeldAt prg indices n points tape (depth + 1) next ∧
        LevelFits prg indices n points depth corrections held next) ∧
      activePrefixes indices n n = indices.map UInt64.toNat ∧
      shares.leaves.length = points ∧
      ∀ (k : Nat) (index : UInt64), indices[k]? = some index →
        ∃ leaf, shares.leaves[k]? = some leaf ∧
          ∀ party, leaf.get party
            = ((shares.parts points [] party).evaluator prg n d).leafAt index := by
  obtain ⟨hn, hspecial, -, -⟩ := Shares.checkArguments_eq_ok_iff.mp h
  let shares := Shares.ofTape prg indices n points d data tape
  have hgrowth := Shares.separates_growOn prg tape hspecial
  refine ⟨hspecial.supported, shares, _, Shares.runOn_draw_of_accepted prg tape h,
    fun _ _ => prefixesFit hspecial, ?_, activePrefixes_self hspecial.ascending,
    Shares.length_leaves hgrowth hspecial, ?_⟩
  · intro depth hdepth
    obtain ⟨held, hheld⟩ : ∃ held, shares.HeldAt prg indices n points tape depth held :=
      Shares.exists_heldAt prg hspecial d data tape (Nat.le_of_lt hdepth)
    obtain ⟨next, hnext⟩ : ∃ next, shares.HeldAt prg indices n points tape (depth + 1) next :=
      Shares.exists_heldAt prg hspecial d data tape hdepth
    have hcorrections := hheld.next hdepth
    exact ⟨_, held, next, hcorrections, hheld, hnext,
      hheld.levelFits hnext hcorrections hspecial hn hdepth⟩
  · intro k index hk
    refine ⟨_, Shares.leaves_getElem? hgrowth hspecial hk, fun party => ?_⟩
    exact (Shares.leafAt_parts shares [] party index).symm

/-- With indices of 64 bits, the last one among them: all bits are shifted out above the root, and
the slots of the leaves are written from nodes of 63 bits. -/
theorem slots_of_draw_all_bits :
    ∃ shares rest,
      (Shares.draw (.ofBlock 0) [5, 0xffffffffffffffff] 64 2 1 [7, 9]).runOn (.ofBytes [])
        = (.ok shares, rest) ∧
      PrefixesFit [5, 0xffffffffffffffff] 64 2 0 ∧
      firstBits 64 0 0xffffffffffffffff = 0 ∧
      (∃ corrections held next, shares.levels[63]? = some corrections ∧
        LevelFits (.ofBlock 0) [5, 0xffffffffffffffff] 64 2 63 corrections held next ∧
        next.length = 2) ∧
      activePrefixes [5, 0xffffffffffffffff] 64 64 = [5, 0xffffffffffffffff] ∧
      shares.leaves.length = 2 := by
  have hspecial : SpecialIndices [5, (0xffffffffffffffff : UInt64)] 64 2 :=
    ⟨fun index _ => toNat_lt_domainSize index, by decide, rfl, by decide, by decide⟩
  have haccepted : Shares.checkArguments [5, 0xffffffffffffffff] 64 2 1 [7, 9] = .ok () :=
    Shares.checkArguments_eq_ok_iff.mpr ⟨by decide, hspecial, by decide, rfl⟩
  obtain ⟨-, shares, rest, hdraw, hprefixes, hlevels, hleaves, hlength, -⟩ :=
    slots_of_draw haccepted (.ofBlock 0) (.ofBytes [])
  obtain ⟨corrections, held, next, hcorrections, -, -, hfits⟩ := hlevels 63 (by decide)
  refine ⟨shares, rest, hdraw, hprefixes 0 (by decide), by decide,
    ⟨corrections, held, next, hcorrections, hfits, ?_⟩, hleaves, hlength⟩
  rw [hfits.slots, hleaves]
  rfl

end PointSharing.MultiPoint
