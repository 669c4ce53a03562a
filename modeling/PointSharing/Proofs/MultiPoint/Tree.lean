/-
The two trees of a function with several special points.

`Separates` is the invariant of growing: at the active node in position `j` of its depth the
parties' sign vectors differ in exactly the bit of point `j`, at every other node of the
depth their states are the same, and the states that are handed to the next level are those
that walking down from the root arrives at.

The induction is on the depth.  The positions of the active nodes change from one level to
the next, so the step goes from a child to its parent: the parent's position says which
correction is added, and the branch of the parent says in which position the child is.
-/
import PointSharing.Proofs.MultiPoint.Level
import PointSharing.Proofs.Tree

namespace PointSharing.MultiPoint

/-- Special indices as generation accepts them. -/
structure SpecialIndices (indices : List UInt64) (n points : Nat) : Prop where
  inDomain : ∀ index ∈ indices, index.toNat < domainSize n
  ascending : indices.Pairwise (· < ·)
  count : indices.length = points
  positive : 0 < points
  supported : points ≤ maxPoints

namespace SpecialIndices

variable {indices : List UInt64} {n points depth : Nat}

theorem ne_nil (h : SpecialIndices indices n points) : indices ≠ [] :=
  List.ne_nil_of_length_pos (h.count ▸ h.positive)

theorem length_activePrefixes_le (h : SpecialIndices indices n points) :
    (activePrefixes indices n depth).length ≤ points :=
  h.count ▸ MultiPoint.length_activePrefixes_le

theorem position_lt (h : SpecialIndices indices n points) {point node : Nat}
    (hpoint : (activePrefixes indices n depth)[point]? = some node) : point < points := by
  obtain ⟨hlt, -⟩ := List.getElem?_eq_some_iff.mp hpoint
  exact Nat.lt_of_lt_of_le hlt h.length_activePrefixes_le

end SpecialIndices

/-! ### Walking down -/

variable (prg : Prg) (points : Nat)

/-- The states of both parties at the root. -/
def rootNodes (roots : Pair Block) : Pair (Node SignVector) :=
  Pair.ofFn fun party => rootNode party (roots.get party)

/-- The states of both parties at a node. -/
def statesAt (levels : List (List SignCorrection)) (roots : Pair Block) (depth node : Nat) :
    Pair (Node SignVector) :=
  (rootNodes roots).map (Tree.descend (levels.map (level prg points)) (nodePath depth node))

theorem statesAt_succ {levels : List (List SignCorrection)} {depth : Nat}
    (h : levels.length = depth) (corrections : List SignCorrection) (roots : Pair Block)
    (node : Nat) :
    statesAt prg points (levels ++ [corrections]) roots (depth + 1) node
      = (statesAt prg points levels roots depth (node / 2)).map fun state =>
          (level prg points corrections state).side (node.testBit 0) := by
  have hpath : (nodePath depth (node / 2)).length = (levels.map (level prg points)).length := by
    rw [length_nodePath, List.length_map, h]
  unfold statesAt Pair.map
  rw [nodePath_succ', List.map_append, List.map_singleton, Tree.descend_append hpath,
    Tree.descend_append hpath]

/-! ### The invariant -/

/-- The states differ at the active nodes, each in its own bit, and nowhere else. -/
structure Separates (indices : List UInt64) (n : Nat) (roots : Pair Block) (depth : Nat)
    (growth : Growth) : Prop where
  /-- There is one level for every bit so far. -/
  length : growth.levels.length = depth
  /-- A level has a correction for each point. -/
  corrections : ∀ corrections ∈ growth.levels, corrections.length = points
  /-- The states that are kept are those of the active nodes, in their order. -/
  nodes : growth.nodes
    = (activePrefixes indices n depth).map (statesAt prg points growth.levels roots depth)
  /-- The sign vectors at an active node differ in the bit of its position. -/
  active : ∀ point node : Nat, (activePrefixes indices n depth)[point]? = some node →
    (statesAt prg points growth.levels roots depth node).a.control
        ^^^ (statesAt prg points growth.levels roots depth node).b.control
      = SignVector.single point
  /-- The states at any other node are the same. -/
  inactive : ∀ node < domainSize depth, node ∉ activePrefixes indices n depth →
    (statesAt prg points growth.levels roots depth node).a
      = (statesAt prg points growth.levels roots depth node).b

/-- The corrections of a level do at every active node what its branch asks for. -/
def HandlesActive (indices : List UInt64) (n : Nat) (roots : Pair Block) (depth : Nat)
    (levels : List (List SignCorrection)) (corrections : List SignCorrection) : Prop :=
  ∀ node ∈ activePrefixes indices n depth,
    Handles prg points corrections (branchAt indices n depth node)
      (statesAt prg points levels roots depth node)

variable {prg points} {indices : List UInt64} {n : Nat} {roots : Pair Block} {depth : Nat}
  {growth : Growth}

theorem separates_root (hspecial : SpecialIndices indices n points) :
    Separates prg points indices n roots 0 ⟨[], [rootNodes roots]⟩ := by
  have hroot : activePrefixes indices n 0 = [0] :=
    activePrefixes_zero hspecial.ascending hspecial.ne_nil hspecial.inDomain
  refine ⟨rfl, by simp, ?_, ?_, ?_⟩
  · rw [hroot]
    rfl
  · intro point node hpoint
    rw [hroot] at hpoint
    obtain ⟨hlt, -⟩ := List.getElem?_eq_some_iff.mp hpoint
    have hzero : point = 0 := Nat.lt_one_iff.mp hlt
    rw [hzero]
    exact BitVec.zero_xor
  · intro node hnode hactive
    rw [hroot, List.mem_singleton] at hactive
    exact absurd (Nat.lt_one_iff.mp hnode) hactive

/-! ### One level more -/

/-- The states that a level passes on, from the branch of a node and the states of its children. -/
theorem activeChildren_branchAt (node : Nat) (forks : Pair (Fork (Node SignVector))) :
    activeChildren (branchAt indices n depth node) forks
      = (activeSides indices n depth node).map fun child =>
          forks.map fun fork => fork.side (child.testBit 0) := by
  unfold activeChildren activeSides branchAt
  simp only [List.isSome_idxOf?]
  by_cases hleft : 2 * node ∈ activePrefixes indices n (depth + 1) <;>
    by_cases hright : 2 * node + 1 ∈ activePrefixes indices n (depth + 1) <;>
    simp [hleft, hright, Fork.side]

/-- The nodes that a level corrects, with their branches and states. -/
theorem Separates.zip_branches (h : Separates prg points indices n roots depth growth) :
    (branches indices n depth).zip growth.nodes
      = (activePrefixes indices n depth).map fun node =>
          (branchAt indices n depth node, statesAt prg points growth.levels roots depth node) := by
  rw [branches_eq_map, h.nodes, List.zip_map']

theorem Separates.run_growLevel (hspecial : SpecialIndices indices n points) (hdepth : depth < n)
    (h : Separates prg points indices n roots depth growth) (tape : Tape) :
    ∃ corrections : List SignCorrection, corrections.length = points ∧
      HandlesActive prg points indices n roots depth growth.levels corrections ∧
      ((growLevel prg points (branches indices n depth) growth.nodes).run tape).1
        = (corrections, (activePrefixes indices n (depth + 1)).map
            (statesAt prg points (growth.levels ++ [corrections]) roots (depth + 1))) := by
  obtain ⟨corrections, hcorrects, hrun⟩ :=
    MultiPoint.run_growLevel prg points (branches indices n depth) growth.nodes tape
  have hzip := h.zip_branches
  rw [hzip, List.forall₂_map_left_iff] at hcorrects
  have hlength : (activePrefixes indices n depth).length = corrections.length :=
    hcorrects.length_eq
  refine ⟨_, ?_, ?_, hrun.trans (congrArg _ ?_)⟩
  · have hle : corrections.length ≤ points := hlength ▸ hspecial.length_activePrefixes_le
    rw [List.length_append, List.length_replicate]
    omega
  · intro node hnode
    obtain ⟨point, hpoint⟩ := List.mem_iff_getElem?.mp hnode
    obtain ⟨hlt, hget⟩ := List.getElem?_eq_some_iff.mp hpoint
    have hlt' : point < corrections.length := hlength ▸ hlt
    refine ⟨point, corrections[point],
      Nat.lt_of_lt_of_le (hspecial.position_lt hpoint) hspecial.supported,
      h.active point node hpoint, ?_, ?_⟩
    · rw [List.getElem?_append_left hlt', List.getElem?_eq_getElem hlt']
    · rw [← hget]
      exact hcorrects.get hlt hlt'
  · rw [hzip, activePrefixes_succ hspecial.ascending hdepth, List.map_flatMap, List.flatMap_map]
    refine List.flatMap_congr fun node _ => ?_
    rw [activeChildren_branchAt]
    refine List.map_congr_left fun child hchild => ?_
    rw [statesAt_succ prg points h.length, (mem_activeSides.mp hchild).2]
    rfl

variable {corrections : List SignCorrection}

theorem Separates.active_succ (hspecial : SpecialIndices indices n points) (hdepth : depth < n)
    (h : Separates prg points indices n roots depth growth)
    (hhandles : HandlesActive prg points indices n roots depth growth.levels corrections)
    {point child : Nat}
    (hpoint : (activePrefixes indices n (depth + 1))[point]? = some child) :
    let states := statesAt prg points (growth.levels ++ [corrections]) roots (depth + 1) child
    states.a.control ^^^ states.b.control = SignVector.single point := by
  have hchild : child ∈ activePrefixes indices n (depth + 1) := List.mem_of_getElem? hpoint
  have hcontrol :=
    (hhandles _ (parent_mem_activePrefixes hdepth hchild)).control_level (child.testBit 0)
  rw [side_branchAt_eq_some hspecial.ascending hpoint, ownSign,
    SignVector.single_and_mask (hspecial.position_lt hpoint) hspecial.supported] at hcontrol
  simp only [statesAt_succ prg points h.length]
  exact hcontrol

theorem Separates.inactive_succ (hdepth : depth < n)
    (h : Separates prg points indices n roots depth growth)
    (hhandles : HandlesActive prg points indices n roots depth growth.levels corrections)
    {child : Nat} (hlt : child < domainSize (depth + 1))
    (hchild : child ∉ activePrefixes indices n (depth + 1)) :
    let states := statesAt prg points (growth.levels ++ [corrections]) roots (depth + 1) child
    states.a = states.b := by
  simp only [statesAt_succ prg points h.length]
  by_cases hactive : child / 2 ∈ activePrefixes indices n depth
  · have hnone : (branchAt indices n depth (child / 2)).side (child.testBit 0) = none := by
      rw [side_branchAt, List.idxOf?_eq_none_iff]
      exact hchild
    exact (hhandles _ hactive).level_eq hnone (side_branchAt_ne_none hdepth hactive hchild)
  · have hparent : child / 2 < domainSize depth := by
      rw [domainSize_succ] at hlt
      omega
    -- Equal states have equal children.
    exact congrArg (fun state => (level prg points corrections state).side (child.testBit 0))
      (h.inactive _ hparent hactive)

/-- One more level keeps the invariant, whatever is drawn for it. -/
theorem Separates.step (hspecial : SpecialIndices indices n points) (hdepth : depth < n)
    (h : Separates prg points indices n roots depth growth) (tape : Tape) :
    let next := ((growLevel prg points (branches indices n depth) growth.nodes).run tape).1
    Separates prg points indices n roots (depth + 1) ⟨growth.levels ++ [next.1], next.2⟩ := by
  obtain ⟨corrections, hlength, hhandles, hrun⟩ := h.run_growLevel hspecial hdepth tape
  rw [hrun]
  refine ⟨by simp [h.length], ?_, rfl, ?_, ?_⟩
  · intro level hlevel
    rcases List.mem_append.mp hlevel with hlevel | hlevel
    · exact h.corrections level hlevel
    · rw [List.mem_singleton.mp hlevel]
      exact hlength
  · intro point child hpoint
    exact h.active_succ hspecial hdepth hhandles hpoint
  · intro child hlt hchild
    exact h.inactive_succ hdepth hhandles hlt hchild

/-- **Whatever is drawn, the trees that are grown differ at the active nodes only.** -/
theorem separates_grow (prg : Prg) (roots : Pair Block)
    (hspecial : SpecialIndices indices n points) (hdepth : depth ≤ n) (tape : Tape) :
    Separates prg points indices n roots depth
      ((grow prg points indices n roots depth).run tape).1 := by
  induction depth generalizing tape with
  | zero => exact separates_root hspecial
  | succ depth ih =>
      exact (ih (by omega) tape).step hspecial hdepth
        ((grow prg points indices n roots depth).run tape).2

end PointSharing.MultiPoint
