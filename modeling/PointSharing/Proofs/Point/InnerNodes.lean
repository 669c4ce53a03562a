/-
What the keys of a function with one special point lead to at every node.

Generation goes down a single path and holds two states at a time; the parties go down every path.
What they have to do with each other at some depth is the invariant of the tree, applied to the
beginning of the special path that is as long: growing along a path is growing along a beginning of
it first, so the states that generation holds in between are those of a shorter path that it has
grown to the end.
-/
import PointSharing.Proofs.InnerNodes
import PointSharing.Proofs.Serialization

namespace PointSharing.Point

/-! ### Stopping on the way down -/

/-- To grow along a path is to grow along its beginning, and along the rest from there. -/
theorem grow_append (prg : Prg) (path rest : List Bool) (nodes : Pair (Node Bool)) :
    grow prg (path ++ rest) nodes =
      let before := grow prg path nodes
      let after := grow prg rest before.2
      (before.1 ++ after.1, after.2) := by
  induction path generalizing nodes with
  | nil => rfl
  | cons right path ih =>
      rw [List.cons_append, grow_cons, grow_cons]
      simp only [ih, List.cons_append]

namespace Shares

variable {prg : Prg} {shares : Shares} {path : List Bool} {depth n d : Nat}
  {held : Pair (Node Bool)}

/-- The states that generation holds after some levels of a path: those that the first corrections
were made for, and that the other corrections and the leaves are made from. -/
structure HeldAt (prg : Prg) (path : List Bool) (shares : Shares) (depth : Nat)
    (held : Pair (Node Bool)) : Prop where
  /-- The first levels end with these states. -/
  before : grow prg (path.take depth) (rootNodes shares.roots)
    = (shares.corrections.take depth, held)
  /-- The other levels begin with them. -/
  after : grow prg (path.drop depth) held = (shares.corrections.drop depth, shares.leaves)

theorem corrections_ofRoots (prg : Prg) (roots : Pair Block) (path : List Bool) (data : Bytes) :
    (ofRoots prg roots path data).corrections = (grow prg path (rootNodes roots)).1 := rfl

theorem leaves_ofRoots (prg : Prg) (roots : Pair Block) (path : List Bool) (data : Bytes) :
    (ofRoots prg roots path data).leaves = (grow prg path (rootNodes roots)).2 := rfl

theorem exists_heldAt (prg : Prg) (roots : Pair Block) (path : List Bool) (data : Bytes)
    {depth : Nat} (h : depth ≤ path.length) :
    ∃ held, HeldAt prg path (ofRoots prg roots path data) depth held := by
  let before := grow prg (path.take depth) (rootNodes roots)
  let after := grow prg (path.drop depth) before.2
  have hlength : before.1.length = depth :=
    (length_grow prg _ _).trans (List.length_take_of_le h)
  have hgrow : grow prg (path.take depth ++ path.drop depth) (rootNodes roots)
      = (before.1 ++ after.1, after.2) := grow_append prg _ _ _
  rw [List.take_append_drop] at hgrow
  have hcorrections : (ofRoots prg roots path data).corrections = before.1 ++ after.1 := by
    rw [corrections_ofRoots, hgrow]
  have hleaves : (ofRoots prg roots path data).leaves = after.2 := by
    rw [leaves_ofRoots, hgrow]
  refine ⟨before.2, ?_, ?_⟩
  · rw [hcorrections, List.take_left' hlength]
    rfl
  · rw [hcorrections, hleaves, List.drop_left' hlength]

/-- After all levels, generation holds the leaves. -/
theorem HeldAt.eq_leaves (h : HeldAt prg path shares depth held) (hdepth : path.length ≤ depth) :
    held = shares.leaves := by
  have hafter := h.after
  rw [List.drop_of_length_le hdepth] at hafter
  exact congrArg Prod.snd hafter

/-! ### The states of the parties -/

theorem stateAt_parts (correction : Tag) (party : Party) (depth node : Nat) :
    ((shares.parts correction party).evaluator prg n d).stateAt depth node
      = (statesAt prg (shares.corrections.take depth) (nodePath depth node)
          (rootNodes shares.roots)).get party := by
  cases party
  · exact congrArg (fun levels => Tree.descend levels _ _) List.map_take.symm
  · exact congrArg (fun levels => Tree.descend levels _ _) List.map_take.symm

/-- The beginning of the special path leads to the states that generation holds. -/
theorem HeldAt.statesAt_eq (h : HeldAt prg path shares depth held) :
    statesAt prg (shares.corrections.take depth) (path.take depth) (rootNodes shares.roots)
      = held := by
  have hgrown := statesAt_grow prg (path.take depth) (rootNodes shares.roots)
  rwa [h.before] at hgrown

theorem HeldAt.opposed (h : HeldAt prg path shares depth held) : Opposed held := by
  have hgrown := opposed_grow prg (opposed_rootNodes shares.roots) (path.take depth)
  rwa [h.before] at hgrown

/-- Every other path that is as long leads both parties to the same state. -/
theorem HeldAt.statesAt_other (h : HeldAt prg path shares depth held) {other : List Bool}
    (hlength : other.length = (path.take depth).length) (hne : other ≠ path.take depth) :
    (statesAt prg (shares.corrections.take depth) other (rootNodes shares.roots)).a
      = (statesAt prg (shares.corrections.take depth) other (rootNodes shares.roots)).b := by
  have hgrown := statesAt_eq_of_ne prg (opposed_rootNodes shares.roots) hlength hne
  rwa [h.before] at hgrown

end Shares

variable {index : UInt64} {n d : Nat} {data : Bytes}

/-- A node lies on the special path exactly if its path is the beginning of the special one. -/
theorem nodePath_eq_take_path_iff {depth node : Nat} (hindex : index.toNat < domainSize n)
    (hdepth : depth ≤ n) (hnode : node < domainSize depth) :
    nodePath depth node = (path index n).take depth ↔ node = index.toNat >>> (n - depth) := by
  rw [path_eq_nodePath, take_nodePath hdepth]
  refine ⟨nodePath_injective hnode ?_, congrArg (nodePath depth)⟩
  rw [← shiftRight_eq_zero_iff, ← Nat.shiftRight_add, Nat.sub_add_cancel hdepth,
    shiftRight_eq_zero_iff]
  exact hindex

/-- **At every node above or at a leaf, what two generated keys lead to is opposed and what
generation holds there, if the special index lies below the node, and the same for both if not.**
The states that are held after the last level are the leaves that mask the payload. -/
theorem states_of_generate {prg : Prg} {tape rest : Tape} {keys : Pair Key}
    (h : (generate prg index n d data).runOn tape = (.ok keys, rest)) :
    ∃ shares a b, (Shares.draw prg index n d data).runOn tape = (.ok shares, rest) ∧
      keys.a.parse false = .ok a ∧ keys.b.parse false = .ok b ∧
      a.payload = Bytes.xor (Bytes.xor data (prg.leafMask shares.leaves.a.seed d))
        (prg.leafMask shares.leaves.b.seed d) ∧
      b.payload = a.payload ∧
      ∀ depth ≤ n, ∃ held, shares.HeldAt prg (path index n) depth held ∧
        (depth = n → held = shares.leaves) ∧
        ∀ node < domainSize depth,
          let states : Pair (Node Bool) := ⟨(a.evaluator prg n d).stateAt depth node,
            (b.evaluator prg n d).stateAt depth node⟩
          (node = index.toNat >>> (n - depth) → Opposed states ∧ states = held) ∧
          (node ≠ index.toNat >>> (n - depth) → states.a = states.b) := by
  obtain ⟨⟨-, hd, hindex⟩, -, -, -⟩ :=
    (Shares.runOn_draw_toKeys_eq_ok_iff fun _ => none).mp h
  let shares := Shares.ofTape prg index n data tape
  have hwritten : shares.WrittenTo none n d _ keys := Shares.writtenTo (fun _ => none) h
  refine ⟨shares, _, _, Shares.runOn_draw (fun _ => none) h, hwritten.parse .a,
    hwritten.parse .b, ?_, rfl, ?_⟩
  · rw [← hd]
    rfl
  · intro depth hdepth
    have hpath : (path index n).length = n := length_path index n
    obtain ⟨held, hheld⟩ : ∃ held, shares.HeldAt prg (path index n) depth held :=
      Shares.exists_heldAt prg shares.roots (path index n) data (hpath.symm ▸ hdepth)
    refine ⟨held, hheld, fun hlast => hheld.eq_leaves (by rw [hpath, hlast]), ?_⟩
    intro node hnode states
    have hstates : states = statesAt prg (shares.corrections.take depth) (nodePath depth node)
        (Shares.rootNodes shares.roots) :=
      (Pair.mk.injEq ..).mpr ⟨Shares.stateAt_parts Tag.zero .a depth node,
        Shares.stateAt_parts Tag.zero .b depth node⟩
    have honpath := nodePath_eq_take_path_iff hindex hdepth hnode
    rw [hstates]
    refine ⟨fun hspecial => ?_, fun hother => ?_⟩
    · rw [honpath.mpr hspecial, hheld.statesAt_eq]
      exact ⟨hheld.opposed, rfl⟩
    · refine hheld.statesAt_other ?_ fun heq => hother (honpath.mp heq)
      rw [length_nodePath, List.length_take, hpath, Nat.min_eq_left hdepth]

/-- With four indices: at depth one the special path leads to the right, and at depth two to the
left. -/
theorem states_of_generate_two_bits :
    ∃ keys rest a b, (generate (.ofBlock 0) 2 2 1 [7]).runOn (.ofBytes []) = (.ok keys, rest) ∧
      keys.a.parse false = .ok a ∧ keys.b.parse false = .ok b ∧
      let treeA := a.evaluator (.ofBlock 0) 2 1
      let treeB := b.evaluator (.ofBlock 0) 2 1
      Opposed ⟨treeA.stateAt 1 1, treeB.stateAt 1 1⟩ ∧ treeA.stateAt 1 0 = treeB.stateAt 1 0 ∧
        Opposed ⟨treeA.stateAt 2 2, treeB.stateAt 2 2⟩ ∧ treeA.stateAt 2 3 = treeB.stateAt 2 3 := by
  have hrun : (generate (.ofBlock 0) 2 2 1 [7]).runOn (.ofBytes []) = (.ok _, _) :=
    (Shares.runOn_draw_toKeys_eq_ok_iff fun _ => none).mpr
      ⟨⟨by decide, rfl, by decide⟩, by decide, rfl, rfl⟩
  obtain ⟨shares, a, b, -, ha, hb, -, -, hstates⟩ := states_of_generate hrun
  obtain ⟨_, -, -, hone⟩ := hstates 1 (by decide)
  obtain ⟨_, -, -, htwo⟩ := hstates 2 (by decide)
  exact ⟨_, _, a, b, hrun, ha, hb, ((hone 1 (by decide)).1 (by decide)).1,
    (hone 0 (by decide)).2 (by decide), ((htwo 2 (by decide)).1 (by decide)).1,
    (htwo 3 (by decide)).2 (by decide)⟩

end PointSharing.Point
