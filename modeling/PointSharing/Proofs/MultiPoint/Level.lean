/-
One level of the tree of a function with several special points.

What is asked of the correction for an active node is `Corrects`: the sign vectors of a
child differ in the bit of the child's position, or not at all, and the child that is not
active next to one that is gets the same seed for both parties.  A block that is drawn for
two active children is as good as any other, so `Corrects` holds on every tape.

At an active node the parties' sign vectors differ in one bit, so the sums that they select
differ by the correction of that bit.  Whatever else the vectors select is added by both.
-/
import PointSharing.MultiPoint.Shares
import PointSharing.Proofs.Draws
import PointSharing.Proofs.MultiPoint.ActivePrefixes
import PointSharing.Proofs.SignVector

namespace PointSharing.MultiPoint

/-! ### Corrections -/

/-- What the correction for an active node has to do, given what its parties expand to. -/
structure Corrects (branch : Branch) (forks : Pair (Fork (Node SignVector)))
    (correction : SignCorrection) : Prop where
  /-- The sign vectors of each child are made to differ in its own bit. -/
  control : ∀ right, (correction.toFork.side right).control
    = (forks.a.side right).control ^^^ (forks.b.side right).control
      ^^^ ownSign (branch.side right)
  /-- The seeds of a child that is not active are made equal. -/
  seed : ∀ right, branch.side right = none → branch.side (!right) ≠ none →
    correction.seed = (forks.a.side right).seed ^^^ (forks.b.side right).seed

theorem corrects_correctionFor (branch : Branch) (forks : Pair (Fork (Node SignVector)))
    (tape : Tape) : Corrects branch forks ((correctionFor branch forks).run tape).1 := by
  refine ⟨?_, ?_⟩
  · intro right
    unfold correctionFor
    cases right <;> split <;> rfl
  · intro right hnone hother
    have hsplit : branch.isSplit = false := by
      unfold Branch.isSplit
      cases right
      · rw [show branch.left = none from hnone]
        rfl
      · rw [show branch.right = none from hnone, Option.isSome_none, Bool.and_false]
    have hlost : branch.left.isSome = right := by
      cases right
      · rw [show branch.left = none from hnone]
        rfl
      · exact Option.isSome_iff_ne_none.mpr hother
    unfold correctionFor
    rw [hsplit, hlost]
    cases right <;> rfl

/-! ### The children of an active node -/

section

variable (prg : Prg) (points : Nat) (corrections : List SignCorrection)

/-- What both parties' states expand to. -/
def forksOf (nodes : Pair (Node SignVector)) : Pair (Fork (Node SignVector)) :=
  nodes.map fun node => prg.expandSigns points node.seed

theorem side_level (node : Node SignVector) (right : Bool) :
    (level prg points corrections node).side right =
      let child := (prg.expandSigns points node.seed).side right
      let correction :=
        (SignCorrection.selected corrections node.control).toFork.side right
      ⟨child.seed ^^^ correction.seed,
        (child.control ^^^ correction.control) &&& SignVector.mask points⟩ := by
  cases right <;> rfl

/-- The sign vectors of the parties differ in one bit, and the correction of that bit does at their
node what the branch asks for. -/
def Handles (branch : Branch) (nodes : Pair (Node SignVector)) : Prop :=
  ∃ point correction, point < maxPoints ∧
    nodes.a.control ^^^ nodes.b.control = SignVector.single point ∧
    corrections[point]? = some correction ∧ Corrects branch (forksOf prg points nodes) correction

end

variable {prg : Prg} {points : Nat} {corrections : List SignCorrection} {branch : Branch}
  {nodes : Pair (Node SignVector)}

/-- Vectors that differ in one bit select sums that differ by the correction of that bit. -/
theorem Handles.selected_eq (h : Handles prg points corrections branch nodes) :
    ∃ correction, Corrects branch (forksOf prg points nodes) correction ∧
      SignCorrection.selected corrections nodes.b.control
        = SignCorrection.selected corrections nodes.a.control ^^^ correction := by
  obtain ⟨point, correction, hpoint, hdiff, hcorrection, hcorrects⟩ := h
  exact ⟨correction, hcorrects, SignVector.sum_of_xor_eq_single SelfInverse.xor hpoint hdiff
    hcorrection SignCorrection.zero⟩

theorem toFork_side_xor (c d : SignCorrection) (right : Bool) :
    (c ^^^ d).toFork.side right = c.toFork.side right ^^^ d.toFork.side right := by
  cases right <;> rfl

theorem seed_toFork_side (c : SignCorrection) (right : Bool) :
    (c.toFork.side right).seed = c.seed := by
  cases right <;> rfl

/-- Below an active node the sign vectors of a child differ in the child's own bit. -/
theorem Handles.control_level (h : Handles prg points corrections branch nodes) (right : Bool) :
    ((level prg points corrections nodes.a).side right).control
        ^^^ ((level prg points corrections nodes.b).side right).control
      = ownSign (branch.side right) &&& SignVector.mask points := by
  obtain ⟨correction, hcorrects, hselected⟩ := h.selected_eq
  simp only [side_level, hselected, toFork_side_xor, Node.control_xor]
  rw [← SignVector.xor_and, hcorrects.control]
  exact congrArg (· &&& SignVector.mask points) (xor_xor_correction _ _ _ _)

/-- Below an active node a child that is not active is the same for both parties. -/
theorem Handles.level_eq (h : Handles prg points corrections branch nodes) {right : Bool}
    (hnone : branch.side right = none) (hother : branch.side (!right) ≠ none) :
    (level prg points corrections nodes.a).side right
      = (level prg points corrections nodes.b).side right := by
  have hcontrol := h.control_level right
  rw [hnone, show ownSign none &&& SignVector.mask points = 0#32 from BitVec.zero_and,
    BitVec.xor_eq_zero_iff] at hcontrol
  have hseed : ((level prg points corrections nodes.a).side right).seed
      = ((level prg points corrections nodes.b).side right).seed := by
    obtain ⟨correction, hcorrects, hselected⟩ := h.selected_eq
    simp only [side_level, hselected, toFork_side_xor, Node.seed_xor, seed_toFork_side,
      hcorrects.seed right hnone hother]
    exact (xor_correction _ _ _).symm
  exact (Node.mk.injEq ..).mpr ⟨hseed, hcontrol⟩

/-! ### A whole level -/

/-- The level has a correction for every active node, and zeros for the remaining points. -/
theorem run_growLevel (prg : Prg) (points : Nat) (branches : List Branch)
    (nodes : List (Pair (Node SignVector))) (tape : Tape) :
    ∃ corrections : List SignCorrection,
      List.Forall₂
        (fun place correction => Corrects place.1 (forksOf prg points place.2) correction)
        (branches.zip nodes) corrections ∧
      let padded :=
        corrections ++ List.replicate (points - corrections.length) SignCorrection.zero
      ((growLevel prg points branches nodes).run tape).1
        = (padded, (branches.zip nodes).flatMap fun place =>
            activeChildren place.1 (place.2.map (level prg points padded))) := by
  refine ⟨_, Tape.forall₂_run_mapM (fun place _ tape => ?_) tape, rfl⟩
  exact corrects_correctionFor place.1 (forksOf prg points place.2) tape

end PointSharing.MultiPoint
