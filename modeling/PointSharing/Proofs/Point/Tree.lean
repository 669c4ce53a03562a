/-
The two trees of a function with one special point.

The parties' states are related in one of two ways.  Off the special path they are the same,
and stay the same whatever the corrections are, because each state determines its children.
On the path their control bits are opposite, so exactly one party applies the correction,
and the correction is made such that the child which the path leaves becomes the same for
both while the child on the path keeps opposite bits.

The induction is on the path.  It carries both facts at once: where the path itself leads,
and what happens on every other path of the same length, which leaves it at some level.
-/
import PointSharing.Point.Shares
import PointSharing.Proofs.Tree
import PointSharing.Proofs.Xor

namespace PointSharing.Point

/-! ### One level -/

/-- The control bits of the two parties differ. -/
def Opposed (nodes : Pair (Node Bool)) : Prop := nodes.b.control = !nodes.a.control

theorem correctionFor_swap (f g : Fork (Node Bool)) (right : Bool) :
    correctionFor ⟨g, f⟩ right = correctionFor ⟨f, g⟩ right := by
  have hside : ∀ s, ((g ^^^ f).side s).seed = ((f ^^^ g).side s).seed := by
    intro s
    cases s <;> exact LawfulXor.comm _ _
  unfold correctionFor
  simp only [hside, Fork.left_xor, Fork.right_xor, Node.control_xor]
  rw [LawfulXor.comm g.left.control, LawfulXor.comm g.right.control]

/-- Corrected, the child that the path leaves is the other party's. -/
theorem lost_eq (f g : Fork (Node Bool)) (right : Bool) :
    (f ^^^ (correctionFor ⟨f, g⟩ right).toFork).side (!right) = g.side (!right) := by
  cases right
  · show Node.mk (f.right.seed ^^^ (f.right.seed ^^^ g.right.seed))
      (f.right.control ^^^ (f.right.control ^^^ g.right.control ^^^ false)) = g.right
    simp only [xor_bool, Bool.xor_false]
    rw [xor_xor_cancel_left]
    exact congrArg _ (xor_xor_cancel_left f.right.control g.right.control)
  · show Node.mk (f.left.seed ^^^ (f.left.seed ^^^ g.left.seed))
      (f.left.control ^^^ (f.left.control ^^^ g.left.control ^^^ false)) = g.left
    simp only [xor_bool, Bool.xor_false]
    rw [xor_xor_cancel_left]
    exact congrArg _ (xor_xor_cancel_left f.left.control g.left.control)

/-- Corrected, the child on the path has the other party's bit turned over. -/
theorem kept_control (f g : Fork (Node Bool)) (right : Bool) :
    ((f ^^^ (correctionFor ⟨f, g⟩ right).toFork).side right).control
      = !(g.side right).control := by
  cases right
  · show (f.left.control ^^^ (f.left.control ^^^ g.left.control ^^^ true)) = !g.left.control
    cases f.left.control <;> cases g.left.control <;> rfl
  · show (f.right.control ^^^ (f.right.control ^^^ g.right.control ^^^ true)) = !g.right.control
    cases f.right.control <;> cases g.right.control <;> rfl

variable (prg : Prg)

/-- The correction for a pair of states on the special path. -/
def correctionAt (nodes : Pair (Node Bool)) (right : Bool) : BitCorrection :=
  correctionFor (nodes.map fun node => prg.expand node.seed) right

/-- Below opposite control bits the child off the path is the same for both parties. -/
theorem level_lost {nodes : Pair (Node Bool)} (h : Opposed nodes) (right : Bool) :
    (level prg (correctionAt prg nodes right) nodes.a).side (!right)
      = (level prg (correctionAt prg nodes right) nodes.b).side (!right) := by
  unfold Opposed at h
  unfold level
  cases ha : nodes.a.control
  · rw [ha] at h
    simp only [h, Bool.not_false, if_true, Bool.false_eq_true, if_false]
    rw [correctionAt, Pair.map, ← correctionFor_swap, lost_eq]
  · rw [ha] at h
    simp only [h, Bool.not_true, if_true, Bool.false_eq_true, if_false]
    rw [correctionAt, Pair.map, lost_eq]

/-- Below opposite control bits the child on the path has opposite control bits. -/
theorem level_kept {nodes : Pair (Node Bool)} (h : Opposed nodes) (right : Bool) :
    Opposed (nodes.map fun node => (level prg (correctionAt prg nodes right) node).side right) := by
  unfold Opposed at h
  unfold Opposed level Pair.map
  cases ha : nodes.a.control
  · rw [ha] at h
    simp only [ha, h, Bool.not_false, if_true, Bool.false_eq_true, if_false]
    rw [correctionAt, Pair.map, ← correctionFor_swap, kept_control]
  · rw [ha] at h
    simp only [ha, h, Bool.not_true, if_true, Bool.false_eq_true, if_false]
    rw [correctionAt, Pair.map, kept_control, Bool.not_not]

/-! ### A whole path -/

theorem grow_cons (right : Bool) (path : List Bool) (nodes : Pair (Node Bool)) :
    grow prg (right :: path) nodes =
      let correction := correctionAt prg nodes right
      let next := nodes.map fun node => (level prg correction node).side right
      (correction :: (grow prg path next).1, (grow prg path next).2) := rfl

@[simp] theorem length_grow (path : List Bool) (nodes : Pair (Node Bool)) :
    (grow prg path nodes).1.length = path.length := by
  induction path generalizing nodes with
  | nil => rfl
  | cons right path ih => rw [grow_cons, List.length_cons, List.length_cons, ih]

/-- Where a path leads both parties with the corrections that were made for another. -/
def statesAt (corrections : List BitCorrection) (path : List Bool) (nodes : Pair (Node Bool)) :
    Pair (Node Bool) :=
  nodes.map (Tree.descend (corrections.map (level prg)) path)

/-- The special path leads to the states that generation ends with. -/
theorem statesAt_grow (path : List Bool) (nodes : Pair (Node Bool)) :
    statesAt prg (grow prg path nodes).1 path nodes = (grow prg path nodes).2 := by
  induction path generalizing nodes with
  | nil => rfl
  | cons right path ih =>
      rw [grow_cons]
      exact ih _

theorem opposed_grow {nodes : Pair (Node Bool)} (h : Opposed nodes) (path : List Bool) :
    Opposed (grow prg path nodes).2 := by
  induction path generalizing nodes with
  | nil => exact h
  | cons right path ih =>
      rw [grow_cons]
      exact ih (level_kept prg h right)

/-- **Every other path leads both parties to the same state.** -/
theorem statesAt_eq_of_ne {nodes : Pair (Node Bool)} (h : Opposed nodes) {path other : List Bool}
    (hlength : other.length = path.length) (hne : other ≠ path) :
    (statesAt prg (grow prg path nodes).1 other nodes).a
      = (statesAt prg (grow prg path nodes).1 other nodes).b := by
  induction path generalizing nodes other with
  | nil => exact absurd (List.length_eq_zero_iff.mp hlength) hne
  | cons right path ih =>
      cases other with
      | nil => simp at hlength
      | cons turn other =>
          rw [grow_cons]
          by_cases hturn : turn = right
          · subst hturn
            exact ih (level_kept prg h turn) (by simpa using hlength) (by simpa using hne)
          · -- The two paths part here, below this level the states are equal.
            have hlost : turn = !right := by cases turn <;> cases right <;> simp_all
            subst hlost
            exact congrArg _ (level_lost prg h right)

end PointSharing.Point
