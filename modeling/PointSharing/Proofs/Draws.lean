/-
Running a computation that draws.

`Draws.runOn` is what a computation gives on a tape, together with the tape it leaves.
One equation for each way in which such computations are put together is enough to take
one apart from the outside, step by step.

`Tape.Took` says which blocks a computation has taken.  What two computations take one after
the other is one after the other on the tape, and a list of computations of which only some
take a block takes just the blocks of those.
-/
import Mathlib.Data.List.Forall2
import PointSharing.Tape

namespace PointSharing

namespace Draws

variable {α β : Type}

/-- The outcome of a computation on a tape, and the tape after it. -/
def runOn (draws : Draws α) (tape : Tape) : Except Error α × Tape := (ExceptT.run draws).run tape

@[simp] theorem runOn_pure (a : α) (tape : Tape) :
    runOn (pure a : Draws α) tape = (.ok a, tape) := rfl

/-- A check or a computation that draws nothing leaves the tape alone. -/
@[simp] theorem runOn_liftExcept (x : Except Error α) (tape : Tape) :
    runOn (liftM x : Draws α) tape = (x, tape) := rfl

/-- A computation that only draws cannot be refused. -/
@[simp] theorem runOn_liftState (x : StateM Tape α) (tape : Tape) :
    runOn (liftM x : Draws α) tape = (.ok (x.run tape).1, (x.run tape).2) := rfl

theorem runOn_bind (x : Draws α) (f : α → Draws β) (tape : Tape) :
    runOn (x >>= f) tape = match runOn x tape with
      | (.ok a, rest) => runOn (f a) rest
      | (.error e, rest) => (.error e, rest) := by
  show (ExceptT.bindCont f (ExceptT.run x tape).1) (ExceptT.run x tape).2 = _
  rcases h : ExceptT.run x tape with ⟨_ | a, rest⟩
  · simp only [runOn, StateT.run, h]
    rfl
  · simp only [runOn, StateT.run, h]
    rfl

end Draws

namespace Tape

@[simp] theorem run_draw (tape : Tape) :
    draw.run tape = (tape.block tape.drawn, { tape with drawn := tape.drawn + 1 }) := rfl

/-- What holds of every single outcome, wherever on the tape it is computed, holds of the outcomes
for a list. -/
theorem forall₂_run_mapM {α β : Type} {R : α → β → Prop} {f : α → StateM Tape β} {l : List α}
    (h : ∀ x ∈ l, ∀ tape, R x ((f x).run tape).1) (tape : Tape) :
    List.Forall₂ R l ((l.mapM f).run tape).1 := by
  induction l generalizing tape with
  | nil => exact .nil
  | cons x l ih =>
      rw [List.mapM_cons]
      exact .cons (h x (by simp) tape) (ih (fun y hy => h y (by simp [hy])) _)

theorem length_run_mapM {α β : Type} (f : α → StateM Tape β) (l : List α) (tape : Tape) :
    ((l.mapM f).run tape).1.length = l.length :=
  (forall₂_run_mapM (R := fun _ _ => True) (fun _ _ _ => trivial) tape).length_eq.symm

/-- On tapes on which every item of a list has a certain outcome, and which the computations leave as
such tapes, these are the outcomes for the list. -/
theorem run_mapM_eq_map {α β : Type} {P : Tape → Prop} {f : α → StateM Tape β} {g : α → β}
    {l : List α}
    (h : ∀ x ∈ l, ∀ tape, P tape → ((f x).run tape).1 = g x ∧ P ((f x).run tape).2) {tape : Tape}
    (htape : P tape) :
    ((l.mapM f).run tape).1 = l.map g ∧ P ((l.mapM f).run tape).2 := by
  induction l generalizing tape with
  | nil => exact ⟨rfl, htape⟩
  | cons x l ih =>
      obtain ⟨hhead, hmid⟩ := h x (by simp) tape htape
      obtain ⟨htail, hrest⟩ := ih (fun y hy => h y (by simp [hy])) hmid
      rw [List.mapM_cons]
      refine ⟨?_, hrest⟩
      show ((f x).run tape).1 :: ((l.mapM f).run ((f x).run tape).2).1 = g x :: l.map g
      rw [hhead, htail]

/-! ### What was taken -/

/-- The tape after `count` more blocks have been taken. -/
def skip (tape : Tape) (count : Nat) : Tape := { tape with drawn := tape.drawn + count }

/-- The next `count` blocks of a tape. -/
def next (tape : Tape) (count : Nat) : List Block :=
  (List.range count).map fun i => tape.block (tape.drawn + i)

theorem skip_skip (tape : Tape) (m n : Nat) : (tape.skip m).skip n = tape.skip (m + n) := by
  simp only [skip, Nat.add_assoc]

theorem next_add (tape : Tape) (m n : Nat) :
    tape.next (m + n) = tape.next m ++ (tape.skip m).next n := by
  simp only [next, List.range_add, List.map_append, List.map_map, skip]
  rw [List.append_cancel_left_eq]
  refine List.map_congr_left fun i _ => ?_
  simp only [Function.comp, Nat.add_assoc]

/-- Just these blocks were taken, in this order, and `rest` is what is left of the tape. -/
def Took (tape : Tape) (blocks : List Block) (rest : Tape) : Prop :=
  blocks = tape.next blocks.length ∧ rest = tape.skip blocks.length

theorem Took.nil (tape : Tape) : tape.Took [] tape := ⟨rfl, rfl⟩

theorem took_draw (tape : Tape) : tape.Took [(draw.run tape).1] (draw.run tape).2 := ⟨rfl, rfl⟩

theorem Took.append {tape mid rest : Tape} {first second : List Block}
    (hfirst : tape.Took first mid) (hsecond : mid.Took second rest) :
    tape.Took (first ++ second) rest := by
  obtain ⟨hfirst, rfl⟩ := hfirst
  obtain ⟨hsecond, rfl⟩ := hsecond
  refine ⟨?_, ?_⟩
  · rw [List.length_append, next_add, ← hfirst, ← hsecond]
  · rw [skip_skip, List.length_append]

/-- If a computation takes a block for some items of a list and none for the others, a list of them
takes the blocks of those items in the order of the list. -/
theorem took_run_mapM {α β : Type} {f : α → StateM Tape β} {draws : α → Bool} {block : β → Block}
    (h : ∀ x (tape : Tape), tape.Took (if draws x then [block ((f x).run tape).1] else [])
      ((f x).run tape).2) (l : List α) (tape : Tape) :
    tape.Took (((l.zip ((l.mapM f).run tape).1).filter fun place => draws place.1).map
      fun place => block place.2) ((l.mapM f).run tape).2 := by
  induction l generalizing tape with
  | nil => exact Took.nil tape
  | cons x l ih =>
      have hhead := h x tape
      have htail := ih ((f x).run tape).2
      rw [List.mapM_cons]
      show tape.Took ((((x, ((f x).run tape).1)
        :: l.zip ((l.mapM f).run ((f x).run tape).2).1).filter _).map _)
        ((l.mapM f).run ((f x).run tape).2).2
      cases hdraws : draws x with
      | true =>
          rw [hdraws] at hhead
          rw [List.filter_cons_of_pos (by simpa using hdraws)]
          exact hhead.append htail
      | false =>
          rw [hdraws] at hhead
          rw [List.filter_cons_of_neg (by simp [hdraws])]
          exact hhead.append htail

end Tape

end PointSharing
