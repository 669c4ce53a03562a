/-
Sums picked by the bits of a sign vector.

Such a sum runs through the positions of a vector in order and adds an item where the bit
is set.  If adding is self-inverse, a second run with another vector cancels what both
vectors picked, so the two runs together add what the sum of the vectors picks:
`sum_sum`.  With vectors that differ in one bit, the sums differ by the item of that bit.
-/
import Mathlib.Data.List.Nodup
import PointSharing.Proofs.Xor
import PointSharing.SignVector

namespace PointSharing.SignVector

variable {α β : Type} {add : β → α → β} {items : List α}

/-- What one position of a sign vector adds. -/
def step (add : β → α → β) (items : List α) (sign : SignVector) (state : β) (point : Nat) : β :=
  if sign.getLsbD point then
    match items[point]? with
    | some item => add state item
    | none => state
  else state

theorem mem_points {sign : SignVector} {point : Nat} :
    point ∈ sign.points ↔ sign.getLsbD point = true := by
  rw [points, List.mem_filter, List.mem_range]
  exact ⟨And.right, fun hset => ⟨BitVec.lt_of_getLsbD hset, hset⟩⟩

theorem sum_eq_foldl (start : β) (sign : SignVector) :
    sum add start sign items = (List.range maxPoints).foldl (step add items sign) start := by
  unfold sum select points step
  rw [List.foldl_filterMap, List.foldl_filter]
  rfl

/-! ### Two runs -/

theorem step_comm (h : SelfInverse add) (g k : SignVector) (state : β) (i j : Nat) :
    step add items k (step add items g state i) j
      = step add items g (step add items k state j) i := by
  unfold step
  cases items[i]? <;> cases items[j]? <;> by_cases hi : g.getLsbD i = true <;>
    by_cases hj : k.getLsbD j = true <;> simp [hi, hj, h.comm]

theorem step_foldl_comm (h : SelfInverse add) (g k : SignVector) (l : List Nat) (state : β)
    (j : Nat) : step add items k (l.foldl (step add items g) state) j
      = l.foldl (step add items g) (step add items k state j) := by
  induction l generalizing state with
  | nil => rfl
  | cons i l ih => rw [List.foldl_cons, ih, step_comm h, List.foldl_cons]

/-- At one position, two runs add what the sum of the vectors says. -/
theorem step_step (h : SelfInverse add) (g k : SignVector) (state : β) (i : Nat) :
    step add items k (step add items g state i) i = step add items (g ^^^ k) state i := by
  unfold step
  cases items[i]? <;> by_cases hg : g.getLsbD i = true <;>
    by_cases hk : k.getLsbD i = true <;> simp [hg, hk, h.cancel]

theorem foldl_step_foldl_step (h : SelfInverse add) (g k : SignVector) (l : List Nat) (state : β) :
    l.foldl (step add items k) (l.foldl (step add items g) state)
      = l.foldl (step add items (g ^^^ k)) state := by
  induction l generalizing state with
  | nil => rfl
  | cons i l ih =>
      simp only [List.foldl_cons]
      rw [step_foldl_comm h, step_step h, ih]

/-- **Two sums, one after the other, are the sum picked by the sum of the vectors.** -/
theorem sum_sum (h : SelfInverse add) (start : β) (g k : SignVector) :
    sum add (sum add start g items) k items = sum add start (g ^^^ k) items := by
  simp only [sum_eq_foldl]
  exact foldl_step_foldl_step h g k _ start

/-! ### A single bit -/

theorem getLsbD_single {point : Nat} (h : point < maxPoints) (i : Nat) :
    (single point).getLsbD i = (i == point) := by
  have h32 : point < 32 := h
  rw [single, BitVec.getLsbD_twoPow, decide_eq_true h32, Bool.true_and, Bool.beq_eq_decide_eq]
  exact decide_eq_decide.mpr ⟨Eq.symm, Eq.symm⟩

theorem points_single {point : Nat} (h : point < maxPoints) : points (single point) = [point] := by
  unfold points
  rw [List.filter_congr fun i _ => getLsbD_single h i, List.filter_beq,
    List.count_eq_one_of_mem List.nodup_range (List.mem_range.mpr h)]
  rfl

theorem sum_single {point : Nat} {item : α} (h : point < maxPoints)
    (hitem : items[point]? = some item) (start : β) :
    sum add start (single point) items = add start item := by
  simp [sum, select, points_single h, hitem]

/-- Vectors that differ in one bit pick sums that differ by the item of that bit. -/
theorem sum_of_xor_eq_single (h : SelfInverse add) {g k : SignVector} {point : Nat} {item : α}
    (hpoint : point < maxPoints) (hdiff : g ^^^ k = single point)
    (hitem : items[point]? = some item) (start : β) :
    sum add start k items = add (sum add start g items) item := by
  have hk : k = g ^^^ single point := by rw [← hdiff, xor_xor_cancel_left]
  rw [hk, ← sum_sum h, sum_single hpoint hitem]

/-- What holds of two states and is kept by adding to both holds of the sums from them. -/
theorem sum_rel {R : β → β → Prop} (hadd : ∀ x y a, a ∈ items → R x y → R (add x a) (add y a))
    {x y : β} (h : R x y) (sign : SignVector) :
    R (sum add x sign items) (sum add y sign items) := by
  refine List.foldl_rel h ?_
  intro a ha x y hxy
  obtain ⟨point, _, hpoint⟩ := List.mem_filterMap.mp ha
  exact hadd x y a (List.mem_of_getElem? hpoint) hxy

/-- What holds of a state and is kept by adding to it holds of the sums from it. -/
theorem sum_inv {P : β → Prop} (hadd : ∀ x a, a ∈ items → P x → P (add x a)) {x : β} (h : P x)
    (sign : SignVector) : P (sum add x sign items) :=
  sum_rel (R := fun y (_ : β) => P y) (fun y _ a ha hy => hadd y a ha hy) (y := x) h sign

/-- Adding keeps states of a kind that has differences among themselves. -/
theorem sum_closed {kind : β → Prop} {diff : β → β → β} (h : Differences kind add diff) {x : β}
    (hx : kind x) (sign : SignVector) : kind (sum add x sign items) :=
  sum_inv (fun y item _ hy => h.closed y item hy) hx sign

/-- Two states differ by the same after the same has been added to both. -/
theorem sum_same {kind : β → Prop} {diff : β → β → β} (h : Differences kind add diff) {x y : β}
    (hx : kind x) (hy : kind y) (sign : SignVector) :
    diff (sum add x sign items) (sum add y sign items) = diff x y := by
  let Alike : β → β → Prop := fun a b => kind a ∧ kind b ∧ diff a b = diff x y
  have hsum : Alike (sum add x sign items) (sum add y sign items) := by
    refine sum_rel (R := Alike) ?_ ⟨hx, hy, rfl⟩ sign
    intro a b item _ ⟨ha, hb, hab⟩
    exact ⟨h.closed a item ha, h.closed b item hb, (h.same a b item ha hb).trans hab⟩
  exact hsum.2.2

/-- Starting from two states, such sums are the same if the item of the bit is what the states
differ by. -/
theorem sum_eq_sum_of_xor_eq_single [XorOp α] [LawfulXor α] {g k : SignVector} {point : Nat}
    {s t : α} (hpoint : point < maxPoints) (hdiff : g ^^^ k = single point)
    (hitem : items[point]? = some (s ^^^ t)) :
    sum (· ^^^ ·) s g items = sum (· ^^^ ·) t k items := by
  have hcommon : sum (· ^^^ ·) s g items ^^^ sum (· ^^^ ·) t g items = s ^^^ t :=
    sum_same .xor trivial trivial g
  rw [sum_of_xor_eq_single SelfInverse.xor hpoint hdiff hitem, ← hcommon,
    LawfulXor.comm (sum _ s g items), xor_xor_cancel_left]

/-! ### Words of bytes -/

section

variable {d : Nat} {words words' : List Bytes}

theorem length_step (words : List Bytes) (sign : SignVector) {s : Bytes} (hs : s.length = d)
    (point : Nat) : (step Bytes.xor words sign s point).length = d := by
  unfold step
  split
  · split
    · rw [Bytes.length_xor, hs]
    · exact hs
  · exact hs

variable (hcount : words.length = words'.length) (hwords : ∀ word ∈ words, word.length = d)
  (hwords' : ∀ word ∈ words', word.length = d)

include hcount hwords hwords'

theorem xor_step_step (sign : SignVector) {s s' : Bytes} (hs' : s'.length = d) (point : Nat) :
    Bytes.xor (step Bytes.xor words sign s point) (step Bytes.xor words' sign s' point)
      = step Bytes.xor (List.zipWith Bytes.xor words words') sign (Bytes.xor s s') point := by
  unfold step
  by_cases hbit : sign.getLsbD point = true
  · rw [if_pos hbit, if_pos hbit, if_pos hbit]
    by_cases hpoint : point < words.length
    · have hpoint' : point < words'.length := hcount ▸ hpoint
      have hword := hwords words[point] (List.getElem_mem hpoint)
      have hword' := hwords' words'[point] (List.getElem_mem hpoint')
      have hboth : (List.zipWith Bytes.xor words words')[point]?
          = some (Bytes.xor words[point] words'[point]) :=
        List.getElem?_zipWith_eq_some.mpr ⟨_, _, List.getElem?_eq_getElem hpoint,
          List.getElem?_eq_getElem hpoint', rfl⟩
      rw [List.getElem?_eq_getElem hpoint, List.getElem?_eq_getElem hpoint', hboth]
      show Bytes.xor (Bytes.xor s words[point]) (Bytes.xor s' words'[point])
        = Bytes.xor (Bytes.xor s s') (Bytes.xor words[point] words'[point])
      rw [Bytes.xor_assoc (Nat.le_of_eq (hword'.trans hs'.symm)), Bytes.xor_right_comm s,
        Bytes.xor_assoc (Nat.le_of_eq (hword'.trans hword.symm))]
    · have hboth : (List.zipWith Bytes.xor words words').length ≤ point := by
        rw [List.length_zipWith]
        omega
      rw [List.getElem?_eq_none (Nat.le_of_not_lt hpoint),
        List.getElem?_eq_none (hcount ▸ Nat.le_of_not_lt hpoint), List.getElem?_eq_none hboth]
  · rw [if_neg hbit, if_neg hbit, if_neg hbit]

/-- The same bits pick from two lists of words what they pick from the sums of these. -/
theorem xor_sum_sum (sign : SignVector) {s s' : Bytes} (hs' : s'.length = d) :
    Bytes.xor (sign.sum Bytes.xor s words) (sign.sum Bytes.xor s' words')
      = sign.sum Bytes.xor (Bytes.xor s s') (List.zipWith Bytes.xor words words') := by
  simp only [sum_eq_foldl]
  induction List.range maxPoints generalizing s s' with
  | nil => rfl
  | cons point points ih =>
      rw [List.foldl_cons, List.foldl_cons, List.foldl_cons,
        ih (length_step words' sign hs' point), xor_step_step hcount hwords hwords' sign hs' point]

end

/-! ### Masks -/

theorem getLsbD_mask {point : Nat} (h : point < maxPoints) (t : Nat) :
    (mask t).getLsbD point = decide (point < t) := by
  have h32 : point < 32 := h
  unfold mask
  by_cases ht : maxPoints ≤ t
  · rw [if_pos ht, BitVec.getLsbD_allOnes]
    exact decide_eq_decide.mpr ⟨fun _ => Nat.lt_of_lt_of_le h ht, fun _ => h32⟩
  · rw [if_neg ht, BitVec.getLsbD_not, BitVec.getLsbD_shiftLeft, BitVec.getLsbD_allOnes]
    by_cases hp : point < t
    · simp [h32, hp]
    · have hsub : point - t < 32 := by omega
      simp [h32, hp, hsub]

/-- The bit of a point is kept by the mask of more points. -/
theorem single_and_mask {point t : Nat} (hpoint : point < t) (ht : t ≤ maxPoints) :
    single point &&& mask t = single point := by
  have hlt : point < maxPoints := Nat.lt_of_lt_of_le hpoint ht
  apply BitVec.eq_of_getLsbD_eq
  intro i _
  rw [BitVec.getLsbD_and, getLsbD_single hlt]
  by_cases hi : i = point
  · subst hi
    rw [getLsbD_mask hlt, decide_eq_true hpoint, Bool.and_true]
  · simp [hi]

theorem xor_and (g k m : SignVector) : (g ^^^ k) &&& m = (g &&& m) ^^^ (k &&& m) := by
  apply BitVec.eq_of_getLsbD_eq
  intro i _
  simp only [BitVec.getLsbD_and, BitVec.getLsbD_xor, Bool.and_xor_distrib_right]

/-! ### Bounds -/

/-- No bit is set but those of the first `points` points. -/
def Within (sign : SignVector) (points : Nat) : Prop :=
  ∀ point, sign.getLsbD point = true → point < points

/-- Every set bit has an item, so that none is passed over when items are selected. -/
def FindsAll (sign : SignVector) (items : List α) : Prop :=
  ∀ point ∈ sign.points, ∃ item, items[point]? = some item

theorem within_and_mask (sign : SignVector) (t : Nat) : Within (sign &&& mask t) t := by
  intro point hpoint
  have hlt : point < maxPoints := BitVec.lt_of_getLsbD hpoint
  rw [BitVec.getLsbD_and, getLsbD_mask hlt, Bool.and_eq_true, decide_eq_true_iff] at hpoint
  exact hpoint.2

variable {sign : SignVector} {t : Nat}

theorem Within.toNat_lt (h : sign.Within t) : sign.toNat < 1 <<< t := by
  rw [Nat.one_shiftLeft]
  refine Nat.lt_pow_two_of_testBit _ fun point hle => ?_
  rw [BitVec.testBit_toNat, ← Bool.not_eq_true]
  exact fun hset => Nat.not_lt.mpr hle (h point hset)

theorem Within.findsAll (h : sign.Within t) (hitems : items.length = t) : sign.FindsAll items := by
  intro point hpoint
  have hset : sign.getLsbD point = true := (List.mem_filter.mp hpoint).2
  exact ⟨_, List.getElem?_eq_getElem (hitems ▸ h point hset)⟩

end PointSharing.SignVector
