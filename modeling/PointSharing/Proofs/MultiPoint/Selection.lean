/-
Selecting by the bits of a sign vector is linear.

The corrections of a level, the payload words and the proof corrections are selected in one way: the
points whose bits are set are gone through, the lowest first, and the item of each is added, or
nothing if there is none.  What is selected is the difference between the state after that and the
state before.

Each point adds a word of its own to this difference, whatever was added before: a point without an
item adds zero.  What two vectors select so adds up to what their sum selects, as the points that
both have are added twice, and cancel.  If vectors differ in one bit, what they select differs by the
word of its point.
-/
import PointSharing.MultiPoint.Verified
import PointSharing.Proofs.LowestBit
import PointSharing.Proofs.MultiPoint.Lookups
import PointSharing.Proofs.Verification.Tag

namespace PointSharing

namespace SignVector

/-! ### Vectors that differ in one bit -/

/-- The bit of one point is set in one of the vectors and not in the other, and all other bits are
the same. -/
def DifferAt (g k : SignVector) (point : Nat) : Prop :=
  ∀ i, g.getLsbD i ≠ k.getLsbD i ↔ i = point

theorem differAt_iff {g k : SignVector} {point : Nat} :
    g.DifferAt k point ↔ point < maxPoints ∧ g ^^^ k = single point := by
  have hbits : g.DifferAt k point ↔ ∀ i, (g ^^^ k).getLsbD i = (i == point) := by
    refine forall_congr' fun i => ?_
    rw [BitVec.getLsbD_xor, Bool.eq_iff_iff, bne_iff_ne, beq_iff_eq]
  rw [hbits]
  constructor
  · intro h
    have hlt : point < maxPoints := BitVec.lt_of_getLsbD ((h point).trans (beq_self_eq_true point))
    refine ⟨hlt, BitVec.eq_of_getLsbD_eq fun i _ => ?_⟩
    rw [h, getLsbD_single hlt]
  · rintro ⟨hlt, hdiff⟩ i
    rw [hdiff, getLsbD_single hlt]

instance instDecidableDifferAt (g k : SignVector) (point : Nat) : Decidable (g.DifferAt k point) :=
  decidable_of_iff _ differAt_iff.symm

/-! ### What is added -/

section

variable {α β : Type} {add : β → α → β} {diff : β → β → β} {kind : β → Prop} {items : List α}
  {start : β}

/-- Adds the item of a point, if there is one. -/
def addItem (add : β → α → β) (items : List α) (state : β) (point : Nat) : β :=
  match items[point]? with
  | some item => add state item
  | none => state

theorem sum_eq_foldl_points (start : β) (sign : SignVector) :
    sum add start sign items = sign.points.foldl (addItem add items) start := by
  unfold sum select
  rw [List.foldl_filterMap]
  rfl

theorem addItem_closed (h : Differences kind add diff) {x : β} (hx : kind x) (point : Nat) :
    kind (addItem add items x point) := by
  unfold addItem
  cases items[point]? with
  | none => exact hx
  | some item => exact h.closed x item hx

theorem addItem_same (h : Differences kind add diff) {x y : β} (hx : kind x) (hy : kind y)
    (point : Nat) : diff (addItem add items x point) (addItem add items y point) = diff x y := by
  unfold addItem
  cases items[point]? with
  | none => rfl
  | some item => exact h.same x y item hx hy

/-- What a point adds to the difference from the start does not depend on what was added before. -/
theorem diff_foldl_addItem (h : Differences kind add diff) (hstart : kind start) (points : List Nat)
    {x : β} (hx : kind x) :
    diff (points.foldl (addItem add items) x) start
      = points.foldl (fun total point => diff total (diff (addItem add items start point) start))
          (diff x start) := by
  induction points generalizing x with
  | nil => rfl
  | cons point points ih =>
      have hnext : kind (addItem add items x point) := addItem_closed h hx point
      have hword : kind (addItem add items start point) := addItem_closed h hstart point
      rw [List.foldl_cons, List.foldl_cons, ih hnext, ← addItem_same h hx hstart point,
        h.chain _ _ _ hnext hword hstart]

/-- What two vectors select adds up to what their sum selects. -/
theorem diff_sum_xor (h : Differences kind add diff) (hself : SelfInverse add)
    (hstart : kind start) (g k : SignVector) :
    diff (sum add start (g ^^^ k) items) start
      = diff (diff (sum add start g items) start) (diff (sum add start k items) start) := by
  have hg : kind (sum add start g items) := sum_closed h hstart g
  have hk : kind (sum add start k items) := sum_closed h hstart k
  have hboth : kind (sum add (sum add start g items) k items) := sum_closed h hg k
  calc diff (sum add start (g ^^^ k) items) start
      = diff (sum add (sum add start g items) k items) start := by rw [sum_sum hself]
    _ = diff (diff (sum add (sum add start g items) k items) (sum add start k items))
          (diff (sum add start k items) start) := (h.chain _ _ _ hboth hk hstart).symm
    _ = diff (diff (sum add start g items) start) (diff (sum add start k items) start) := by
        rw [sum_same h hg hstart k]

end

/-! ### Linear selections -/

/-- What sign vectors select is linear in them: it is made of one word for each point. -/
structure Linear {β : Type} (add : β → β → β) (zero : β) (word : Nat → β)
    (selected : SignVector → β) : Prop where
  /-- It is the sum of the words of the points whose bits are set. -/
  sum : ∀ sign, selected sign
    = sign.lowestFirst.foldl (fun total point => add total (word point)) zero
  /-- The sum of two vectors selects the sum of what they select. -/
  xor : ∀ g k, selected (g ^^^ k) = add (selected g) (selected k)
  /-- If two vectors differ in one bit, what they select differs by the word of its point. -/
  differ : ∀ g k point, g.DifferAt k point → add (selected g) (selected k) = word point

section

variable {α β : Type} {add : β → α → β} {diff : β → β → β} {kind : β → Prop} {items : List α}
  {start : β}

/-- Wherever states have differences, what is added to one of them is linear. -/
theorem linear_of_differences (h : Differences kind add diff) (hself : SelfInverse add)
    (hstart : kind start) :
    Linear diff (diff start start) (fun point => diff (addItem add items start point) start)
      (fun sign => diff (sum add start sign items) start) where
  sum sign := by
    rw [sum_eq_foldl_points, diff_foldl_addItem h hstart _ hstart, points_eq_lowestFirst]
  xor g k := diff_sum_xor h hself hstart g k
  differ g k point hdiffer := by
    obtain ⟨hpoint, hdiff⟩ := differAt_iff.mp hdiffer
    rw [← diff_sum_xor h hself hstart, hdiff, sum_eq_foldl_points, points_single hpoint]
    rfl

variable [XorOp α] [LawfulXor α]

/-- Where items are added to sums of their own type, a point's word is its item. -/
theorem linear_xor {zero : α} (hzero : ∀ a : α, a ^^^ a = zero) (items : List α) (start : α) :
    Linear (· ^^^ ·) zero (fun point => items[point]?.getD zero)
      (fun sign => sum (· ^^^ ·) start sign items ^^^ start) := by
  have hwords : (fun point => addItem (· ^^^ ·) items start point ^^^ start)
      = fun point => items[point]?.getD zero := by
    funext point
    unfold addItem
    cases items[point]? with
    | none => exact hzero start
    | some item => exact (LawfulXor.comm _ _).trans (xor_xor_cancel_left start item)
  rw [← hwords, ← hzero start]
  exact linear_of_differences .xor .xor trivial

end

/-- Where words are added to strings of one length, a word counts as far as they reach. -/
theorem linear_bytes {d : Nat} (words : List Bytes) {start : Bytes} (hstart : start.length = d) :
    Linear Bytes.xor (Bytes.zeros d)
      (fun point => Bytes.xor (Bytes.zeros d) (words[point]?.getD []))
      (fun sign => Bytes.xor (sum Bytes.xor start sign words) start) := by
  have hzero : Bytes.xor start start = Bytes.zeros d := by rw [Bytes.xor_self, hstart]
  have hwords : (fun point => Bytes.xor (addItem Bytes.xor words start point) start)
      = fun point => Bytes.xor (Bytes.zeros d) (words[point]?.getD []) := by
    funext point
    unfold addItem
    cases words[point]? with
    | none => exact hzero.trans (Bytes.xor_nil _).symm
    | some word => exact (Bytes.xor_right_comm start word start).trans (by rw [hzero]; rfl)
  rw [← hwords, ← hzero]
  exact linear_of_differences (.bytes d) .bytes hstart

end SignVector

/-! ### Words of a string -/

/-- The word in a position of a string, or zeros if the string ends before the word does. -/
def Bytes.wordAt (size : Nat) (bytes : Bytes) (position : Nat) : Bytes :=
  if (position + 1) * size ≤ bytes.length then (bytes.drop (position * size)).take size
  else zeros size

theorem Bytes.xor_zeros_chunks (size : Nat) (bytes : Bytes) (position : Nat) :
    xor (zeros size) ((chunks size bytes)[position]?.getD []) = wordAt size bytes position := by
  unfold wordAt
  obtain rfl | hsize := Nat.eq_zero_or_pos size
  · simp [zeros]
  by_cases hfits : (position + 1) * size ≤ bytes.length
  · have hposition : position < bytes.length / size := (Nat.le_div_iff_mul_le hsize).mpr hfits
    have hlength : ((bytes.drop (position * size)).take size).length = size := by
      rw [Nat.succ_mul] at hfits
      rw [List.length_take, List.length_drop]
      omega
    rw [if_pos hfits, chunks, getElem?_words bytes hposition, Option.getD_some, zeros_xor hlength]
  · have hposition : (chunks size bytes).length ≤ position := by
      rw [chunks, length_words]
      exact Nat.le_of_not_lt fun hlt => hfits ((Nat.le_div_iff_mul_le hsize).mp hlt)
    rw [if_neg hfits, List.getElem?_eq_none hposition, Option.getD_none, xor_nil]

/-! ### Corrections, payload words and proof corrections -/

namespace SignCorrection

theorem xor_self (c : SignCorrection) : c ^^^ c = zero := by
  show Correction.mk _ _ _ = Correction.mk _ _ _
  rw [BitVec.xor_self, BitVec.xor_self, BitVec.xor_self]
  rfl

theorem xor_zero (c : SignCorrection) : c ^^^ zero = c := by
  rw [← xor_self c, xor_xor_cancel_left]

end SignCorrection

namespace MultiPoint

namespace Parts

variable (parts : Parts)

/-- What the output at a leaf has on top of the mask of its seed. -/
def addedWords (prg : Prg) (d : Nat) (seed : Block) (sign : SignVector) : Bytes :=
  Bytes.xor (parts.output prg d ⟨seed, sign⟩) (prg.leafMask seed d)

/-- What the tag of a leaf has on top of the hash of its index and seed. -/
def addedTags (hashes : Hashes) (index : UInt64) (seed : Block) (sign : SignVector) : Tag :=
  parts.tag hashes index ⟨seed, sign⟩ ^^^ hashes.leafTag index seed

end Parts

/-- **Whatever is selected by the bits of a sign vector is linear in it**: the corrections of a
level, the payload words that an output has on top of its mask, and the proof corrections that a tag
has on top of its hash.  A point without a word adds nothing, and a payload word counts as far as an
output reaches; the words of a payload may also be cut from a string of any length. -/
theorem linear_selection (prg : Prg) (hashes : Hashes) (parts : Parts) (d : Nat) :
    (∀ corrections : List SignCorrection,
      SignVector.Linear (· ^^^ ·) SignCorrection.zero
        (fun point => corrections[point]?.getD SignCorrection.zero)
        (SignCorrection.selected corrections)) ∧
    (∀ seed : Block,
      SignVector.Linear Bytes.xor (Bytes.zeros d)
        (fun point => Bytes.xor (Bytes.zeros d) (parts.payload[point]?.getD []))
        (parts.addedWords prg d seed)) ∧
    (∀ (payload : Bytes) (seed : Block),
      SignVector.Linear Bytes.xor (Bytes.zeros d) (Bytes.wordAt d payload)
        ({ parts with payload := Bytes.chunks d payload }.addedWords prg d seed)) ∧
    ∀ (index : UInt64) (seed : Block),
      SignVector.Linear (· ^^^ ·) Tag.zero (fun point => parts.proofCorrections[point]?.getD Tag.zero)
        (parts.addedTags hashes index seed) := by
  refine ⟨?_, ?_, ?_, ?_⟩
  · intro corrections
    have hselected : SignCorrection.selected corrections
        = fun sign => sign.sum (· ^^^ ·) SignCorrection.zero corrections ^^^ SignCorrection.zero :=
      funext fun sign => (SignCorrection.xor_zero _).symm
    rw [hselected]
    exact SignVector.linear_xor SignCorrection.xor_self corrections SignCorrection.zero
  · intro seed
    exact SignVector.linear_bytes parts.payload (prg.length_leafMask seed d)
  · intro payload seed
    have hword : Bytes.wordAt d payload
        = fun point => Bytes.xor (Bytes.zeros d) ((Bytes.chunks d payload)[point]?.getD []) :=
      funext fun point => (Bytes.xor_zeros_chunks d payload point).symm
    rw [hword]
    exact SignVector.linear_bytes (Bytes.chunks d payload) (prg.length_leafMask seed d)
  · intro index seed
    exact SignVector.linear_xor Tag.xor_self parts.proofCorrections (hashes.leafTag index seed)

/-- With one word of each kind, and a string that has but half of a second one. -/
theorem linear_selection_second_word_missing :
    let tag : Tag := ⟨Vector.replicate tagBlocks 1⟩
    let parts : Parts := ⟨0, .a, [], [[7, 8]], [tag], 1⟩
    let cut : Parts := { parts with payload := Bytes.chunks 2 [7, 8, 9] }
    let prg : Prg := .ofBlock 0
    let hashes : Hashes := (Setup.mk prg ⟨1, 2⟩).hashes
    SignVector.DifferAt 0b11 0b10 0 ∧ SignVector.DifferAt 0b11 0b01 1 ∧
      SignCorrection.selected [⟨1, 2, 3⟩] 0b11 ^^^ SignCorrection.selected [⟨1, 2, 3⟩] 0b10
        = ⟨1, 2, 3⟩ ∧
      SignCorrection.selected [⟨1, 2, 3⟩] 0b11 ^^^ SignCorrection.selected [⟨1, 2, 3⟩] 0b01
        = SignCorrection.zero ∧
      Bytes.xor (parts.addedWords prg 2 9 0b11) (parts.addedWords prg 2 9 0b10) = [7, 8] ∧
      Bytes.xor (cut.addedWords prg 2 9 0b11) (cut.addedWords prg 2 9 0b01) = [0, 0] ∧
      parts.addedTags hashes 3 9 0b11 ^^^ parts.addedTags hashes 3 9 0b10 = tag ∧
      parts.addedTags hashes 3 9 0b11 ^^^ parts.addedTags hashes 3 9 0b01 = Tag.zero := by
  intro tag parts cut prg hashes
  have hfirst : SignVector.DifferAt 0b11 0b10 0 := by decide
  have hsecond : SignVector.DifferAt 0b11 0b01 1 := by decide
  obtain ⟨hcorrections, hwords, hstring, htags⟩ := linear_selection prg hashes parts 2
  exact ⟨hfirst, hsecond, (hcorrections [⟨1, 2, 3⟩]).differ _ _ _ hfirst,
    (hcorrections [⟨1, 2, 3⟩]).differ _ _ _ hsecond, (hwords 9).differ _ _ _ hfirst,
    (hstring [7, 8, 9] 9).differ _ _ _ hsecond, (htags 3 9).differ _ _ _ hfirst,
    (htags 3 9).differ _ _ _ hsecond⟩

end MultiPoint

end PointSharing
