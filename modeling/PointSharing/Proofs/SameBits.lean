/-
Byte strings that have the same bits, except for bits that are ignored.

Which bits are ignored is a predicate on a byte's place and a bit's place in the byte.  The lemmas
take a comparison of whole keys apart the way that a key is read: into fields, which are where the
layout says (`sameBits_iff_fields`), and a field into words of one size (`map_words_eq_iff`).  The
latter is by induction on the number of words; the predicate has to repeat itself from word to word
for that.  Where no bit is ignored, having the same bits is being equal.
-/
import PointSharing.Proofs.Bytes
import PointSharing.Proofs.Differences

namespace PointSharing

/-- A bit of a byte string, the lowest of a byte first; nothing after the end of the string. -/
def Bytes.bit (bytes : Bytes) (i j : Nat) : Option Bool := bytes[i]?.map (·.toNat.testBit j)

/-- Two byte strings have the same bits, except for those that are ignored. -/
def SameBits (ignored : Nat → Nat → Prop) (bytes bytes' : Bytes) : Prop :=
  ∀ i j, j < 8 → ¬ ignored i j → Bytes.bit bytes i j = Bytes.bit bytes' i j

/-- A bit lies in a field in which it is ignored. -/
def Layout.Ignored (layout : Layout) (ignored : Field → Nat → Nat → Prop) (i j : Nat) : Prop :=
  ∃ field, (layout.span field).Contains i ∧ ignored field (i - (layout.span field).start) j

/-! ### Bytes -/

theorem eq_of_testBit {a b : UInt8} (h : ∀ j, j < 8 → a.toNat.testBit j = b.toNat.testBit j) :
    a = b := by
  apply UInt8.toNat_inj.mp
  apply Nat.eq_of_testBit_eq
  intro j
  by_cases hj : j < 8
  · exact h j hj
  · have hpow : 2 ^ 8 ≤ 2 ^ j := Nat.pow_le_pow_right (by decide) (by omega)
    rw [Nat.testBit_lt_two_pow (Nat.lt_of_lt_of_le a.toNat_lt hpow),
      Nat.testBit_lt_two_pow (Nat.lt_of_lt_of_le b.toNat_lt hpow)]

theorem testBit_zero (a : UInt8) : a.toNat.testBit 0 = (a &&& 1 == 1) := by
  have hand : (a &&& 1).toNat = a.toNat % 2 := by
    rw [UInt8.toNat_and]
    exact Nat.and_one_is_mod _
  rw [Nat.testBit_zero, Bool.eq_iff_iff, decide_eq_true_iff, beq_iff_eq, ← UInt8.toNat_inj, hand]
  rfl

/-! ### Strings -/

section

variable {ignored : Nat → Nat → Prop} {a a' b b' : Bytes}

theorem bit_eq_none {i : Nat} (h : a.length ≤ i) (j : Nat) : Bytes.bit a i j = none := by
  rw [Bytes.bit, List.getElem?_eq_none h]
  rfl

theorem bit_append_left {i : Nat} (h : i < a.length) (j : Nat) :
    Bytes.bit (a ++ b) i j = Bytes.bit a i j := by
  rw [Bytes.bit, List.getElem?_append_left h]
  rfl

theorem bit_append_right (i j : Nat) : Bytes.bit (a ++ b) (a.length + i) j = Bytes.bit b i j := by
  rw [Bytes.bit, List.getElem?_append_right (Nat.le_add_right _ _), Nat.add_sub_cancel_left]
  rfl

theorem SameBits.of_eq (h : a = a') : SameBits ignored a a' := by
  intro i j _ _
  rw [h]

theorem sameBits_iff_eq (hlength : a.length = a'.length)
    (h : ∀ i j, i < a.length → ¬ ignored i j) : SameBits ignored a a' ↔ a = a' := by
  constructor
  · intro hsame
    apply List.ext_getElem hlength
    intro i hi hi'
    apply eq_of_testBit
    intro j hj
    have hbit := hsame i j hj (h i j hi)
    rw [Bytes.bit, Bytes.bit, List.getElem?_eq_getElem hi, List.getElem?_eq_getElem hi'] at hbit
    exact Option.some.inj hbit
  · exact SameBits.of_eq

/-- Where only lowest bits count, two bytes have to agree in those. -/
theorem sameBits_singleton {x y : UInt8} (h : ∀ j, ignored 0 j ↔ 0 < j) :
    SameBits ignored [x] [y] ↔ (x &&& 1 == 1) = (y &&& 1 == 1) := by
  rw [← testBit_zero, ← testBit_zero]
  constructor
  · intro hsame
    exact Option.some.inj (hsame 0 0 (by decide) fun h0 => Nat.lt_irrefl 0 ((h 0).mp h0))
  · intro hbit i j _ hignored
    cases i with
    | zero =>
        obtain rfl : j = 0 := Nat.eq_zero_of_not_pos fun hj => hignored ((h j).mpr hj)
        exact congrArg some hbit
    | succ i => rfl

theorem sameBits_append (hlength : a.length = a'.length) :
    SameBits ignored (a ++ b) (a' ++ b') ↔
      SameBits ignored a a' ∧ SameBits (fun i j => ignored (a.length + i) j) b b' := by
  constructor
  · intro h
    refine ⟨fun i j hj hignored => ?_, fun i j hj hignored => ?_⟩
    · by_cases hi : i < a.length
      · have hi' : i < a'.length := hlength ▸ hi
        have hbit := h i j hj hignored
        rwa [bit_append_left hi, bit_append_left hi'] at hbit
      · rw [bit_eq_none (by omega), bit_eq_none (by omega)]
    · have hbit := h (a.length + i) j hj hignored
      rwa [bit_append_right, hlength, bit_append_right] at hbit
  · rintro ⟨hfirst, hrest⟩ i j hj hignored
    by_cases hi : i < a.length
    · have hi' : i < a'.length := hlength ▸ hi
      rw [bit_append_left hi, bit_append_left hi']
      exact hfirst i j hj hignored
    · obtain ⟨k, rfl⟩ := Nat.exists_eq_add_of_le (Nat.not_lt.mp hi)
      rw [bit_append_right, hlength, bit_append_right]
      exact hrest k j hj hignored

end

/-! ### Words -/

/-- If the words of a string are decoded the same exactly if they have the same bits, then so are
strings of words. -/
theorem map_words_eq_iff {α : Type} {decode : Bytes → α} {ignored : Nat → Nat → Prop} {size : Nat}
    (hperiod : ∀ i j, ignored (size + i) j ↔ ignored i j)
    (hword : ∀ w w' : Bytes, w.length = size → w'.length = size →
      (decode w = decode w' ↔ SameBits ignored w w'))
    {count : Nat} {bytes bytes' : Bytes} (h : bytes.length = count * size)
    (h' : bytes'.length = count * size) :
    (Bytes.words size count bytes).map decode = (Bytes.words size count bytes').map decode ↔
      SameBits ignored bytes bytes' := by
  induction count generalizing bytes bytes' with
  | zero =>
      rw [Nat.zero_mul] at h h'
      obtain rfl := List.length_eq_zero_iff.mp h
      obtain rfl := List.length_eq_zero_iff.mp h'
      exact iff_of_true rfl (.of_eq rfl)
  | succ count ih =>
      rw [Nat.succ_mul] at h h'
      have htake : (bytes.take size).length = size := List.length_take_of_le (by omega)
      have htake' : (bytes'.take size).length = size := List.length_take_of_le (by omega)
      have hdrop : (bytes.drop size).length = count * size := by rw [List.length_drop]; omega
      have hdrop' : (bytes'.drop size).length = count * size := by rw [List.length_drop]; omega
      have hsplit : SameBits ignored bytes bytes' ↔
          SameBits ignored (bytes.take size) (bytes'.take size) ∧
            SameBits (fun i j => ignored (size + i) j) (bytes.drop size) (bytes'.drop size) := by
        have happend : SameBits ignored (bytes.take size ++ bytes.drop size)
            (bytes'.take size ++ bytes'.drop size) ↔ _ :=
          sameBits_append (htake.trans htake'.symm)
        rwa [List.take_append_drop, List.take_append_drop, htake] at happend
      simp only [hperiod] at hsplit
      rw [Bytes.words, Bytes.words, List.map_cons, List.map_cons, List.cons.injEq,
        hword _ _ htake htake', ih hdrop hdrop', hsplit]

/-! ### Fields -/

namespace Layout

variable {layout : Layout}

theorem bit_read {field : Field} {i : Nat} (h : (layout.span field).Contains i) (key : Bytes)
    (j : Nat) : Bytes.bit (layout.read key field) (i - (layout.span field).start) j
      = Bytes.bit key i j := by
  rw [Bytes.bit, Bytes.bit, getElem?_read h]

/-- **Keys have the same bits exactly if all of their fields have.** -/
theorem sameBits_iff_fields (hnodup : (layout.fields.map Prod.fst).Nodup)
    {ignored : Field → Nat → Nat → Prop} {key key' : Bytes} (hkey : key.length = layout.size)
    (hkey' : key'.length = layout.size) :
    SameBits (layout.Ignored ignored) key key' ↔ ∀ field ∈ layout.fields.map Prod.fst,
      SameBits (ignored field) (layout.read key field) (layout.read key' field) := by
  constructor
  · intro h field hmem i j hj hignored
    obtain ⟨entry, hentry, rfl⟩ := List.mem_map.mp hmem
    have hlength := fits_read hnodup hkey entry hentry
    have hlength' := fits_read hnodup hkey' entry hentry
    by_cases hi : i < entry.2
    · obtain ⟨start, hspan, -⟩ := exists_spanFrom hnodup hentry 0
      have hcontains : (layout.span entry.1).Contains (start + i) := by
        rw [span, hspan]
        exact ⟨Nat.le_add_right _ _, Nat.add_lt_add_left hi _⟩
      have hplace : start + i - (layout.span entry.1).start = i := by
        rw [span, hspan]
        exact Nat.add_sub_cancel_left _ _
      have hbit := h (start + i) j hj ?_
      · rw [← bit_read hcontains, ← bit_read hcontains, hplace] at hbit
        exact hbit
      · rintro ⟨other, hother, hignored'⟩
        obtain rfl := contains_inj hcontains hother
        exact hignored (hplace ▸ hignored')
    · rw [bit_eq_none (by omega), bit_eq_none (by omega)]
  · intro h i j hj hignored
    by_cases hi : i < layout.size
    · obtain ⟨field, hmem, hcontains⟩ :=
        exists_contains hnodup (Nat.zero_le i) (by rwa [Nat.zero_add])
      rw [← bit_read hcontains key, ← bit_read hcontains key']
      exact h field hmem _ j hj fun hfield => hignored ⟨field, hcontains, hfield⟩
    · rw [bit_eq_none (by omega), bit_eq_none (by omega)]

end Layout

end PointSharing
