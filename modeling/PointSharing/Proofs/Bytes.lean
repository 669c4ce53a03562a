/-
The algebra of byte strings.

`Bytes.xor` keeps the length of its first argument, so it is a group operation only on
strings of one length.  Two laws hold without that: the order of what is added does not
count, and what is added twice is gone.  Sums that are picked by the bits of a sign vector
need no more, which is why these two come first.

The second half is about strings that are made of words: cutting what was joined gives the
words back, and sums of joined strings are taken word by word.
-/
import PointSharing.Bytes

namespace PointSharing.Bytes

/-! ### Adding strings -/

theorem xor_right_comm (a b c : Bytes) : xor (xor a b) c = xor (xor a c) b := by
  induction a generalizing b c with
  | nil => simp
  | cons x a ih =>
      cases b with
      | nil => simp
      | cons y b =>
          cases c with
          | nil => simp
          | cons z c =>
              simp only [xor_cons, ih b c, List.cons.injEq, and_true]
              rw [UInt8.xor_assoc, UInt8.xor_assoc, UInt8.xor_comm y z]

theorem xor_xor_cancel_right (a b : Bytes) : xor (xor a b) b = a := by
  induction a generalizing b with
  | nil => simp
  | cons x a ih =>
      cases b with
      | nil => simp
      | cons y b => rw [xor_cons, xor_cons, ih, UInt8.xor_assoc, UInt8.xor_self, UInt8.xor_zero]

theorem xor_self (a : Bytes) : xor a a = zeros a.length := by
  induction a with
  | nil => rfl
  | cons x a ih => simpa [zeros, List.replicate_succ] using ih

theorem xor_comm {a b : Bytes} (h : a.length = b.length) : xor a b = xor b a := by
  induction a generalizing b with
  | nil =>
      cases b with
      | nil => rfl
      | cons y b => simp at h
  | cons x a ih =>
      cases b with
      | nil => simp at h
      | cons y b =>
          rw [xor_cons, xor_cons, ih (by simpa using h), UInt8.xor_comm]

/-- What is added into the second argument is added into the sum, if it reaches no further. -/
theorem xor_assoc {a b c : Bytes} (h : c.length ≤ b.length) :
    xor a (xor b c) = xor (xor a b) c := by
  induction a generalizing b c with
  | nil => simp
  | cons x a ih =>
      cases b with
      | nil =>
          have hc : c = [] := List.length_eq_zero_iff.mp (by simpa using h)
          simp [hc]
      | cons y b =>
          cases c with
          | nil => simp
          | cons z c =>
              simp only [xor_cons, List.cons.injEq]
              exact ⟨(UInt8.xor_assoc x y z).symm, ih (by simpa using h)⟩

/-- What is added to both arguments cancels. -/
theorem xor_xor_xor_cancel {a b c : Bytes} (h : c.length ≤ b.length) :
    xor (xor a c) (xor b c) = xor a b := by
  rw [xor_assoc h, xor_right_comm a c b, xor_xor_cancel_right]

/-- What is added to two strings of one length cancels, however long it is. -/
theorem xor_xor_xor_cancel_of_length_eq {a b : Bytes} (h : a.length = b.length) (c : Bytes) :
    xor (xor a c) (xor b c) = xor a b :=
  calc xor (xor a c) (xor b c)
      = xor (xor a (xor b c)) c := xor_right_comm a c (xor b c)
    _ = xor (xor (xor b c) a) c := by rw [xor_comm (a := a) (by rwa [length_xor])]
    _ = xor (xor (xor b a) c) c := by rw [xor_right_comm b c a]
    _ = xor b a := xor_xor_cancel_right _ _
    _ = xor a b := xor_comm h.symm

theorem zeros_xor {n : Nat} {a : Bytes} (h : a.length = n) : xor (zeros n) a = a := by
  rw [← h, ← xor_self, xor_xor_cancel_right]

/-- Masks that are added to both arguments cancel. -/
theorem xor_masks_cancel {a b maskA maskB : Bytes} (ha : maskA.length ≤ b.length)
    (hb : maskB.length ≤ b.length) :
    xor (xor (xor a maskA) maskB) (xor (xor b maskA) maskB) = xor a b := by
  have hle : maskB.length ≤ (xor b maskA).length := by rwa [length_xor]
  rw [xor_xor_xor_cancel hle, xor_xor_xor_cancel ha]

/-- A word that was masked twice is what the sum of the masks uncovers. -/
theorem xor_masked {word maskA maskB : Bytes} (ha : maskA.length = word.length)
    (hb : maskB.length = word.length) :
    xor (xor maskA maskB) (xor (xor word maskA) maskB) = word :=
  calc xor (xor maskA maskB) (xor (xor word maskA) maskB)
      = xor (xor maskA maskB) (xor word (xor maskA maskB)) := by
        rw [← xor_assoc (a := word) (Nat.le_of_eq (hb.trans ha.symm))]
    _ = xor (xor word (xor maskA maskB)) (xor maskA maskB) := xor_comm (by simp [ha])
    _ = word := xor_xor_cancel_right _ _

theorem xor_append {a b : Bytes} (h : a.length = b.length) (a' b' : Bytes) :
    xor (a ++ a') (b ++ b') = xor a b ++ xor a' b' := by
  induction a generalizing b with
  | nil =>
      have hb : b = [] := List.length_eq_zero_iff.mp (by simpa using h.symm)
      simp [hb]
  | cons x a ih =>
      cases b with
      | nil => simp at h
      | cons y b => simp [ih (by simpa using h)]

theorem xor_flatMap {α : Type} {f g : α → Bytes} (l : List α)
    (h : ∀ x ∈ l, (f x).length = (g x).length) :
    xor (l.flatMap f) (l.flatMap g) = l.flatMap fun x => xor (f x) (g x) := by
  induction l with
  | nil => rfl
  | cons x l ih =>
      simp only [List.flatMap_cons]
      rw [xor_append (h x (by simp)), ih fun y hy => h y (by simp [hy])]

/-! ### Words of equal size -/

theorem length_flatMap_of_forall {α β : Type} {f : α → List β} {size : Nat} (l : List α)
    (h : ∀ x ∈ l, (f x).length = size) : (l.flatMap f).length = size * l.length := by
  induction l with
  | nil => rfl
  | cons x l ih =>
      rw [List.flatMap_cons, List.length_append, h x (by simp),
        ih fun y hy => h y (by simp [hy]), List.length_cons, Nat.mul_succ, Nat.add_comm]

theorem drop_flatMap {α β : Type} {f : α → List β} {size : Nat} (l : List α)
    (h : ∀ x ∈ l, (f x).length = size) (k : Nat) :
    (l.flatMap f).drop (size * k) = (l.drop k).flatMap f := by
  induction l generalizing k with
  | nil => simp
  | cons x l ih =>
      cases k with
      | zero => rfl
      | succ k =>
          rw [List.flatMap_cons, Nat.mul_succ, Nat.add_comm, ← List.drop_drop,
            List.drop_left' (h x (by simp)), ih fun y hy => h y (by simp [hy])]
          rfl

/-- The word of an item lies at the item's position. -/
theorem word_flatMap {α β : Type} {f : α → List β} {size k : Nat} {x : α} (l : List α)
    (h : ∀ x ∈ l, (f x).length = size) (hx : l[k]? = some x) :
    ((l.flatMap f).drop (k * size)).take size = f x := by
  obtain ⟨hk, rfl⟩ := List.getElem?_eq_some_iff.mp hx
  rw [Nat.mul_comm, drop_flatMap l h, List.drop_eq_getElem_cons hk, List.flatMap_cons,
    List.take_left' (h _ (List.getElem_mem hk))]

/-- Words that were joined are cut apart again. -/
theorem words_flatten {size : Nat} (ws : List Bytes) (h : ∀ w ∈ ws, w.length = size) :
    words size ws.length ws.flatten = ws := by
  induction ws with
  | nil => rfl
  | cons w ws ih =>
      have hw : w.length = size := h w (by simp)
      rw [List.flatten_cons, List.length_cons, words, List.take_left' hw, List.drop_left' hw,
        ih fun v hv => h v (by simp [hv])]

/-- The words that a string was cut into are the string again. -/
theorem flatten_words {size count : Nat} {bytes : Bytes} (h : bytes.length = count * size) :
    (words size count bytes).flatten = bytes := by
  induction count generalizing bytes with
  | zero =>
      rw [Nat.zero_mul] at h
      exact (List.length_eq_zero_iff.mp h).symm
  | succ count ih =>
      rw [Nat.succ_mul] at h
      have hrest : (bytes.drop size).length = count * size := by
        rw [List.length_drop]
        omega
      rw [words, List.flatten_cons, ih hrest, List.take_append_drop]

/-- Strings of words are added word by word. -/
theorem xor_flatten {size : Nat} {ws vs : List Bytes} (hcount : ws.length = vs.length)
    (hws : ∀ w ∈ ws, w.length = size) (hvs : ∀ v ∈ vs, v.length = size) :
    xor ws.flatten vs.flatten = (List.zipWith xor ws vs).flatten := by
  induction ws generalizing vs with
  | nil => simp
  | cons w ws ih =>
      cases vs with
      | nil => simp at hcount
      | cons v vs =>
          have hlength : w.length = v.length :=
            (hws w (by simp)).trans (hvs v (by simp)).symm
          have hrest := ih (by simpa using hcount) (fun u hu => hws u (by simp [hu]))
            (fun u hu => hvs u (by simp [hu]))
          rw [List.flatten_cons, List.flatten_cons, xor_append hlength, hrest,
            List.zipWith_cons_cons, List.flatten_cons]

theorem words_flatMap {α : Type} {f : α → Bytes} {size : Nat} (l : List α)
    (h : ∀ x ∈ l, (f x).length = size) : words size l.length (l.flatMap f) = l.map f := by
  have hlen : l.length = (l.map f).length := by simp
  rw [List.flatMap_def, hlen]
  exact words_flatten _ (by simpa using h)

theorem getElem?_words {size count k : Nat} (bytes : Bytes) (h : k < count) :
    (words size count bytes)[k]? = some ((bytes.drop (k * size)).take size) := by
  induction count generalizing bytes k with
  | zero => omega
  | succ count ih =>
      cases k with
      | zero => simp [words]
      | succ k =>
          rw [words, List.getElem?_cons_succ, ih _ (by omega), List.drop_drop, Nat.succ_mul,
            Nat.add_comm size]

theorem length_of_mem_words {size count : Nat} {bytes w : Bytes}
    (h : bytes.length = count * size) (hw : w ∈ words size count bytes) : w.length = size := by
  induction count generalizing bytes with
  | zero => simp [words] at hw
  | succ count ih =>
      rw [Nat.succ_mul] at h
      rcases List.mem_cons.mp hw with rfl | hrest
      · simp only [List.length_take]
        omega
      · exact ih (by simp only [List.length_drop]; omega) hrest

/-- Only the beginning of a string is cut into words. -/
theorem words_take (size count : Nat) (bytes : Bytes) :
    words size count (bytes.take (size * count)) = words size count bytes := by
  induction count generalizing bytes with
  | zero => rfl
  | succ count ih =>
      have hle : size ≤ size * (count + 1) := Nat.le_mul_of_pos_right size (Nat.succ_pos count)
      have hrest : size * (count + 1) - size = size * count := by
        rw [Nat.mul_succ, Nat.add_sub_cancel]
      rw [words, words, List.take_take, Nat.min_eq_left hle, List.drop_take, hrest, ih]

theorem words_add (size a b : Nat) (bytes : Bytes) :
    words size (a + b) bytes = words size a bytes ++ words size b (bytes.drop (size * a)) := by
  induction a generalizing bytes with
  | zero => simp [words]
  | succ a ih =>
      rw [Nat.succ_add, words, words, ih, List.drop_drop, List.cons_append, Nat.mul_succ,
        Nat.add_comm size]

/-- To cut words into words is to cut the string into the shorter ones. -/
theorem flatMap_words (size count outer : Nat) (bytes : Bytes) :
    (words (size * count) outer bytes).flatMap (words size count)
      = words size (outer * count) bytes := by
  induction outer generalizing bytes with
  | zero => rw [Nat.zero_mul, words, words, List.flatMap_nil]
  | succ outer ih =>
      rw [words, List.flatMap_cons, words_take, ih, Nat.succ_mul, Nat.add_comm (outer * count),
        words_add]

end PointSharing.Bytes
