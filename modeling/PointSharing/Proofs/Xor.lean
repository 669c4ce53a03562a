/-
Addition without carry on everything that is added.

Bits, blocks, sign vectors and what is made of them componentwise are all added in the same
way, and what the proofs use of it is always the same: order does not count and adding twice
changes nothing.  `LawfulXor` says this of sums within one type.  `SelfInverse` says it of
adding items of one type to a state of another, where there may be no sum of two items, and
`Differences` of what such states differ by.
-/
import PointSharing.Node
import PointSharing.Proofs.Bytes

namespace PointSharing

/-- The sum `^^^` is commutative and associative, and adding undoes itself. -/
class LawfulXor (α : Type) [XorOp α] : Prop where
  comm : ∀ a b : α, a ^^^ b = b ^^^ a
  assoc : ∀ a b c : α, a ^^^ b ^^^ c = a ^^^ (b ^^^ c)
  cancel : ∀ a b : α, a ^^^ b ^^^ b = a

instance (w : Nat) : LawfulXor (BitVec w) where
  comm := BitVec.xor_comm
  assoc := BitVec.xor_assoc
  cancel a b := by rw [BitVec.xor_assoc, BitVec.xor_self, BitVec.xor_zero]

instance : LawfulXor Bool where
  comm := Bool.xor_comm
  assoc := Bool.xor_assoc
  cancel a b := by cases a <;> cases b <;> rfl

section

variable {α : Type} [XorOp α] [LawfulXor α]

instance instCommutativeXor : Std.Commutative (α := α) (· ^^^ ·) := ⟨LawfulXor.comm⟩

instance instAssociativeXor : Std.Associative (α := α) (· ^^^ ·) := ⟨LawfulXor.assoc⟩

theorem xor_xor_cancel_left (a b : α) : a ^^^ (a ^^^ b) = b := by
  rw [LawfulXor.comm, LawfulXor.comm a, LawfulXor.cancel]

theorem xor_xor_xor_cancel (a b c : α) : (a ^^^ c) ^^^ (b ^^^ c) = a ^^^ b := by
  rw [LawfulXor.comm b, ← LawfulXor.assoc, LawfulXor.cancel]

/-- Corrected by what it differs from `a` in, `b` is `a`, whatever else is added to both. -/
theorem xor_correction (a b c : α) : b ^^^ (c ^^^ (a ^^^ b)) = a ^^^ c := by
  rw [show b ^^^ (c ^^^ (a ^^^ b)) = b ^^^ (b ^^^ (a ^^^ c)) by ac_rfl, xor_xor_cancel_left]

/-- What the correction has on top of the difference is what is left of it. -/
theorem xor_xor_correction (a b c d : α) : (a ^^^ c) ^^^ (b ^^^ (c ^^^ (a ^^^ b ^^^ d))) = d :=
  calc (a ^^^ c) ^^^ (b ^^^ (c ^^^ (a ^^^ b ^^^ d)))
      = (a ^^^ c) ^^^ (b ^^^ (c ^^^ (a ^^^ b)) ^^^ d) := by ac_rfl
    _ = d := by rw [xor_correction, xor_xor_cancel_left]

end

instance (κ : Type) [XorOp κ] [LawfulXor κ] : LawfulXor (Correction κ) where
  comm a b := by
    show Correction.mk _ _ _ = Correction.mk _ _ _
    rw [LawfulXor.comm a.seed, LawfulXor.comm a.left, LawfulXor.comm a.right]
  assoc a b c := by
    show Correction.mk _ _ _ = Correction.mk _ _ _
    rw [Correction.seed_xor, Correction.left_xor, Correction.right_xor, LawfulXor.assoc,
      LawfulXor.assoc, LawfulXor.assoc]
    rfl
  cancel a b := by
    show Correction.mk _ _ _ = a
    rw [Correction.seed_xor, Correction.left_xor, Correction.right_xor, LawfulXor.cancel,
      LawfulXor.cancel, LawfulXor.cancel]

/-! ### Adding items to a state -/

/-- The order in which items are added does not count, and adding one twice changes nothing. -/
structure SelfInverse {α β : Type} (add : β → α → β) : Prop where
  comm : ∀ x a b, add (add x a) b = add (add x b) a
  cancel : ∀ x a, add (add x a) a = x

theorem SelfInverse.xor {α : Type} [XorOp α] [LawfulXor α] :
    SelfInverse (fun a b : α => a ^^^ b) where
  comm _ _ _ := by ac_rfl
  cancel := LawfulXor.cancel

theorem SelfInverse.bytes : SelfInverse Bytes.xor where
  comm := Bytes.xor_right_comm
  cancel := Bytes.xor_xor_cancel_right

/-! ### What states differ by -/

/-- States of a kind have differences, which can be added to each other as states can. -/
structure Differences {α β : Type} (kind : β → Prop) (add : β → α → β) (diff : β → β → β) :
    Prop where
  /-- Adding does not leave the kind. -/
  closed : ∀ x a, kind x → kind (add x a)
  /-- What is added to both states does not show in the difference. -/
  same : ∀ x y a, kind x → kind y → diff (add x a) (add y a) = diff x y
  /-- A state in between does not show in the sum of the differences. -/
  chain : ∀ x y z, kind x → kind y → kind z → diff (diff x y) (diff y z) = diff x z

theorem Differences.xor {α : Type} [XorOp α] [LawfulXor α] :
    Differences (fun _ : α => True) (fun a b : α => a ^^^ b) (· ^^^ ·) where
  closed _ _ _ := trivial
  same x y a _ _ := xor_xor_xor_cancel x y a
  chain x y z _ _ _ := by
    rw [LawfulXor.comm y, xor_xor_xor_cancel]

/-- Of strings only those of one length have differences. -/
theorem Differences.bytes (length : Nat) :
    Differences (fun a : Bytes => a.length = length) Bytes.xor Bytes.xor where
  closed x a h := (Bytes.length_xor x a).trans h
  same x y a hx hy := Bytes.xor_xor_xor_cancel_of_length_eq (hx.trans hy.symm) a
  chain x y z hx hy hz := by
    rw [Bytes.xor_comm (a := y) (hy.trans hz.symm),
      Bytes.xor_xor_xor_cancel_of_length_eq (hx.trans hz.symm)]

end PointSharing
