/-
Nodes of the tree and how they are corrected.

At every node of the tree a party holds a seed and a control: one bit for a function with
a single special point, a vector of bits for one with several.  A seed expands to a fork,
the states of the two children.  A correction is added into a fork, the same seed on both
sides, which is how the parties' states are made equal where the function is zero.

Nodes, forks and corrections are added component by component, and every such sum is
written `^^^`; the sum of two states is also what they differ by.
-/
import PointSharing.Block

namespace PointSharing

/-- Bits are added without carry. -/
instance instXorOpBit : XorOp Bool := ⟨Bool.xor⟩

@[simp] theorem xor_bool (a b : Bool) : a ^^^ b = Bool.xor a b := rfl

/-- The state of one party at one node; `κ` is the type of the control. -/
structure Node (κ : Type) where
  /-- The seed, which the states of the children are expanded from. -/
  seed : Block
  /-- What says whether, or with what, the children are corrected. -/
  control : κ
  deriving DecidableEq

/-- What a node has for each of its two children. -/
structure Fork (σ : Type) where
  /-- For the left child. -/
  left : σ
  /-- For the right child. -/
  right : σ
  deriving DecidableEq

/-- What is added into the states of two sibling nodes. -/
structure Correction (κ : Type) where
  /-- Added into the seed of either child. -/
  seed : Block
  /-- Added into the control of the left child. -/
  left : κ
  /-- Added into the control of the right child. -/
  right : κ
  deriving DecidableEq

namespace Node

variable {κ : Type} [XorOp κ]

instance : XorOp (Node κ) := ⟨fun m n => ⟨m.seed ^^^ n.seed, m.control ^^^ n.control⟩⟩

@[simp] theorem seed_xor (m n : Node κ) : (m ^^^ n).seed = m.seed ^^^ n.seed := rfl

@[simp] theorem control_xor (m n : Node κ) :
    (m ^^^ n).control = m.control ^^^ n.control := rfl

end Node

namespace Fork

variable {σ τ : Type}

/-- The child on one side; `true` is right. -/
def side (f : Fork σ) (right : Bool) : σ := if right then f.right else f.left

/-- Both children, from left to right. -/
def toList (f : Fork σ) : List σ := [f.left, f.right]

/-- The same function for both children. -/
def map (g : σ → τ) (f : Fork σ) : Fork τ := ⟨g f.left, g f.right⟩

instance [XorOp σ] : XorOp (Fork σ) := ⟨fun f g => ⟨f.left ^^^ g.left, f.right ^^^ g.right⟩⟩

@[simp] theorem left_xor [XorOp σ] (f g : Fork σ) : (f ^^^ g).left = f.left ^^^ g.left := rfl

@[simp] theorem right_xor [XorOp σ] (f g : Fork σ) :
    (f ^^^ g).right = f.right ^^^ g.right := rfl

end Fork

namespace Correction

variable {κ : Type}

/-- The correction as what it adds to each child. -/
def toFork (c : Correction κ) : Fork (Node κ) := ⟨⟨c.seed, c.left⟩, ⟨c.seed, c.right⟩⟩

instance [XorOp κ] : XorOp (Correction κ) :=
  ⟨fun c d => ⟨c.seed ^^^ d.seed, c.left ^^^ d.left, c.right ^^^ d.right⟩⟩

@[simp] theorem seed_xor [XorOp κ] (c d : Correction κ) :
    (c ^^^ d).seed = c.seed ^^^ d.seed := rfl

@[simp] theorem left_xor [XorOp κ] (c d : Correction κ) :
    (c ^^^ d).left = c.left ^^^ d.left := rfl

@[simp] theorem right_xor [XorOp κ] (c d : Correction κ) :
    (c ^^^ d).right = c.right ^^^ d.right := rfl

end Correction

end PointSharing
