/-
The two parties, and things that each of them has one of.

The parties are symmetric but for one bit, zero for A and one for B.  It is what their
states at the root differ in, so it is part of every key, as a byte of its own of which
only the lowest bit counts when it is read.
-/

namespace PointSharing

/-- One of the two parties that evaluate a shared function. -/
inductive Party where
  /-- The first party. -/
  | a
  /-- The second party. -/
  | b
  deriving DecidableEq

namespace Party

/-- The bit that tells the parties apart. -/
def bit : Party → Bool
  | a => false
  | b => true

/-- The byte of a party in a key. -/
def toByte : Party → UInt8
  | a => 0
  | b => 1

/-- The party that a byte of a key stands for, by its lowest bit. -/
def ofByte (byte : UInt8) : Party := if byte &&& 1 == 1 then b else a

@[simp] theorem ofByte_toByte (party : Party) : ofByte party.toByte = party := by
  cases party <;> decide

end Party

/-- Something that each party has one of. -/
structure Pair (α : Type) where
  /-- What party A has. -/
  a : α
  /-- What party B has. -/
  b : α
  deriving DecidableEq

namespace Pair

variable {α β : Type}

/-- What a party has. -/
def get (p : Pair α) : Party → α
  | .a => p.a
  | .b => p.b

/-- The same function for both parties. -/
def map (f : α → β) (p : Pair α) : Pair β := ⟨f p.a, f p.b⟩

/-- Something made for each party. -/
def ofFn (f : Party → α) : Pair α := ⟨f .a, f .b⟩

end Pair

end PointSharing
