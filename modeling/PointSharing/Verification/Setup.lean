/-
What all parties to a proved evaluation have in common.

Whoever makes the keys and both parties that evaluate them have to use the same generator
and the same hashes; otherwise their proofs disagree.
-/
import PointSharing.Prg
import PointSharing.Verification.Transcript

namespace PointSharing

/-- The generator and the keys of the hashes that all parties share. -/
structure Setup where
  /-- The generator that trees grow from. -/
  prg : Prg
  /-- The keys of the hashes. -/
  hashKeys : HashKeys

namespace Setup

/-- The setup with the given keys, of sixteen bytes each; the hash keys are checked first. -/
def ofKeys (prfKey h1 h2 : Bytes) : Except Error Setup := do
  let hashKeys ← HashKeys.ofBytes h1 h2
  let prg ← Prg.ofKey prfKey
  return ⟨prg, hashKeys⟩

/-- The hashes that proofs are made with. -/
def hashes (setup : Setup) : Hashes := Hashes.ofKeys setup.hashKeys

end Setup

end PointSharing
