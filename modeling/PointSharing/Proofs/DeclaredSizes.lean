/-
The sizes that a key is accepted with are in its bytes.

Only two of the declared sizes are written into a key.  The size of an output is not, but it is
what is left of the length once the other fields have been taken off, in as many parts as there are
points; since there is a point, that leaves no choice.  So a key that is accepted as some kind is
accepted as that kind with no other sizes, and neither is any longer or shorter key with its sizes.

A key that is not accepted has a fault, and every call that parses a key reports one.
-/
import PointSharing.Proofs.Refusal.Evaluation
import PointSharing.Reconstruction

namespace PointSharing

/-- A call is refused. -/
def Refused {α : Type} (outcome : Except Error α) : Prop := ∃ e, outcome = .error e

/-- The same bytes with other declared sizes, or more or fewer bytes with the same sizes. -/
def Mislabels (bytes bytes' : Bytes) (sizes sizes' : List Nat) : Prop :=
  bytes' = bytes ∧ sizes' ≠ sizes ∨ sizes' = sizes ∧ bytes'.length ≠ bytes.length

/-! ### Calls with a fault -/

section

variable {α : Type} {faults more : List Fault}

theorem Reports.refused {accepted : Except Error α → Prop} {outcome : Except Error α}
    (h : Reports .error more accepted outcome) (hsub : faults ⊆ more)
    (hfault : firstError faults ≠ none) : Refused outcome := by
  cases hfirst : firstError more with
  | some e => exact ⟨e, h.eq_refused hfirst⟩
  | none => exact absurd (firstError_eq_none_of_subset hfirst hsub) hfault

theorem refused_of_eq_refuse {call : Except Error α} {f : Unit → Except Error α}
    (h : call = (refuse faults >>= f)) (hfault : firstError faults ≠ none) : Refused call := by
  obtain ⟨e, hfirst⟩ := Option.ne_none_iff_exists'.mp hfault
  refine ⟨e, ?_⟩
  rw [h, refuse, hfirst]
  rfl

theorem Refused.bind {β : Type} {call : Except Error α} (h : Refused call)
    (f : α → Except Error β) : Refused (call >>= f) := by
  obtain ⟨e, rfl⟩ := h
  exact ⟨e, rfl⟩

/-- A call that parses two keys is refused if either of them is. -/
theorem Refused.bind_right {β : Type} {call : Except Error α} {f : α → Except Error β}
    (h : ∀ a, Refused (f a)) : Refused (call >>= f) := by
  cases call with
  | error e => exact ⟨e, rfl⟩
  | ok a => exact h a

end

namespace EvaluationReports

variable {plain verifiable : List Fault} {n d size : Nat} {evaluate : UInt64 → Except Error Bytes}
  {evaluateAll : Except Error Bytes} {one : UInt64 → Except Error Proved}
  {batch : List UInt64 → Except Error Proved} {all : Except Error Proved}
  (h : EvaluationReports plain verifiable n d size evaluate evaluateAll one batch all)

include h

theorem refused_plain (hfault : firstError plain ≠ none) :
    (∀ index, Refused (evaluate index)) ∧ Refused evaluateAll :=
  ⟨fun index => (h.evaluate index).refused (List.subset_append_left _ _) hfault,
    h.evaluateAll.refused (subset_cons_append _ _ _) hfault⟩

theorem refused_verifiable (hfault : firstError verifiable ≠ none) :
    (∀ index, Refused (one index)) ∧ (∀ queries, Refused (batch queries)) ∧ Refused all := by
  refine ⟨fun index => (h.one index).refused (List.subset_append_left _ _) hfault, ?_,
    h.all.refused (subset_cons_append _ _ _) hfault⟩
  intro queries
  refine (h.batch queries).refused ?_ hfault
  rw [List.append_assoc]
  exact subset_cons_append _ _ _

end EvaluationReports

/-- A byte that is there has the value that it is read as. -/
theorem map_toNat_getElem? {bytes : Bytes} {i n : Nat} (hlt : i < bytes.length)
    (h : (bytes.getD i 0).toNat = n) : bytes[i]?.map UInt8.toNat = some n := by
  rw [List.getD_eq_getElem?_getD, List.getElem?_eq_getElem hlt] at h
  rw [List.getElem?_eq_getElem hlt, ← h]
  rfl

/-! ### One special point -/

namespace Point

/-- A key is not parsed, and every call that parses it is refused. -/
def Key.Unusable (setup : Setup) (key : Key) : (verifiable : Bool) → Prop
  | false => Refused (key.parse false) ∧
      (∀ index, Refused (evaluate setup.prg key index)) ∧
      Refused (evaluateAll setup.prg key) ∧
      ∀ other index, Refused (evaluatePair setup.prg ⟨key, other⟩ index) ∧
        Refused (evaluatePair setup.prg ⟨other, key⟩ index)
  | true => Refused (key.parse true) ∧
      (∀ index, Refused (Verified.evaluate setup key index)) ∧
      (∀ queries, Refused (Verified.evaluateBatch setup key queries)) ∧
      Refused (Verified.evaluateAll setup key)

variable {key other : Key} {verifiable : Bool}

theorem Key.unusable (setup : Setup) (h : firstError (key.faults verifiable) ≠ none) :
    key.Unusable setup verifiable := by
  have hparse := refused_of_eq_refuse (key.parse_eq_refuse verifiable) h
  have hreports := evaluationReports setup key
  cases verifiable with
  | false =>
      obtain ⟨hone, hall⟩ := hreports.refused_plain h
      refine ⟨hparse, hone, hall, fun other index => ⟨(hone index).bind _, ?_⟩⟩
      exact Refused.bind_right fun share => (hone index).bind _
  | true => exact ⟨hparse, hreports.refused_verifiable h⟩

section

variable (h : firstError (key.faults verifiable) = none)

include h

theorem Key.length_bytes :
    key.bytes.length = 18 * key.rangeSize + 18 + key.dataSize + if verifiable then 64 else 0 :=
  (firstError_faults_eq_none_iff.mp h).length.trans (Layout.size_pointTable _ _ _)

theorem Key.rangeByte : key.bytes[0]?.map UInt8.toNat = some key.rangeSize := by
  have hlt : 0 < key.bytes.length := by
    rw [key.length_bytes h]
    omega
  refine map_toNat_getElem? hlt ?_
  exact (Layout.header_eq_getD rfl key.bytes).symm.trans
    (firstError_faults_eq_none_iff.mp h).rangeSize

/-- No other size of an output gives the length of the key. -/
theorem Key.length_eq_iff (d : Nat) :
    key.bytes.length = 18 * key.rangeSize + 18 + d + (if verifiable then 64 else 0)
      ↔ d = key.dataSize := by
  rw [key.length_bytes h]
  omega

/-- No other declaration for the same bytes is without faults, nor is one for other lengths. -/
theorem Key.firstError_ne_none_of_mislabels
    (hother : Mislabels key.bytes other.bytes [key.dataSize, key.rangeSize]
      [other.dataSize, other.rangeSize]) : firstError (other.faults verifiable) ≠ none := by
  intro hnone
  have hlength' := other.length_bytes hnone
  rcases hother with ⟨hbytes, hne⟩ | ⟨heq, hlength⟩
  · have hrange : other.rangeSize = key.rangeSize := by
      have hbyte := other.rangeByte hnone
      rw [hbytes, key.rangeByte h] at hbyte
      exact (Option.some.inj hbyte).symm
    have hdata : other.dataSize = key.dataSize := by
      rw [hbytes, hrange] at hlength'
      exact (key.length_eq_iff h _).mp hlength'
    exact hne (by rw [hrange, hdata])
  · simp only [List.cons.injEq] at heq
    refine hlength ?_
    rw [hlength', key.length_bytes h, heq.1, heq.2.1]

end

end Point

/-! ### Several special points -/

namespace MultiPoint

section

variable {bytes bytes' : Bytes} {n points d n' points' d' size : Nat}

theorem firstError_keyFaults_eq_none_iff :
    firstError (keyFaults bytes n points d size) = none ↔
      n ≤ 64 ∧ (points ≠ 0 ∧ points ≤ 32) ∧ size ≤ maxSize ∧ bytes.length = size ∧
        (bytes.getD 0 0).toNat = n ∧ (bytes.getD 1 0).toNat = points := by
  simp [firstError_eq_none_iff, keyFaults]

/-- The two bytes that say how many bits and points a key is for. -/
theorem header_of_none (h : firstError (keyFaults bytes n points d size) = none)
    (hsize : 2 ≤ size) : bytes[0]?.map UInt8.toNat = some n ∧
      bytes[1]?.map UInt8.toNat = some points := by
  obtain ⟨-, -, -, hlength, hrange, hpoints⟩ := firstError_keyFaults_eq_none_iff.mp h
  exact ⟨map_toNat_getElem? (by omega) hrange, map_toNat_getElem? (by omega) hpoints⟩

variable (before after : Nat → Nat → Nat)
  (h : firstError (keyFaults bytes n points d (before n points + d * points + after n points))
    = none)

include h

/-- No other size of an output gives the length of the key, as there is at least one output. -/
theorem length_eq_iff (x : Nat) :
    bytes.length = before n points + x * points + after n points ↔ x = d := by
  obtain ⟨-, ⟨hpos, -⟩, -, hlength, -, -⟩ := firstError_keyFaults_eq_none_iff.mp h
  constructor
  · intro heq
    have hmul : x * points = d * points := by omega
    exact Nat.eq_of_mul_eq_mul_right (Nat.pos_of_ne_zero hpos) hmul
  · rintro rfl
    exact hlength

/-- No other declaration for the same bytes is without faults, nor is one for other lengths. -/
theorem firstError_ne_none_of_mislabels
    (hother : Mislabels bytes bytes' [d, n, points] [d', n', points']) :
    firstError (keyFaults bytes' n' points' d'
      (before n' points' + d' * points' + after n' points')) ≠ none := by
  intro hnone
  obtain ⟨-, -, -, hkey, hrange, hpoints⟩ := firstError_keyFaults_eq_none_iff.mp h
  obtain ⟨-, -, -, hkey', hrange', hpoints'⟩ := firstError_keyFaults_eq_none_iff.mp hnone
  rcases hother with ⟨rfl, hne⟩ | ⟨heq, hlength⟩
  · obtain rfl : n' = n := hrange'.symm.trans hrange
    obtain rfl : points' = points := hpoints'.symm.trans hpoints
    have hdata : d' = d := (length_eq_iff before after h d').mp hkey'
    exact hne (by rw [hdata])
  · simp only [List.cons.injEq] at heq
    refine hlength ?_
    rw [hkey', hkey, heq.1, heq.2.1, heq.2.2.1]

end

/-- A key is not parsed, and every call that parses it is refused. -/
def Key.Unusable (setup : Setup) (key : Key) : (verifiable : Bool) → Prop
  | false => Refused (key.parse false) ∧
      (∀ index, Refused (evaluate setup.prg key index)) ∧
      Refused (evaluateAll setup.prg key) ∧
      (∀ other index, Refused (evaluatePair setup.prg ⟨key, other⟩ index) ∧
        Refused (evaluatePair setup.prg ⟨other, key⟩ index)) ∧
      ∀ other, Refused (Compressed.ofPair ⟨key, other⟩) ∧ Refused (Compressed.ofPair ⟨other, key⟩)
  | true => Refused (key.parse true) ∧
      (∀ index, Refused (Verified.evaluate setup key index)) ∧
      (∀ queries, Refused (Verified.evaluateBatch setup key queries)) ∧
      Refused (Verified.evaluateAll setup key)

variable {key : Key} {verifiable : Bool}

theorem Key.unusable (setup : Setup) (h : firstError (key.faults verifiable) ≠ none) :
    key.Unusable setup verifiable := by
  have hparse := refused_of_eq_refuse (key.parse_eq_refuse verifiable) h
  have hreports := evaluationReports setup key
  cases verifiable with
  | false =>
      obtain ⟨hone, hall⟩ := hreports.refused_plain h
      refine ⟨hparse, hone, hall, fun other index => ⟨(hone index).bind _, ?_⟩,
        fun other => ⟨hparse.bind _, ?_⟩⟩
      · exact Refused.bind_right fun share => (hone index).bind _
      · exact Refused.bind_right fun parts => hparse.bind _
  | true => exact ⟨hparse, hreports.refused_verifiable h⟩

/-! ### Compressed keys -/

namespace Compressed

/-- A compressed key is not accepted, and every call that reads it is refused. -/
def Unusable (setup : Setup) (key : Compressed) : Prop :=
  Refused key.checkedLayout ∧ Refused key.split ∧ Refused (key.decompress setup.prg)

variable {key : Compressed}

theorem unusable (setup : Setup) (h : firstError key.faults ≠ none) : key.Unusable setup := by
  have hlayout := refused_of_eq_refuse (checkedLayout_eq_refuse key) h
  refine ⟨hlayout, hlayout.bind _, ?_⟩
  exact (reports_decompress setup.prg key).refused (subset_cons_append _ _ _) h

end Compressed

end MultiPoint

/-! ### All kinds of keys -/

/-- **The sizes that are declared for an accepted key are in its bytes**, and every call refuses the
same bytes with other sizes, and more or fewer bytes with the same sizes. -/
theorem sizes_of_parse (setup : Setup) :
    (∀ (verifiable : Bool) (key : Point.Key) (parts : Point.Parts),
      key.parse verifiable = .ok parts →
      key.bytes[0]?.map UInt8.toNat = some key.rangeSize ∧
      (∀ d, key.bytes.length = 18 * key.rangeSize + 18 + d + (if verifiable then 64 else 0)
        ↔ d = key.dataSize) ∧
      ∀ other : Point.Key,
        Mislabels key.bytes other.bytes [key.dataSize, key.rangeSize]
          [other.dataSize, other.rangeSize] →
        other.Unusable setup verifiable) ∧
    (∀ (verifiable : Bool) (key : MultiPoint.Key) (parts : MultiPoint.Parts),
      key.parse verifiable = .ok parts →
      (key.bytes[0]?.map UInt8.toNat = some key.rangeSize ∧
        key.bytes[1]?.map UInt8.toNat = some key.points) ∧
      (∀ d, key.bytes.length = 24 * key.rangeSize * key.points + 19 + d * key.points
          + (if verifiable then 64 * key.points else 0)
        ↔ d = key.dataSize) ∧
      ∀ other : MultiPoint.Key,
        Mislabels key.bytes other.bytes [key.dataSize, key.rangeSize, key.points]
          [other.dataSize, other.rangeSize, other.points] →
        other.Unusable setup verifiable) ∧
    (∀ (key : MultiPoint.Compressed) (layout : Layout), key.checkedLayout = .ok layout →
      (key.bytes[0]?.map UInt8.toNat = some key.rangeSize ∧
        key.bytes[1]?.map UInt8.toNat = some key.points) ∧
      (∀ d, key.bytes.length = 24 * key.rangeSize * key.points + 34 + d * key.points
        ↔ d = key.dataSize) ∧
      ∀ other : MultiPoint.Compressed,
        Mislabels key.bytes other.bytes [key.dataSize, key.rangeSize, key.points]
          [other.dataSize, other.rangeSize, other.points] →
        other.Unusable setup) := by
  refine ⟨?_, ?_, ?_⟩
  · intro verifiable key parts hparse
    have hnone := (firstError_eq_none_iff_exists_ok (key.parse_eq_refuse verifiable)).mpr
      ⟨parts, hparse⟩
    refine ⟨key.rangeByte hnone, key.length_eq_iff hnone, fun other hother => ?_⟩
    exact other.unusable setup (key.firstError_ne_none_of_mislabels hnone hother)
  · intro verifiable key parts hparse
    have hnone := (firstError_eq_none_iff_exists_ok (key.parse_eq_refuse verifiable)).mpr
      ⟨parts, hparse⟩
    let before (n points : Nat) : Nat := 24 * n * points + 19
    let after (_ points : Nat) : Nat := if verifiable then 64 * points else 0
    refine ⟨MultiPoint.header_of_none hnone (by omega),
      MultiPoint.length_eq_iff before after hnone, fun other hother => ?_⟩
    exact other.unusable setup
      (MultiPoint.firstError_ne_none_of_mislabels before after hnone hother)
  · intro key layout hlayout
    have hnone := (firstError_eq_none_iff_exists_ok key.checkedLayout_eq_refuse).mpr
      ⟨layout, hlayout⟩
    let before (n points : Nat) : Nat := 24 * n * points + 34
    let after (_ _ : Nat) : Nat := 0
    refine ⟨MultiPoint.header_of_none hnone (by omega),
      MultiPoint.length_eq_iff before after hnone, fun other hother => ?_⟩
    exact other.unusable setup
      (MultiPoint.firstError_ne_none_of_mislabels before after hnone hother)

/-- Keys of arbitrary content, and other declarations that give the same length. -/
theorem sizes_of_parse_same_length :
    let setup : Setup := ⟨.ofBlock 0, ⟨1, 2⟩⟩
    let bytes : Bytes := 1 :: List.replicate 37 0xab
    let bytesOfPoints : Bytes := 1 :: 1 :: List.replicate 107 0xab
    let compressed : Bytes := 1 :: 2 :: List.replicate 84 0xab
    (∃ parts, Point.Key.parse ⟨bytes, 2, 1⟩ false = .ok parts) ∧
    Refused (Point.evaluate setup.prg ⟨bytes, 20, 0⟩ 0) ∧
    (∃ parts, MultiPoint.Key.parse ⟨bytesOfPoints, 2, 1, 1⟩ true = .ok parts) ∧
    Refused (MultiPoint.Verified.evaluateAll setup ⟨bytesOfPoints, 26, 0, 1⟩) ∧
    (∃ pair, MultiPoint.Compressed.split ⟨compressed, 2, 1, 2⟩ = .ok pair) ∧
    Refused (MultiPoint.Compressed.decompress setup.prg ⟨compressed, 28, 1, 1⟩) := by
  intro setup bytes bytesOfPoints compressed
  obtain ⟨hpoint, hpoints, hcompressed⟩ := sizes_of_parse setup
  have hparse : Point.Key.parse ⟨bytes, 2, 1⟩ false = .ok _ :=
    Point.Key.parse_eq_ok_iff.mpr ⟨by constructor <;> decide, rfl⟩
  have hparsePoints : MultiPoint.Key.parse ⟨bytesOfPoints, 2, 1, 1⟩ true = .ok _ :=
    MultiPoint.Key.parse_eq_ok_iff.mpr ⟨by constructor <;> decide, rfl⟩
  have hformed : MultiPoint.Compressed.WellFormed ⟨compressed, 2, 1, 2⟩ := by
    constructor <;> decide
  have hlayout := MultiPoint.Compressed.checkedLayout_eq_ok_iff.mpr ⟨hformed, rfl⟩
  obtain ⟨-, -, hother⟩ := hpoint false _ _ hparse
  obtain ⟨-, -, hotherPoints⟩ := hpoints true _ _ hparsePoints
  obtain ⟨-, -, hotherCompressed⟩ := hcompressed _ _ hlayout
  obtain ⟨-, hevaluate, -, -⟩ := hother ⟨bytes, 20, 0⟩ (.inl ⟨rfl, by decide⟩)
  obtain ⟨-, -, -, hall⟩ := hotherPoints ⟨bytesOfPoints, 26, 0, 1⟩ (.inl ⟨rfl, by decide⟩)
  obtain ⟨-, -, hdecompress⟩ := hotherCompressed ⟨compressed, 28, 1, 1⟩ (.inl ⟨rfl, by decide⟩)
  exact ⟨⟨_, hparse⟩, hevaluate 0, ⟨_, hparsePoints⟩, hall,
    ⟨_, MultiPoint.Compressed.split_eq_ok_iff.mpr ⟨hformed, rfl⟩⟩, hdecompress⟩

end PointSharing
