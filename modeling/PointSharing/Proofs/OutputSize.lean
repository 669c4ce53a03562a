/-
How long the outputs of a whole domain are, and what becomes of those that are too long.

A domain of 32 bits has so many outputs that a key of a few gigabytes is enough for them not to fit
into a buffer together, and such a key is accepted: its size depends on the number of bits and not
on the number of indices.  Every call that makes room for several outputs works out how much.  Calls
with a list of queries refuse a length that is not a size, and so does decompression; they fail only
if the length is a size but not that of a buffer.  Calls that evaluate the whole domain fail in both
cases.  Everything else about these calls is the same: outputs that fit into a buffer are all there.

What a tree of the declared sizes gives is derived once for trees.  The keys with which the calls
that evaluate a whole domain fail are zero but for their header, and only their length is used.
-/
import PointSharing.Proofs.DeclaredSizes

namespace PointSharing

/-- What a call that evaluates a whole domain gives, by the length of all outputs together. -/
structure GivesAll {α : Type} (output : α → Bytes) (n d : Nat) (outcome : Except Error α) :
    Prop where
  /-- Outputs that fit into a buffer are all there, each in a place that can be addressed. -/
  fits : domainSize n * d ≤ maxBuffer → ∃ all, outcome = .ok all ∧
    (output all).length = domainSize n * d ∧
    ∀ i, i < domainSize n → i * d ≤ maxSize ∧ (i + 1) * d ≤ (output all).length
  /-- Outputs that do not are never refused as a size: the call fails. -/
  tooLarge : maxBuffer < domainSize n * d → outcome = .error (.outputTooLarge (domainSize n * d))

/-- What a call with outputs of `d` bytes each gives if they do not fit into a buffer together. -/
structure RefusesLarge {α : Type} (length d : Nat) (outcome : Except Error α) : Prop where
  /-- A length that is not a size is refused. -/
  refused : maxSize < length → outcome = .error (.inputSize maxSize d)
  /-- For a size that no buffer has the call fails. -/
  failed : maxBuffer < length → length ≤ maxSize → outcome = .error (.outputTooLarge length)

/-! ### Making room -/

theorem allocate_eq_error {length : Nat} (h : maxBuffer < length) :
    allocate length = .error (.outputTooLarge length) :=
  if_neg (Nat.not_le.mpr h)

/-- Whatever a call goes on with, it makes room for its outputs first. -/
theorem refusesLarge_allocateOutputs {α : Type} (count d : Nat) (f : Unit → Except Error α) :
    RefusesLarge (count * d) d (allocateOutputs count d >>= f) where
  refused := by
    intro hlarge
    rw [allocateOutputs, outputLength, checkedMul, if_neg (Nat.not_le.mpr hlarge)]
    rfl
  failed := by
    intro hlarge hsize
    rw [allocateOutputs, outputLength, checkedMul, if_pos hsize, ok_bind, allocate_eq_error hlarge]
    rfl

/-! ### Trees -/

/-- No block of a string of blocks that fits into a buffer lies beyond it. -/
theorem block_le {count d i : Nat} (hsize : count * d ≤ maxBuffer) (hi : i < count) :
    i * d ≤ maxSize ∧ (i + 1) * d ≤ count * d := by
  have hlast : (i + 1) * d ≤ count * d := Nat.mul_le_mul_right d hi
  have hfirst : i * d ≤ (i + 1) * d := Nat.mul_le_mul_right d (Nat.le_succ i)
  have hbuffer := maxBuffer_le_maxSize
  exact ⟨by omega, hlast⟩

section

variable {σ : Type}

theorem Evaluator.Sized.givesAll {e : Evaluator σ} (h : e.Sized)
    (hn : e.rangeSize ≤ maxRangeBits) : GivesAll id e.rangeSize e.dataSize e.evaluateAll where
  fits := by
    intro hsize
    obtain ⟨shares, hall, hlength, -⟩ := h.evaluateAll hn hsize
    refine ⟨shares, hall, hlength, ?_⟩
    intro i hi
    rw [id, hlength]
    exact block_le hsize hi
  tooLarge := by
    intro hlarge
    rw [Evaluator.evaluateAll, allocate_eq_error hlarge]
    rfl

theorem Prover.givesAll (p : Prover σ) (h : p.Sized) (hn : p.rangeSize ≤ maxRangeBits) :
    GivesAll Proved.output p.rangeSize p.dataSize p.proveAll where
  fits := by
    intro hsize
    have hlength := p.length_output_visited h (allIndices p.rangeSize)
    rw [length_allIndices] at hlength
    refine ⟨_, p.proveAll_eq_ok h.levels hn hsize, hlength, ?_⟩
    intro i hi
    rw [hlength]
    exact block_le hsize hi
  tooLarge := by
    intro hlarge
    rw [proveAll, allocate_eq_error hlarge]
    rfl

theorem Prover.refusesLarge (p : Prover σ) {queries : List UInt64}
    (hqueries : ∀ index ∈ queries, index.toNat < domainSize p.rangeSize) :
    RefusesLarge (queries.length * p.dataSize) p.dataSize (p.proveAt queries) := by
  rw [proveAt, checkQueries_eq_ok_iff.mpr hqueries]
  exact refusesLarge_allocateOutputs _ _ _

end

/-! ### One special point -/

namespace Point

variable {key : Key} {parts : Parts}

theorem givesAll (prg : Prg) (hparse : key.parse false = .ok parts)
    (hn : key.rangeSize ≤ maxFullDomainBits) :
    GivesAll id key.rangeSize key.dataSize (evaluateAll prg key) := by
  have hsized := Parts.sized_evaluator prg (Key.length_corrections hparse) key.dataSize
  rw [evaluateAll_eq hparse hn]
  exact hsized.givesAll (Key.parse_eq_ok_iff.mp hparse).1.supported

theorem Verified.givesAll (setup : Setup) (hparse : key.parse true = .ok parts)
    (hn : key.rangeSize ≤ maxFullDomainBits) :
    GivesAll Proved.output key.rangeSize key.dataSize (evaluateAll setup key) := by
  have hsized := Parts.sized_evaluator setup.prg (Key.length_corrections hparse) key.dataSize
  rw [evaluateAll_eq (Key.prover_eq setup hparse) hn]
  exact (parts.prover setup key.rangeSize key.dataSize).givesAll hsized
    (Key.parse_eq_ok_iff.mp hparse).1.supported

theorem Verified.refusesLarge (setup : Setup) (hparse : key.parse true = .ok parts)
    (hn : key.rangeSize ≤ maxFullDomainBits) {queries : List UInt64}
    (hqueries : ∀ index ∈ queries, index.toNat < domainSize key.rangeSize) :
    RefusesLarge (queries.length * key.dataSize) key.dataSize
      (evaluateBatch setup key queries) := by
  rw [evaluateBatch_eq (Key.prover_eq setup hparse) hn]
  exact (parts.prover setup key.rangeSize key.dataSize).refusesLarge hqueries

/-- A key of the declared sizes that is zero but for its header. -/
def zeroKey (n d : Nat) (verifiable : Bool) : Key where
  bytes := UInt8.ofNat n :: Bytes.zeros (18 * n + 17 + d + if verifiable then 64 else 0)
  dataSize := d
  rangeSize := n

/-- If a key of some sizes can be addressed, the one that is zero is accepted. -/
theorem exists_parse_zeroKey {n d : Nat} {verifiable : Bool} (hn : n ≤ 64)
    (hsize : 18 * n + 18 + d + (if verifiable then 64 else 0) ≤ maxSize) :
    ∃ parts, (zeroKey n d verifiable).parse verifiable = .ok parts := by
  have hlength : (zeroKey n d verifiable).bytes.length
      = 18 * n + 18 + d + if verifiable then 64 else 0 := by
    rw [zeroKey, List.length_cons, Bytes.length_zeros]
    omega
  have hbyte : ((zeroKey n d verifiable).bytes.getD 0 0).toNat = n := by
    rw [zeroKey, List.getD_cons_zero, UInt8.toNat_ofNat']
    exact Nat.mod_eq_of_lt (by omega)
  refine (firstError_eq_none_iff_exists_ok (Key.parse_eq_refuse _ verifiable)).mp ?_
  simp only [firstError_eq_none_iff, Key.faults, hlength, hbyte, List.forall_mem_cons,
    List.not_mem_nil, false_imp_iff, implies_true, and_true, decide_eq_false_iff_not]
  exact ⟨Nat.not_lt.mpr hn, Nat.not_lt.mpr hsize, fun h => h rfl, fun h => h rfl⟩

end Point

/-! ### Several special points -/

namespace MultiPoint

variable {key : Key} {parts : Parts}

theorem givesAll (prg : Prg) (hparse : key.parse false = .ok parts)
    (hn : key.rangeSize ≤ maxFullDomainBits) :
    GivesAll id key.rangeSize key.dataSize (evaluateAll prg key) := by
  have hsized := Parts.sized_evaluator prg (Key.length_levels hparse) key.dataSize
  rw [evaluateAll_eq hparse hn]
  exact hsized.givesAll (Key.parse_eq_ok_iff.mp hparse).1.supported

theorem Verified.givesAll (setup : Setup) (hparse : key.parse true = .ok parts)
    (hn : key.rangeSize ≤ maxFullDomainBits) :
    GivesAll Proved.output key.rangeSize key.dataSize (evaluateAll setup key) := by
  have hsized := Parts.sized_evaluator setup.prg (Key.length_levels hparse) key.dataSize
  rw [evaluateAll_eq (Key.prover_eq setup hparse) hn]
  exact (parts.prover setup key.rangeSize key.dataSize).givesAll hsized
    (Key.parse_eq_ok_iff.mp hparse).1.supported

theorem Verified.refusesLarge (setup : Setup) (hparse : key.parse true = .ok parts)
    (hn : key.rangeSize ≤ maxFullDomainBits) {queries : List UInt64}
    (hqueries : ∀ index ∈ queries, index.toNat < domainSize key.rangeSize) :
    RefusesLarge (queries.length * key.dataSize) key.dataSize
      (evaluateBatch setup key queries) := by
  rw [evaluateBatch_eq (Key.prover_eq setup hparse) hn]
  exact (parts.prover setup key.rangeSize key.dataSize).refusesLarge hqueries

theorem Compressed.refusesLarge (prg : Prg) {key : Compressed} {layout : Layout}
    (hlayout : key.checkedLayout = .ok layout) (hn : key.rangeSize ≤ maxFullDomainBits) :
    RefusesLarge (domainSize key.rangeSize * key.dataSize) key.dataSize (key.decompress prg) := by
  rw [decompress, checkFullDomain_eq_ok_iff.mpr hn, hlayout]
  exact refusesLarge_allocateOutputs _ _ _

/-- A string that is zero but for the header of a key with several points. -/
def zeroBytes (n points size : Nat) : Bytes :=
  UInt8.ofNat n :: UInt8.ofNat points :: Bytes.zeros (size - 2)

theorem firstError_keyFaults_zeroBytes {n points size : Nat} (d : Nat) (hn : n ≤ 64)
    (hpoints : 1 ≤ points ∧ points ≤ 32) (hheader : 2 ≤ size) (hsize : size ≤ maxSize) :
    firstError (keyFaults (zeroBytes n points size) n points d size) = none := by
  have hlength : (zeroBytes n points size).length = size := by
    rw [zeroBytes, List.length_cons, List.length_cons, Bytes.length_zeros]
    omega
  have hrange : ((zeroBytes n points size).getD 0 0).toNat = n := by
    rw [zeroBytes, List.getD_cons_zero, UInt8.toNat_ofNat']
    exact Nat.mod_eq_of_lt (by omega)
  have hcount : ((zeroBytes n points size).getD 1 0).toNat = points := by
    rw [zeroBytes, List.getD_cons_succ, List.getD_cons_zero, UInt8.toNat_ofNat']
    exact Nat.mod_eq_of_lt (by omega)
  refine firstError_keyFaults_eq_none_iff.mpr ?_
  exact ⟨hn, ⟨Nat.ne_of_gt hpoints.1, hpoints.2⟩, hsize, hlength, hrange, hcount⟩

/-- A key of the declared sizes that is zero but for its header. -/
def zeroKey (n points d : Nat) (verifiable : Bool) : Key where
  bytes := zeroBytes n points
    (24 * n * points + 19 + d * points + if verifiable then 64 * points else 0)
  dataSize := d
  rangeSize := n
  points := points

/-- If a key of some sizes can be addressed, the one that is zero is accepted. -/
theorem exists_parse_zeroKey {n points d : Nat} {verifiable : Bool} (hn : n ≤ 64)
    (hpoints : 1 ≤ points ∧ points ≤ 32)
    (hsize : 24 * n * points + 19 + d * points + (if verifiable then 64 * points else 0)
      ≤ maxSize) : ∃ parts, (zeroKey n points d verifiable).parse verifiable = .ok parts := by
  refine (firstError_eq_none_iff_exists_ok (Key.parse_eq_refuse _ verifiable)).mp ?_
  exact firstError_keyFaults_zeroBytes d hn hpoints (by omega) hsize

/-- A compressed key of the declared sizes that is zero but for its header. -/
def Compressed.zeroKey (n points d : Nat) : Compressed where
  bytes := zeroBytes n points (24 * n * points + 34 + d * points)
  dataSize := d
  rangeSize := n
  points := points

theorem Compressed.exists_checkedLayout_zeroKey {n points d : Nat} (hn : n ≤ 64)
    (hpoints : 1 ≤ points ∧ points ≤ 32) (hsize : 24 * n * points + 34 + d * points ≤ maxSize) :
    ∃ layout, (zeroKey n points d).checkedLayout = .ok layout := by
  refine (firstError_eq_none_iff_exists_ok (checkedLayout_eq_refuse _)).mp ?_
  exact firstError_keyFaults_zeroBytes d hn hpoints (by omega) hsize

end MultiPoint

/-! ### All kinds of keys -/

/-- **An evaluation of the whole domain gives all of its outputs if they fit into a buffer, and
fails if they do not**, for every accepted key of a domain that may be visited as a whole.  Calls
with a list of queries and decompression fail as well, but refuse a length that is not a size. -/
theorem givesAll_of_parse (setup : Setup) :
    (∀ (key : Point.Key) (parts : Point.Parts), key.parse false = .ok parts →
      key.rangeSize ≤ 32 →
      GivesAll id key.rangeSize key.dataSize (Point.evaluateAll setup.prg key)) ∧
    (∀ (key : Point.Key) (parts : Point.Parts), key.parse true = .ok parts →
      key.rangeSize ≤ 32 →
      GivesAll Proved.output key.rangeSize key.dataSize (Point.Verified.evaluateAll setup key) ∧
        ∀ queries : List UInt64, (∀ index ∈ queries, index.toNat < domainSize key.rangeSize) →
          RefusesLarge (queries.length * key.dataSize) key.dataSize
            (Point.Verified.evaluateBatch setup key queries)) ∧
    (∀ (key : MultiPoint.Key) (parts : MultiPoint.Parts), key.parse false = .ok parts →
      key.rangeSize ≤ 32 →
      GivesAll id key.rangeSize key.dataSize (MultiPoint.evaluateAll setup.prg key)) ∧
    (∀ (key : MultiPoint.Key) (parts : MultiPoint.Parts), key.parse true = .ok parts →
      key.rangeSize ≤ 32 →
      GivesAll Proved.output key.rangeSize key.dataSize
          (MultiPoint.Verified.evaluateAll setup key) ∧
        ∀ queries : List UInt64, (∀ index ∈ queries, index.toNat < domainSize key.rangeSize) →
          RefusesLarge (queries.length * key.dataSize) key.dataSize
            (MultiPoint.Verified.evaluateBatch setup key queries)) ∧
    ∀ (key : MultiPoint.Compressed) (layout : Layout), key.checkedLayout = .ok layout →
      key.rangeSize ≤ 32 →
      RefusesLarge (domainSize key.rangeSize * key.dataSize) key.dataSize
        (key.decompress setup.prg) := by
  refine ⟨?_, ?_, ?_, ?_, ?_⟩
  · intro key parts hparse hn
    exact Point.givesAll setup.prg hparse hn
  · intro key parts hparse hn
    exact ⟨Point.Verified.givesAll setup hparse hn, fun queries hqueries =>
      Point.Verified.refusesLarge setup hparse hn hqueries⟩
  · intro key parts hparse hn
    exact MultiPoint.givesAll setup.prg hparse hn
  · intro key parts hparse hn
    exact ⟨MultiPoint.Verified.givesAll setup hparse hn, fun queries hqueries =>
      MultiPoint.Verified.refusesLarge setup hparse hn hqueries⟩
  · intro key layout hlayout hn
    exact MultiPoint.Compressed.refusesLarge setup.prg hlayout hn

/-- Small keys whose outputs are all there, and keys of a few gigabytes whose outputs are too long:
a list of queries and decompression refuse them.  With half as many bytes in an output their length
is a size, and decompression fails. -/
theorem givesAll_of_parse_small_and_large :
    let setup : Setup := ⟨.ofBlock 0, ⟨1, 2⟩⟩
    let d : Nat := 1 <<< 32
    let half : Nat := 1 <<< 31
    (∃ shares, Point.evaluateAll setup.prg (Point.zeroKey 2 3 false) = .ok shares ∧
      shares.length = 12) ∧
    (∃ proved, Point.Verified.evaluateAll setup (Point.zeroKey 2 3 true) = .ok proved ∧
      proved.output.length = 12) ∧
    (∃ shares, MultiPoint.evaluateAll setup.prg (MultiPoint.zeroKey 2 1 3 false) = .ok shares ∧
      shares.length = 12) ∧
    MultiPoint.Verified.evaluateBatch setup (MultiPoint.zeroKey 32 1 d true) (allIndices 32)
      = .error (.inputSize maxSize d) ∧
    MultiPoint.Compressed.decompress setup.prg (MultiPoint.Compressed.zeroKey 32 1 d)
      = .error (.inputSize maxSize d) ∧
    MultiPoint.Compressed.decompress setup.prg (MultiPoint.Compressed.zeroKey 32 1 half)
      = .error (.outputTooLarge (domainSize 32 * half)) := by
  intro setup d half
  obtain ⟨hpoint, hpointProved, hpoints, hpointsProved, hcompressed⟩ := givesAll_of_parse setup
  obtain ⟨_, hparse⟩ := @Point.exists_parse_zeroKey 2 3 false (by decide) (by decide)
  obtain ⟨_, hparseProved⟩ := @Point.exists_parse_zeroKey 2 3 true (by decide) (by decide)
  obtain ⟨_, hparsePoints⟩ :=
    @MultiPoint.exists_parse_zeroKey 2 1 3 false (by decide) (by decide) (by decide)
  obtain ⟨_, hparseLarge⟩ :=
    @MultiPoint.exists_parse_zeroKey 32 1 d true (by decide) (by decide) (by decide)
  obtain ⟨_, hlayout⟩ :=
    @MultiPoint.Compressed.exists_checkedLayout_zeroKey 32 1 d (by decide) (by decide) (by decide)
  obtain ⟨_, hlayoutHalf⟩ :=
    @MultiPoint.Compressed.exists_checkedLayout_zeroKey 32 1 half (by decide) (by decide)
      (by decide)
  obtain ⟨shares, hshares, hlength, -⟩ :=
    (hpoint _ _ hparse (by decide)).fits (by decide)
  obtain ⟨proved, hproved, hlengthProved, -⟩ :=
    (hpointProved _ _ hparseProved (by decide)).1.fits (by decide)
  obtain ⟨sharesPoints, hsharesPoints, hlengthPoints, -⟩ :=
    (hpoints _ _ hparsePoints (by decide)).fits (by decide)
  have hlarge : maxSize < (allIndices 32).length * d := by
    rw [length_allIndices]
    decide
  exact ⟨⟨shares, hshares, hlength⟩, ⟨proved, hproved, hlengthProved⟩,
    ⟨sharesPoints, hsharesPoints, hlengthPoints⟩,
    ((hpointsProved _ _ hparseLarge (Nat.le_refl 32)).2 _
      fun index => lt_domainSize_of_mem_allIndices (by decide)).refused hlarge,
    (hcompressed _ _ hlayout (Nat.le_refl 32)).refused (by decide),
    (hcompressed _ _ hlayoutHalf (Nat.le_refl 32)).failed (by decide) (by decide)⟩

/-- The four calls that evaluate a whole domain fail for some keys that are accepted, and not with
the error that the other calls refuse such outputs with. -/
theorem evaluateAll_ne_inputSize :
    let setup : Setup := ⟨.ofBlock 0, ⟨1, 2⟩⟩
    let d : Nat := 1 <<< 32
    ((∃ parts, (Point.zeroKey 32 d false).parse false = .ok parts) ∧
      Point.evaluateAll setup.prg (Point.zeroKey 32 d false)
        = .error (.outputTooLarge (domainSize 32 * d))) ∧
    ((∃ parts, (Point.zeroKey 32 d true).parse true = .ok parts) ∧
      Point.Verified.evaluateAll setup (Point.zeroKey 32 d true)
        = .error (.outputTooLarge (domainSize 32 * d))) ∧
    ((∃ parts, (MultiPoint.zeroKey 32 1 d false).parse false = .ok parts) ∧
      MultiPoint.evaluateAll setup.prg (MultiPoint.zeroKey 32 1 d false)
        = .error (.outputTooLarge (domainSize 32 * d))) ∧
    (∃ parts, (MultiPoint.zeroKey 32 1 d true).parse true = .ok parts) ∧
      MultiPoint.Verified.evaluateAll setup (MultiPoint.zeroKey 32 1 d true)
        = .error (.outputTooLarge (domainSize 32 * d)) := by
  intro setup d
  have hlarge : maxBuffer < domainSize 32 * d := by decide
  have hn : (32 : Nat) ≤ maxFullDomainBits := Nat.le_refl 32
  obtain ⟨_, hpoint⟩ := @Point.exists_parse_zeroKey 32 d false (by decide) (by decide)
  obtain ⟨_, hpointProved⟩ := @Point.exists_parse_zeroKey 32 d true (by decide) (by decide)
  obtain ⟨_, hpoints⟩ :=
    @MultiPoint.exists_parse_zeroKey 32 1 d false (by decide) (by decide) (by decide)
  obtain ⟨_, hpointsProved⟩ :=
    @MultiPoint.exists_parse_zeroKey 32 1 d true (by decide) (by decide) (by decide)
  exact ⟨⟨⟨_, hpoint⟩, (Point.givesAll setup.prg hpoint hn).tooLarge hlarge⟩,
    ⟨⟨_, hpointProved⟩, (Point.Verified.givesAll setup hpointProved hn).tooLarge hlarge⟩,
    ⟨⟨_, hpoints⟩, (MultiPoint.givesAll setup.prg hpoints hn).tooLarge hlarge⟩,
    ⟨_, hpointsProved⟩, (MultiPoint.Verified.givesAll setup hpointsProved hn).tooLarge hlarge⟩

end PointSharing
