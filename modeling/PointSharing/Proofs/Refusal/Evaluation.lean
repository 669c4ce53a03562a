/-
Which evaluations are refused, and for what.

Every call that evaluates a key parses it first.  What parsing may find wrong with a key is the same
for all calls (`Key.faults`); calls that may visit the whole domain look for a domain that is too
large before that, and calls with queries look for those outside of the domain after it.  Only when
the length of a key has been checked is it known that there are bytes to compare with the declared
sizes, so the header comes last.

A key without faults stands for a tree of its declared sizes, whatever it holds.  So what remains
is the same for all kinds of keys and is derived once for trees: an evaluation gives all of its
outputs if they fit into a buffer.  That they do not is found last, when room is made for them.  A
single output is no longer than its key, so there is room for it wherever there is for the key.
-/
import PointSharing.Proofs.Fault
import PointSharing.Proofs.MultiPoint.Decompression
import PointSharing.Proofs.MultiPoint.Prover
import PointSharing.Proofs.Point.Prover

namespace PointSharing

/-- The fault of a call that may visit the whole domain. -/
def fullDomainFault (n : Nat) : Fault := ⟨32 < n, .domainTooLarge n 32⟩

/-- A call that loads a key and goes on with what it holds refuses for the faults of the key. -/
theorem bind_eq_of_refuse {α β : Type} {faults : List Fault} {load : Except Error α} {a : α}
    (h : load = (refuse faults >>= fun _ => .ok a)) (f : α → Except Error β) :
    (load >>= f) = (refuse faults >>= fun _ => f a) := by
  rw [h, bind_assoc]
  rfl

/-- If it may visit the whole domain, it looks for a domain that is too large before that. -/
theorem checkFullDomain_bind_eq_of_refuse {α β : Type} {faults : List Fault}
    {load : Except Error α} {a : α} (h : load = (refuse faults >>= fun _ => .ok a)) (n : Nat)
    (f : α → Except Error β) :
    (checkFullDomain n >>= fun _ => load >>= f)
      = (refuse (fullDomainFault n :: faults) >>= fun _ => f a) :=
  refuse_step (checkFullDomain_eq_refuse n) fun _ => bind_eq_of_refuse h f

theorem le_maxRangeBits_of_none {n : Nat} {faults : List Fault}
    (h : firstError (fullDomainFault n :: faults) = none) : n ≤ maxRangeBits := by
  have habsent := firstError_eq_none_iff.mp h (fullDomainFault n) (by simp)
  simp only [fullDomainFault, decide_eq_false_iff_not] at habsent
  rw [maxRangeBits]
  omega

/-- What the calls that evaluate a key of `size` bytes report, in the order in which they look for
it, and how long their outputs are if they report nothing.  The faults of the key itself are not the
same for evaluation with proof, which takes longer keys.  Several outputs may find no room; a single
one with proof does if the key did. -/
structure EvaluationReports (plain verifiable : List Fault) (n d size : Nat)
    (evaluate : UInt64 → Except Error Bytes) (evaluateAll : Except Error Bytes)
    (one : UInt64 → Except Error Proved) (batch : List UInt64 → Except Error Proved)
    (all : Except Error Proved) : Prop where
  evaluate : ∀ index, Reports .error (plain ++ queryFaults [index] n)
    (Succeeds fun share => share.length = d) (evaluate index)
  evaluateAll : Reports .error (fullDomainFault n :: plain ++ [bufferFault (domainSize n * d)])
    (Succeeds fun shares => shares.length = domainSize n * d) evaluateAll
  one : ∀ index, Reports .error (verifiable ++ queryFaults [index] n)
    (fun outcome => size ≤ maxBuffer → Succeeds (fun proved => proved.output.length = d) outcome)
    (one index)
  batch : ∀ queries : List UInt64,
    Reports .error
      (fullDomainFault n :: verifiable ++ queryFaults queries n ++ outputFaults queries.length d)
      (Succeeds fun proved => proved.output.length = queries.length * d) (batch queries)
  all : Reports .error (fullDomainFault n :: verifiable ++ [bufferFault (domainSize n * d)])
    (Succeeds fun proved => proved.output.length = domainSize n * d) all

/-! ### Trees -/

section

variable {σ : Type} {faults : List Fault}

/-- An index that is evaluated has an output of the declared size. -/
theorem Evaluator.reports_evaluate {e : Evaluator σ} (hsized : e.Sized) (index : UInt64) :
    Reports .error (faults ++ queryFaults [index] e.rangeSize)
      (Succeeds fun share => share.length = e.dataSize)
      (refuse faults >>= fun _ => e.evaluate index) :=
  reports_of_check (checkIndex_eq_refuse index e.rangeSize) (fun _ => rfl)
    fun _ => hsized.output (e.leafAt index)

/-- If the outputs of all indices fit into a buffer, an evaluation gives all of them. -/
theorem Evaluator.reports_evaluateAll {e : Evaluator σ} (hsized : e.Sized) :
    Reports .error
      (fullDomainFault e.rangeSize :: faults ++ [bufferFault (domainSize e.rangeSize * e.dataSize)])
      (Succeeds fun shares => shares.length = domainSize e.rangeSize * e.dataSize)
      (refuse (fullDomainFault e.rangeSize :: faults) >>= fun _ => e.evaluateAll) :=
  reports_of_check (allocate_eq_refuse _) (fun _ => rfl)
    fun hnone => hsized.length_table (le_maxRangeBits_of_none hnone)

namespace Prover

/-- An evaluation of some queries has an output of the declared size for each of them. -/
theorem reports_proveAt {p : Prover σ} (hsized : p.Sized) (queries : List UInt64) :
    Reports .error
      (faults ++ queryFaults queries p.rangeSize ++ outputFaults queries.length p.dataSize)
      (Succeeds fun proved => proved.output.length = queries.length * p.dataSize)
      (refuse faults >>= fun _ => p.proveAt queries) := by
  have hchecks : (checkQueries queries p.rangeSize
        >>= fun _ => allocateOutputs queries.length p.dataSize)
      = refuse (queryFaults queries p.rangeSize ++ outputFaults queries.length p.dataSize) := by
    rw [checkQueries_eq_refuse, allocateOutputs_eq_refuse, refuse_append]
  rw [List.append_assoc]
  exact reports_of_check hchecks (fun _ => (bind_assoc _ _ _).symm)
    fun _ => length_output_visited hsized queries

/-- A single output has no fault of its own if something that is no shorter fits into a buffer. -/
theorem reports_proveAt_singleton {p : Prover σ} (hsized : p.Sized) {size : Nat}
    (hsize : firstError faults = none → p.dataSize ≤ size) (index : UInt64) :
    Reports .error (faults ++ queryFaults [index] p.rangeSize)
      (fun outcome => size ≤ maxBuffer →
        Succeeds (fun proved => proved.output.length = p.dataSize) outcome)
      (refuse faults >>= fun _ => p.proveAt [index]) := by
  have hreports := @reports_proveAt σ faults p hsized [index]
  rw [List.length_singleton, Nat.one_mul] at hreports
  refine hreports.of_append fun hnone hfits => ?_
  rw [firstError_append, Option.or_eq_none_iff] at hnone
  have hbuffer : p.dataSize ≤ maxBuffer := Nat.le_trans (hsize hnone.1) hfits
  have haddressable : p.dataSize ≤ maxSize := Nat.le_trans hbuffer maxBuffer_le_maxSize
  simp [firstError_eq_none_iff, outputFaults, bufferFault, hbuffer, haddressable]

theorem reports_proveAll {p : Prover σ} (hsized : p.Sized) :
    Reports .error
      (fullDomainFault p.rangeSize :: faults ++ [bufferFault (domainSize p.rangeSize * p.dataSize)])
      (Succeeds fun proved => proved.output.length = domainSize p.rangeSize * p.dataSize)
      (refuse (fullDomainFault p.rangeSize :: faults) >>= fun _ => p.proveAll) := by
  refine reports_of_check (allocate_eq_refuse _)
    (fun hnone => p.proveAll_eq hsized.levels (le_maxRangeBits_of_none hnone)) fun _ => ?_
  rw [length_output_visited hsized, length_allIndices]

end Prover

/-- Calls that load the tree of a key and then evaluate it report the faults of the key first. -/
theorem evaluationReports_of_refuse {plain verifiable : List Fault} {n d size : Nat}
    {evaluator : Except Error (Evaluator σ)} {prover : Except Error (Prover σ)} {e : Evaluator σ}
    {p : Prover σ} (hevaluator : evaluator = (refuse plain >>= fun _ => .ok e))
    (hprover : prover = (refuse verifiable >>= fun _ => .ok p)) (he : e.Sized) (hp : p.Sized)
    (hrange : e.rangeSize = n ∧ p.rangeSize = n) (hdata : e.dataSize = d ∧ p.dataSize = d)
    (hsize : firstError verifiable = none → d ≤ size) :
    EvaluationReports plain verifiable n d size
      (fun index => evaluator >>= fun e => e.evaluate index)
      (checkFullDomain n >>= fun _ => evaluator >>= fun e => e.evaluateAll)
      (fun index => prover >>= fun p => p.proveAt [index])
      (fun queries => checkFullDomain n >>= fun _ => prover >>= fun p => p.proveAt queries)
      (checkFullDomain n >>= fun _ => prover >>= fun p => p.proveAll) := by
  obtain ⟨hrangeE, hrangeP⟩ := hrange
  obtain ⟨hdataE, hdataP⟩ := hdata
  refine ⟨?_, ?_, ?_, ?_, ?_⟩
  · intro index
    rw [bind_eq_of_refuse hevaluator, ← hrangeE, ← hdataE]
    exact Evaluator.reports_evaluate he index
  · rw [checkFullDomain_bind_eq_of_refuse hevaluator, ← hrangeE, ← hdataE]
    exact Evaluator.reports_evaluateAll he
  · intro index
    rw [bind_eq_of_refuse hprover, ← hrangeP, ← hdataP]
    exact Prover.reports_proveAt_singleton hp (fun hnone => hdataP ▸ hsize hnone) index
  · intro queries
    rw [checkFullDomain_bind_eq_of_refuse hprover, ← hrangeP, ← hdataP]
    exact Prover.reports_proveAt hp queries
  · rw [checkFullDomain_bind_eq_of_refuse hprover, ← hrangeP, ← hdataP]
    exact Prover.reports_proveAll hp

end

/-! ### One special point -/

namespace Point

/-- What may be wrong with a key, given its declared sizes. -/
def Key.faults (key : Key) (verifiable : Bool) : List Fault :=
  let size := 18 * key.rangeSize + 18 + key.dataSize + if verifiable then 64 else 0
  let rangeByte := (key.bytes.getD 0 0).toNat
  [⟨64 < key.rangeSize, .domainTooLarge key.rangeSize 64⟩,
    ⟨maxSize < size, .inputSize maxSize key.dataSize⟩,
    ⟨key.bytes.length ≠ size, .keyCorrupted size key.bytes.length⟩,
    ⟨rangeByte ≠ key.rangeSize, .headerMismatch .rangeSize key.rangeSize rangeByte⟩]

/-- What a key without faults holds. -/
def Key.partsOf (key : Key) (verifiable : Bool) : Parts :=
  Parts.ofFields key.rangeSize ((key.layout verifiable).read key.bytes)

variable {key : Key} {setup : Setup} {prg : Prg}

theorem Key.parse_eq_refuse (key : Key) (verifiable : Bool) :
    key.parse verifiable
      = (refuse (key.faults verifiable) >>= fun _ => .ok (key.partsOf verifiable)) := by
  have hsize : (key.layout verifiable).size
      = 18 * key.rangeSize + 18 + key.dataSize + if verifiable then 64 else 0 :=
    Layout.size_pointTable _ _ _
  have hheader : (key.layout verifiable).header key.bytes .rangeSize
      = (key.bytes.getD 0 0).toNat := Layout.header_eq_getD rfl key.bytes
  unfold parse faults
  rw [Layout.point_eq, ite_le_maxSize_eq_refuse, ← hsize, ← hheader]
  refine refuse_step (checkRangeSize_eq_refuse _) fun _ => ?_
  rw [bind_assoc]
  refine refuse_step rfl fun _ => ?_
  refine refuse_step (Layout.check_eq_refuse _ _) fun _ => ?_
  refine refuse_step (Layout.checkHeader_eq_refuse _ _ _ _) fun _ => ?_
  rfl

/-- A key has no fault exactly if it is well formed. -/
theorem Key.firstError_faults_eq_none_iff {verifiable : Bool} :
    firstError (key.faults verifiable) = none ↔ key.WellFormed verifiable := by
  rw [firstError_eq_none_iff_exists_ok (key.parse_eq_refuse verifiable)]
  constructor
  · rintro ⟨parts, hparse⟩
    exact (parse_eq_ok_iff.mp hparse).1
  · intro h
    exact ⟨_, parse_eq_ok_iff.mpr ⟨h, rfl⟩⟩

theorem Key.sized_partsOf (prg : Prg) (key : Key) (verifiable : Bool) :
    ((key.partsOf verifiable).evaluator prg key.rangeSize key.dataSize).Sized :=
  Parts.sized_evaluator prg (by simp [partsOf, Parts.ofFields]) key.dataSize

theorem evaluationReports (setup : Setup) (key : Key) :
    EvaluationReports (key.faults false) (key.faults true) key.rangeSize key.dataSize
      key.bytes.length (evaluate setup.prg key) (evaluateAll setup.prg key)
      (Verified.evaluate setup key) (Verified.evaluateBatch setup key)
      (Verified.evaluateAll setup key) := by
  refine evaluationReports_of_refuse
    (bind_eq_of_refuse (key.parse_eq_refuse false) _)
    (bind_eq_of_refuse (key.parse_eq_refuse true) _)
    (key.sized_partsOf setup.prg false) (key.sized_partsOf setup.prg true) ⟨rfl, rfl⟩ ⟨rfl, rfl⟩ ?_
  intro hnone
  exact (Key.firstError_faults_eq_none_iff.mp hnone).dataSize_le_length

end Point

/-! ### Several special points -/

namespace MultiPoint

/-- What may be wrong with the bytes of a key, given its declared sizes and what they add up to. -/
def keyFaults (bytes : Bytes) (n points d size : Nat) : List Fault :=
  let rangeByte := (bytes.getD 0 0).toNat
  let pointsByte := (bytes.getD 1 0).toNat
  [⟨64 < n, .domainTooLarge n 64⟩,
    ⟨points = 0 ∨ 32 < points, .pointCount points 32⟩,
    ⟨maxSize < size, .inputSize maxSize d⟩,
    ⟨bytes.length ≠ size, .keyCorrupted size bytes.length⟩,
    ⟨rangeByte ≠ n, .headerMismatch .rangeSize n rangeByte⟩,
    ⟨pointsByte ≠ points, .headerMismatch .rangePoints points pointsByte⟩]

/-- Whatever table the declared sizes ask for, a key is checked against it in the same way.  The
table is only made in full if there are points. -/
theorem load_eq_refuse {α : Type} {make : Except Error Layout} {table : Layout} {bytes : Bytes}
    {n points d size : Nat}
    (hmake : 0 < points → make = if table.size ≤ maxSize then .ok table
      else .error (.inputSize maxSize d))
    (hsize : table.size = size) (hrange : table.span .rangeSize = ⟨0, 1⟩)
    (hpoints : table.span .rangePoints = ⟨1, 2⟩) (read : Layout → α) :
    (do
      checkRangeSize n
      checkPointCount points
      let layout ← make
      layout.check bytes
      layout.checkHeader bytes .rangeSize n
      layout.checkHeader bytes .rangePoints points
      return read layout)
    = (refuse (keyFaults bytes n points d size) >>= fun _ => .ok (read table)) := by
  unfold keyFaults
  rw [← hsize, ← Layout.header_eq_getD hrange, ← Layout.header_eq_getD hpoints]
  refine refuse_step (checkRangeSize_eq_refuse n) fun _ => ?_
  refine refuse_step (checkPointCount_eq_refuse points) fun hcount => ?_
  -- the layout is only known to be its table once there are points
  have hpos : 0 < points := by
    simp only [decide_eq_false_iff_not, not_or] at hcount
    omega
  rw [hmake hpos, ite_le_maxSize_eq_refuse, bind_assoc]
  refine refuse_step rfl fun _ => ?_
  refine refuse_step (Layout.check_eq_refuse _ _) fun _ => ?_
  refine refuse_step (Layout.checkHeader_eq_refuse _ _ _ _) fun _ => ?_
  exact refuse_step (Layout.checkHeader_eq_refuse _ _ _ _) fun _ => rfl

/-- What may be wrong with a key. -/
def Key.faults (key : Key) (verifiable : Bool) : List Fault :=
  keyFaults key.bytes key.rangeSize key.points key.dataSize
    (24 * key.rangeSize * key.points + 19 + key.dataSize * key.points
      + if verifiable then 64 * key.points else 0)

/-- What a key without faults holds. -/
def Key.partsOf (key : Key) (verifiable : Bool) : Parts :=
  Parts.ofFields key.rangeSize key.points key.dataSize verifiable
    ((key.layout verifiable).read key.bytes)

variable {key : Key}

theorem Key.parse_eq_refuse (key : Key) (verifiable : Bool) :
    key.parse verifiable
      = (refuse (key.faults verifiable) >>= fun _ => .ok (key.partsOf verifiable)) :=
  load_eq_refuse (fun hpos => Layout.multiPoint_eq hpos _ _ _)
    (Layout.size_multiPointTable _ _ _ _) rfl rfl _

/-- A key has no fault exactly if it is well formed. -/
theorem Key.firstError_faults_eq_none_iff {verifiable : Bool} :
    firstError (key.faults verifiable) = none ↔ key.WellFormed verifiable :=
  (firstError_eq_none_iff_exists_ok (key.parse_eq_refuse verifiable)).trans parses_iff

theorem Key.sized_partsOf (prg : Prg) (key : Key) (verifiable : Bool) :
    ((key.partsOf verifiable).evaluator prg key.rangeSize key.dataSize).Sized :=
  Parts.sized_evaluator prg (Parts.length_levels_ofFields _ _ _ _ _) key.dataSize

theorem evaluationReports (setup : Setup) (key : Key) :
    EvaluationReports (key.faults false) (key.faults true) key.rangeSize key.dataSize
      key.bytes.length (evaluate setup.prg key) (evaluateAll setup.prg key)
      (Verified.evaluate setup key) (Verified.evaluateBatch setup key)
      (Verified.evaluateAll setup key) := by
  refine evaluationReports_of_refuse
    (bind_eq_of_refuse (key.parse_eq_refuse false) _)
    (bind_eq_of_refuse (key.parse_eq_refuse true) _)
    (key.sized_partsOf setup.prg false) (key.sized_partsOf setup.prg true) ⟨rfl, rfl⟩ ⟨rfl, rfl⟩ ?_
  intro hnone
  exact (Key.firstError_faults_eq_none_iff.mp hnone).dataSize_le_length

/-! ### Compressed keys -/

namespace Compressed

/-- What may be wrong with a compressed key. -/
def faults (key : Compressed) : List Fault :=
  keyFaults key.bytes key.rangeSize key.points key.dataSize
    (24 * key.rangeSize * key.points + 34 + key.dataSize * key.points)

variable {key : Compressed}

theorem checkedLayout_eq_refuse (key : Compressed) :
    key.checkedLayout = (refuse key.faults >>= fun _ => .ok key.layout) :=
  load_eq_refuse (fun hpos => Layout.compressed_eq hpos _ _) (Layout.size_compressedTable _ _ _)
    rfl rfl fun layout => layout

/-- A compressed key has no fault exactly if it is well formed. -/
theorem firstError_faults_eq_none_iff : firstError key.faults = none ↔ key.WellFormed := by
  rw [firstError_eq_none_iff_exists_ok (checkedLayout_eq_refuse key)]
  constructor
  · rintro ⟨layout, hlayout⟩
    exact (checkedLayout_eq_ok_iff.mp hlayout).1
  · intro h
    exact ⟨_, checkedLayout_eq_ok_iff.mpr ⟨h, rfl⟩⟩

theorem reports_decompress (prg : Prg) (key : Compressed) :
    Reports .error
      (fullDomainFault key.rangeSize :: key.faults
        ++ outputFaults (domainSize key.rangeSize) key.dataSize)
      (Succeeds fun values => values.length = domainSize key.rangeSize * key.dataSize)
      (key.decompress prg) := by
  have hdecompress : key.decompress prg
      = (refuse (fullDomainFault key.rangeSize :: key.faults)
          >>= fun _ => allocateOutputs (domainSize key.rangeSize) key.dataSize
          >>= fun _ => .ok (Bytes.xor (key.tree prg .a).table (key.tree prg .b).table)) :=
    checkFullDomain_bind_eq_of_refuse (checkedLayout_eq_refuse key) _ _
  rw [hdecompress]
  refine reports_of_check (allocateOutputs_eq_refuse _ _) (fun _ => rfl) fun hnone => ?_
  have hfaults : firstError key.faults = none :=
    firstError_eq_none_of_subset hnone (List.subset_cons_self _ _)
  have h : key.WellFormed := firstError_faults_eq_none_iff.mp hfaults
  rw [Bytes.length_xor]
  exact (h.addUp prg).sized_a.length_table h.supported

end Compressed

end MultiPoint

/-! ### All kinds of keys -/

/-- **An evaluation is refused for the first fault of the key and the queries, and otherwise gives
all of its outputs if they fit into a buffer**, whatever bytes the key has and whatever sizes are
declared for it. -/
theorem reports_of_evaluate (setup : Setup) :
    (∀ key : Point.Key,
      EvaluationReports (key.faults false) (key.faults true) key.rangeSize key.dataSize
        key.bytes.length (Point.evaluate setup.prg key) (Point.evaluateAll setup.prg key)
        (Point.Verified.evaluate setup key) (Point.Verified.evaluateBatch setup key)
        (Point.Verified.evaluateAll setup key)) ∧
    (∀ key : MultiPoint.Key,
      EvaluationReports (key.faults false) (key.faults true) key.rangeSize key.dataSize
        key.bytes.length (MultiPoint.evaluate setup.prg key) (MultiPoint.evaluateAll setup.prg key)
        (MultiPoint.Verified.evaluate setup key) (MultiPoint.Verified.evaluateBatch setup key)
        (MultiPoint.Verified.evaluateAll setup key)) ∧
    (∀ key : MultiPoint.Compressed,
      Reports .error
        (fullDomainFault key.rangeSize :: key.faults
          ++ outputFaults (domainSize key.rangeSize) key.dataSize)
        (Succeeds fun values => values.length = domainSize key.rangeSize * key.dataSize)
        (key.decompress setup.prg)) :=
  ⟨Point.evaluationReports setup, MultiPoint.evaluationReports setup,
    MultiPoint.Compressed.reports_decompress setup.prg⟩

/-- Keys and queries with several faults each, and a batch that is accepted. -/
theorem reports_of_evaluate_small_keys :
    let setup : Setup := ⟨.ofBlock 0, ⟨1, 2⟩⟩
    let wide : Point.Key := ⟨[3], 1, 65⟩
    let mislabelled : MultiPoint.Key := ⟨1 :: 2 :: List.replicate 43 0xab, 2, 1, 1⟩
    let key : MultiPoint.Key := ⟨1 :: 1 :: List.replicate 107 0xab, 2, 1, 1⟩
    Point.evaluate setup.prg wide 0 = .error (.domainTooLarge 65 64) ∧
    Point.evaluateAll setup.prg wide = .error (.domainTooLarge 65 32) ∧
    MultiPoint.evaluate setup.prg mislabelled 5 = .error (.headerMismatch .rangePoints 1 2) ∧
    MultiPoint.evaluate setup.prg key 0 = .error (.keyCorrupted 45 109) ∧
    MultiPoint.Verified.evaluateBatch setup key [0, 3, 2] = .error (.indexOutOfDomain 3 1) ∧
    (∃ proved, MultiPoint.Verified.evaluateBatch setup key [1, 0, 0] = .ok proved ∧
      proved.output.length = 6) ∧
    MultiPoint.Compressed.decompress setup.prg ⟨[1, 1], 1, 1, 1⟩
      = .error (.keyCorrupted 59 2) := by
  intro setup wide mislabelled key
  obtain ⟨hpoint, hpoints, hcompressed⟩ := reports_of_evaluate setup
  exact ⟨((hpoint wide).evaluate 0).eq_refused (by decide),
    (hpoint wide).evaluateAll.eq_refused (by decide),
    ((hpoints mislabelled).evaluate 5).eq_refused (by decide),
    ((hpoints key).evaluate 0).eq_refused (by decide),
    ((hpoints key).batch [0, 3, 2]).eq_refused (by decide),
    ((hpoints key).batch [1, 0, 0]).accepted (by decide),
    (hcompressed ⟨[1, 1], 1, 1, 1⟩).eq_refused (by decide)⟩

end PointSharing
