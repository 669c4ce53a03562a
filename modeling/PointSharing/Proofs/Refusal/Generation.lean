/-
Which calls that generate keys are refused, and for what.

A call checks all its arguments before it draws, so a refused call leaves the tape as it was.  What
is left to show is that nothing is refused afterwards.  The keys of acceptable arguments can be
addressed, as payloads fill less than half of the address space, and the two keys that are
generated form a pair, so that compressing them is not refused either.

The order of special indices is only compared between neighbours.  That those of an accepted call
are all in order is read off the other description of the same check, `SpecialIndices`.
-/
import PointSharing.Proofs.Fault
import PointSharing.Proofs.MultiPoint.Decompression
import PointSharing.Proofs.MultiPoint.Verified
import PointSharing.Proofs.Point.Verified

namespace PointSharing

/-- Keys are generated, unless the call is refused for the first fault that is present; then nothing
is drawn. -/
def GeneratesUnless {α : Type} (faults : List Fault) (tape : Tape) (run : Except Error α × Tape) :
    Prop :=
  Reports (fun e => (.error e, tape)) faults (fun run => ∃ keys rest, run = (.ok keys, rest)) run

/-! ### One special point -/

namespace Point

variable {index : UInt64} {n d : Nat} {data : Bytes} {tape : Tape} {prg : Prg}

/-- What may be wrong with the arguments of a generation. -/
def generationFaults (index : UInt64) (n d : Nat) (data : Bytes) : List Fault :=
  [⟨64 < n, .domainTooLarge n 64⟩,
    ⟨data.length ≠ d, .inputSize d data.length⟩,
    ⟨domainSize n ≤ index.toNat, .indexOutOfDomain index n⟩]

theorem Shares.checkArguments_eq_refuse (index : UInt64) (n d : Nat) (data : Bytes) :
    checkArguments index n d data = refuse (generationFaults index n d data) := by
  simp only [checkArguments, checkRangeSize_eq_refuse, checkPayload_eq_refuse,
    checkIndex_eq_refuse, ← refuse_append]
  rfl

theorem Shares.reports (hdata : data.length < 1 <<< 63) (correction : Shares → Option Tag) :
    GeneratesUnless (generationFaults index n d data) tape
      (Draws.runOn (do
        let shares ← draw prg index n d data
        shares.toKeys n d (correction shares)) tape) := by
  rw [runOn_draw_toKeys, checkArguments_eq_refuse]
  refine reports_of_checked fun hnone => ?_
  rw [← refuse_eq_ok_iff, ← checkArguments_eq_refuse, checkArguments_eq_ok_iff] at hnone
  obtain ⟨hn, rfl, -⟩ := hnone
  have hkeys := (ofTape prg index n data tape).toKeys_eq n data.length
    (correction (ofTape prg index n data tape))
  rw [if_pos (Layout.size_pointTable_le hn hdata _)] at hkeys
  exact ⟨_, _, congrArg (·, _) hkeys⟩

end Point

/-! ### Several special points -/

namespace MultiPoint

variable {indices : List UInt64} {n points d : Nat} {data : Bytes} {tape : Tape} {prg : Prg}

/-- What may be wrong with the arguments of a generation. -/
def generationFaults (indices : List UInt64) (n points d : Nat) (data : Bytes) : List Fault :=
  [⟨64 < n, .domainTooLarge n 64⟩,
    ⟨points = 0 ∨ 32 < points, .pointCount points 32⟩,
    ⟨indices.length ≠ points, .inputSize points indices.length⟩,
    ⟨maxSize < points * d, .inputSize maxSize d⟩,
    ⟨data.length ≠ points * d, .inputSize (points * d) data.length⟩]
  ++ positionFaults indices n

theorem Shares.checkArguments_eq_refuse (indices : List UInt64) (n points d : Nat)
    (data : Bytes) :
    checkArguments indices n points d data
      = refuse (generationFaults indices n points d data) := by
  simp only [checkArguments, checkRangeSize_eq_refuse, checkPointCount_eq_refuse,
    checkIndexCount_eq_refuse, outputLength_eq_refuse, checkPayload_eq_refuse,
    checkSpecialIndices_eq_refuse, bind_assoc, ok_bind, ← refuse_append]
  rfl

/-- The arguments without a fault; in particular their indices are all in order. -/
theorem firstError_generationFaults_eq_none_iff :
    firstError (generationFaults indices n points d data) = none ↔
      n ≤ maxRangeBits ∧ SpecialIndices indices n points ∧ points * d ≤ maxSize ∧
        data.length = points * d := by
  rw [← refuse_eq_ok_iff, ← Shares.checkArguments_eq_refuse, Shares.checkArguments_eq_ok_iff]

theorem Shares.reports (hdata : data.length < 1 <<< 63) (corrections : Shares → Option (List Tag)) :
    GeneratesUnless (generationFaults indices n points d data) tape
      (Draws.runOn (do
        let shares ← draw prg indices n points d data
        shares.toKeys n points d (corrections shares)) tape) := by
  rw [runOn_draw_toKeys, checkArguments_eq_refuse]
  refine reports_of_checked fun hnone => ?_
  obtain ⟨hn, hspecial, -, hd⟩ := firstError_generationFaults_eq_none_iff.mp hnone
  have hkeys := (ofTape prg indices n points d data tape).toKeys_eq hspecial.positive n d
    (corrections (ofTape prg indices n points d data tape))
  rw [if_pos (Layout.size_multiPointTable_le hn hspecial.supported (hd ▸ hdata) _)] at hkeys
  exact ⟨_, _, congrArg (·, _) hkeys⟩

/-- Compressing the two keys of a generation is not refused. -/
theorem reports_compress (hdata : data.length < 1 <<< 63) :
    GeneratesUnless (generationFaults indices n points d data) tape
      ((compress prg indices n points d data).runOn tape) := by
  have hgenerate : GeneratesUnless (generationFaults indices n points d data) tape
      ((generate prg indices n points d data).runOn tape) := Shares.reports hdata fun _ => none
  cases hfirst : firstError (generationFaults indices n points d data) with
  | none =>
      obtain ⟨hn, hspecial, -, hd⟩ := firstError_generationFaults_eq_none_iff.mp hfirst
      obtain ⟨-, -, hrun⟩ := runOn_compress_eq_join prg tape hn hspecial hd hdata
      rw [GeneratesUnless, Reports, hfirst]
      exact ⟨_, _, hrun⟩
  | some e =>
      have hrun : (generate prg indices n points d data).runOn tape = (.error e, tape) :=
        hgenerate.eq_refused hfirst
      rw [GeneratesUnless, Reports, hfirst]
      show (compress prg indices n points d data).runOn tape = (.error e, tape)
      rw [compress, Draws.runOn_bind, hrun]

end MultiPoint

/-! ### Both kinds -/

/-- **Keys are generated for acceptable arguments, and otherwise the call is refused for the first
fault and draws nothing.**  Payloads fill less than half of the address space. -/
theorem reports_of_generate (setup : Setup) (tape : Tape) :
    (∀ (index : UInt64) (n d : Nat) (data : Bytes), data.length < 1 <<< 63 →
      GeneratesUnless (Point.generationFaults index n d data) tape
        ((Point.generate setup.prg index n d data).runOn tape) ∧
      GeneratesUnless (Point.generationFaults index n d data) tape
        ((Point.Verified.generate setup index n d data).runOn tape)) ∧
    (∀ (indices : List UInt64) (n points d : Nat) (data : Bytes), data.length < 1 <<< 63 →
      let faults := MultiPoint.generationFaults indices n points d data
      (firstError faults = none ↔ n ≤ 64 ∧ MultiPoint.SpecialIndices indices n points ∧
        points * d ≤ maxSize ∧ data.length = points * d) ∧
      GeneratesUnless faults tape
        ((MultiPoint.generate setup.prg indices n points d data).runOn tape) ∧
      GeneratesUnless faults tape
        ((MultiPoint.Verified.generate setup indices n points d data).runOn tape) ∧
      GeneratesUnless faults tape
        ((MultiPoint.compress setup.prg indices n points d data).runOn tape)) := by
  refine ⟨?_, ?_⟩
  · intro index n d data hdata
    exact ⟨Point.Shares.reports hdata fun _ => none,
      Point.Shares.reports hdata fun shares => some (shares.proofCorrection setup.hashes index)⟩
  · intro indices n points d data hdata faults
    exact ⟨MultiPoint.firstError_generationFaults_eq_none_iff,
      MultiPoint.Shares.reports hdata fun _ => none,
      MultiPoint.Shares.reports hdata fun shares =>
        some (shares.proofCorrections setup.hashes indices),
      MultiPoint.reports_compress hdata⟩

/-- Refused calls of both kinds, the first three with two faults each, and one that is accepted. -/
theorem reports_of_generate_small_domains :
    let setup : Setup := ⟨.ofBlock 0, ⟨1, 2⟩⟩
    let tape : Tape := .ofBytes []
    (Point.generate setup.prg 8 3 2 [7]).runOn tape = (.error (.inputSize 2 1), tape) ∧
    (MultiPoint.generate setup.prg [5, 2] 3 2 1 [7]).runOn tape
      = (.error (.inputSize 2 1), tape) ∧
    (MultiPoint.Verified.generate setup [5, 2, 8] 3 3 1 [7, 8, 9]).runOn tape
      = (.error (.unordered 1), tape) ∧
    (MultiPoint.compress setup.prg [5, 8, 2] 3 3 1 [7, 8, 9]).runOn tape
      = (.error (.indexOutOfDomain 8 3), tape) ∧
    ∃ keys rest, (Point.Verified.generate setup 7 3 1 [9]).runOn tape = (.ok keys, rest) := by
  intro setup tape
  obtain ⟨hpoint, hpoints⟩ := reports_of_generate setup tape
  obtain ⟨hsize, -⟩ := hpoint 8 3 2 [7] (by decide)
  obtain ⟨-, haccepted⟩ := hpoint 7 3 1 [9] (by decide)
  obtain ⟨-, hpayload, -, -⟩ := hpoints [5, 2] 3 2 1 [7] (by decide)
  obtain ⟨-, -, hordered, -⟩ := hpoints [5, 2, 8] 3 3 1 [7, 8, 9] (by decide)
  obtain ⟨-, -, -, hdomain⟩ := hpoints [5, 8, 2] 3 3 1 [7, 8, 9] (by decide)
  exact ⟨hsize.eq_refused (by decide), hpayload.eq_refused (by decide),
    hordered.eq_refused (by decide), hdomain.eq_refused (by decide),
    haccepted.accepted (by decide)⟩

end PointSharing
