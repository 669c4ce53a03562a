/-
Which of several faults is reported.

A call that makes several checks is described by the list of its faults, in the order in which
they are looked for, each with the error that it is reported as.  `Reports` says that the
first of them that is present decides the outcome.

Every check of the library is here equal to `refuse` of its own faults, and refusing for one list
and then for another is refusing for both together.  So the checks of a call are read off its
definition one after the other (`refuse_step`), each under the assumption that the ones before it
have passed: some of them are only known to look for their fault once that is so.
-/
import PointSharing.Proofs.Domain
import PointSharing.Proofs.Layout
import PointSharing.Proofs.Limits

namespace PointSharing

/-- Something that may be wrong with the arguments of a call. -/
structure Fault where
  /-- It is wrong. -/
  present : Bool
  /-- What it is reported as. -/
  error : Error
  deriving DecidableEq

/-- The error of the first fault that is present. -/
def firstError (faults : List Fault) : Option Error :=
  (faults.find? Fault.present).map Fault.error

/-- A call is refused for the first fault that is present, and has an accepted outcome if there is
none. -/
def Reports {ω : Type} (refused : Error → ω) (faults : List Fault) (accepted : ω → Prop)
    (outcome : ω) : Prop :=
  match firstError faults with
  | some e => outcome = refused e
  | none => accepted outcome

/-- A call gives a result that has a property. -/
def Succeeds {α : Type} (P : α → Prop) (outcome : Except Error α) : Prop :=
  ∃ a, outcome = .ok a ∧ P a

/-- Refuses for the first fault that is present. -/
def refuse (faults : List Fault) : Except Error Unit := (firstError faults).elim (.ok ()) .error

/-! ### Refusing -/

section

variable {α : Type} {fault : Fault} {faults rest : List Fault}

theorem firstError_cons :
    firstError (fault :: faults)
      = if fault.present then some fault.error else firstError faults := by
  unfold firstError
  cases h : fault.present with
  | true => rw [List.find?_cons_of_pos h, if_pos rfl, Option.map_some]
  | false => rw [List.find?_cons_of_neg (by simp [h]), if_neg (by decide)]

theorem firstError_append :
    firstError (faults ++ rest) = (firstError faults).or (firstError rest) := by
  rw [firstError, List.find?_append, Option.map_or]
  rfl

theorem firstError_eq_none_iff :
    firstError faults = none ↔ ∀ fault ∈ faults, fault.present = false := by
  simp [firstError]

/-- Faults that are looked for between others. -/
theorem subset_cons_append (fault : Fault) (faults rest : List Fault) :
    faults ⊆ fault :: faults ++ rest :=
  List.subset_append_of_subset_left _ (List.subset_cons_self _ _)

theorem firstError_eq_none_of_subset (h : firstError faults = none) (hsubset : rest ⊆ faults) :
    firstError rest = none :=
  firstError_eq_none_iff.mpr fun fault hfault =>
    firstError_eq_none_iff.mp h fault (hsubset hfault)

theorem refuse_cons :
    refuse (fault :: faults) = if fault.present then .error fault.error else refuse faults := by
  rw [refuse, firstError_cons]
  split <;> rfl

theorem refuse_eq_ok_iff : refuse faults = .ok () ↔ firstError faults = none := by
  unfold refuse
  cases firstError faults <;> simp

theorem refuse_append :
    refuse (faults ++ rest) = (refuse faults >>= fun _ => refuse rest) := by
  simp only [refuse, firstError_append]
  cases firstError faults <;> rfl

theorem refuse_bind_congr {x y : Except Error α} (h : firstError faults = none → x = y) :
    (refuse faults >>= fun _ => x) = (refuse faults >>= fun _ => y) := by
  unfold refuse
  cases hfirst : firstError faults with
  | none => exact h hfirst
  | some e => rfl

/-- A call that refuses for its faults and then succeeds has none of them exactly if it succeeds. -/
theorem firstError_eq_none_iff_exists_ok {call : Except Error α} {a : α}
    (h : call = (refuse faults >>= fun _ => .ok a)) :
    firstError faults = none ↔ ∃ b, call = .ok b := by
  rw [h, ← refuse_eq_ok_iff]
  cases refuse faults <;> simp [bind, Except.bind]

/-- A check looks for its fault, and the checks after it for the others. -/
theorem refuse_step {check : Except Error Unit} {f : Unit → Except Error α} {x : Except Error α}
    (hcheck : check = refuse [fault])
    (hrest : fault.present = false → f () = (refuse faults >>= fun _ => x)) :
    (check >>= f) = (refuse (fault :: faults) >>= fun _ => x) := by
  rw [hcheck, refuse_cons, refuse_cons]
  cases h : fault.present with
  | true => rfl
  | false => exact hrest h

theorem refuse_singleton (p : Prop) [Decidable p] (e : Error) :
    refuse [⟨p, e⟩] = if p then .error e else .ok () := by
  rw [refuse, firstError_cons]
  by_cases h : p <;> simp [h, firstError]

/-! ### Reporting -/

/-- A call that refuses for its faults and then goes on reports them. -/
theorem reports_of_eq {outcome next : Except Error α} {accepted : Except Error α → Prop}
    (h : outcome = (refuse faults >>= fun _ => next))
    (hnext : firstError faults = none → accepted next) :
    Reports .error faults accepted outcome := by
  unfold Reports
  rw [h]
  unfold refuse
  cases hfirst : firstError faults with
  | none => exact hnext hfirst
  | some e => rfl

/-- A call that does nothing once it is refused reports the faults that it looks for. -/
theorem reports_of_checked {ω : Type} {refused : Error → ω} {outcome : ω} {accepted : ω → Prop}
    (haccepted : firstError faults = none → accepted outcome) :
    Reports refused faults accepted (match refuse faults with
      | .ok () => outcome
      | .error e => refused e) := by
  unfold Reports refuse
  cases hfirst : firstError faults with
  | none => exact haccepted hfirst
  | some e => rfl

theorem Reports.eq_refused {ω : Type} {refused : Error → ω} {outcome : ω} {accepted : ω → Prop}
    {e : Error} (h : Reports refused faults accepted outcome) (hfirst : firstError faults = some e) :
    outcome = refused e := by
  rwa [Reports, hfirst] at h

theorem Reports.accepted {ω : Type} {refused : Error → ω} {outcome : ω} {accepted : ω → Prop}
    (h : Reports refused faults accepted outcome) (hfirst : firstError faults = none) :
    accepted outcome := by
  rwa [Reports, hfirst] at h

/-- Faults at the end that under some condition are not present without another are not reported
under that condition. -/
theorem Reports.of_append {ω : Type} {refused : Error → ω} {outcome : ω} {accepted : ω → Prop}
    {P : Prop} (h : Reports refused (faults ++ rest) accepted outcome)
    (habsent : firstError faults = none → P → firstError rest = none) :
    Reports refused faults (fun outcome => P → accepted outcome) outcome := by
  unfold Reports at h ⊢
  rw [firstError_append] at h
  cases hfirst : firstError faults with
  | none =>
      intro hcondition
      rwa [hfirst, habsent hfirst hcondition] at h
  | some e => rwa [hfirst] at h

theorem Succeeds.intro {P : α → Prop} {a : α} (h : P a) : Succeeds P (.ok a) := ⟨a, rfl, h⟩

/-- A call that refuses for its faults, and then makes one more check before it succeeds, reports
the faults of that check too. -/
theorem reports_of_check {check : Except Error Unit} {call : Except Error α} {P : α → Prop} {a : α}
    (hcheck : check = refuse rest)
    (hcall : firstError faults = none → call = (check >>= fun _ => .ok a))
    (ha : firstError faults = none → P a) :
    Reports .error (faults ++ rest) (Succeeds P) (refuse faults >>= fun _ => call) := by
  have houtcome : (refuse faults >>= fun _ => call)
      = (refuse (faults ++ rest) >>= fun _ => .ok a) := by
    rw [refuse_append, bind_assoc, ← hcheck]
    exact refuse_bind_congr hcall
  rw [houtcome]
  refine reports_of_eq rfl fun hnone => .intro (ha ?_)
  exact firstError_eq_none_of_subset hnone (List.subset_append_left _ _)

end

/-! ### The checks on sizes -/

theorem checkRangeSize_eq_refuse (n : Nat) :
    checkRangeSize n = refuse [⟨64 < n, .domainTooLarge n 64⟩] := by
  rw [refuse_singleton, checkRangeSize, ← ite_not]
  simp only [maxRangeBits, Nat.not_le]

theorem checkFullDomain_eq_refuse (n : Nat) :
    checkFullDomain n = refuse [⟨32 < n, .domainTooLarge n 32⟩] := by
  rw [refuse_singleton, checkFullDomain, ← ite_not]
  simp only [maxFullDomainBits, Nat.not_le]

theorem checkPointCount_eq_refuse (points : Nat) :
    checkPointCount points = refuse [⟨points = 0 ∨ 32 < points, .pointCount points 32⟩] :=
  (refuse_singleton _ _).symm

theorem checkIndexCount_eq_refuse (indices : List UInt64) (points : Nat) :
    checkIndexCount indices points
      = refuse [⟨indices.length ≠ points, .inputSize points indices.length⟩] := by
  rw [refuse_singleton, checkIndexCount, ← ite_not]

theorem checkPayload_eq_refuse (data : Bytes) (expected : Nat) :
    checkPayload data expected
      = refuse [⟨data.length ≠ expected, .inputSize expected data.length⟩] := by
  rw [refuse_singleton, checkPayload, ← ite_not]

/-- Something that is only made if it can be addressed. -/
theorem ite_le_maxSize_eq_refuse {α : Type} (size : Nat) (a : α) (e : Error) :
    (if size ≤ maxSize then .ok a else .error e)
      = (refuse [⟨maxSize < size, e⟩] >>= fun _ => .ok a) := by
  rw [refuse_singleton]
  by_cases h : size ≤ maxSize
  · rw [if_pos h, if_neg (Nat.not_lt.mpr h)]
    rfl
  · rw [if_neg h, if_pos (Nat.not_le.mp h)]
    rfl

theorem outputLength_eq_refuse (count dataSize : Nat) :
    outputLength count dataSize
      = (refuse [⟨maxSize < count * dataSize, .inputSize maxSize dataSize⟩]
          >>= fun _ => .ok (count * dataSize)) := by
  rw [← ite_le_maxSize_eq_refuse, outputLength, checkedMul]
  by_cases h : count * dataSize ≤ maxSize <;> simp [h]

/-- The fault of outputs of `length` bytes together: they do not fit into a buffer. -/
def bufferFault (length : Nat) : Fault := ⟨maxBuffer < length, .outputTooLarge length⟩

/-- The faults of `count` outputs of `d` bytes each: their length is not a size, or they do not fit
into a buffer. -/
def outputFaults (count d : Nat) : List Fault :=
  [⟨maxSize < count * d, .inputSize maxSize d⟩, bufferFault (count * d)]

theorem allocate_eq_refuse (length : Nat) : allocate length = refuse [bufferFault length] := by
  rw [bufferFault, refuse_singleton, allocate, ← ite_not]
  simp only [Nat.not_le]

theorem allocateOutputs_eq_refuse (count d : Nat) :
    allocateOutputs count d = refuse (outputFaults count d) := by
  have hsplit : outputFaults count d
      = [⟨maxSize < count * d, .inputSize maxSize d⟩] ++ [bufferFault (count * d)] := rfl
  rw [allocateOutputs, outputLength_eq_refuse, bind_assoc, hsplit, refuse_append,
    ← allocate_eq_refuse]
  rfl

theorem Layout.check_eq_refuse (layout : Layout) (key : Bytes) :
    layout.check key
      = refuse [⟨key.length ≠ layout.size, .keyCorrupted layout.size key.length⟩] := by
  rw [refuse_singleton, check, ← ite_not]

theorem Layout.checkHeader_eq_refuse (layout : Layout) (key : Bytes) (field : Field) (n : Nat) :
    layout.checkHeader key field n
      = refuse [⟨layout.header key field ≠ n,
          .headerMismatch field n (layout.header key field)⟩] := by
  rw [refuse_singleton, checkHeader, ← ite_not]

/-! ### The checks on indices -/

/-- The faults of some queries: those that are not in the domain. -/
def queryFaults (indices : List UInt64) (n : Nat) : List Fault :=
  indices.map fun index => ⟨domainSize n ≤ index.toNat, .indexOutOfDomain index n⟩

/-- The faults of the special index at a position: it is not in the domain, or it is not above the
one before it. -/
def faultsAt (indices : List UInt64) (n : Nat) (place : UInt64 × Nat) : List Fault :=
  [⟨domainSize n ≤ place.1.toNat, .indexOutOfDomain place.1 n⟩,
    ⟨0 < place.2 && indices[place.2 - 1]?.any (place.1 ≤ ·), .unordered place.2⟩]

/-- The faults of special indices, position by position. -/
def positionFaults (indices : List UInt64) (n : Nat) : List Fault :=
  indices.zipIdx.flatMap (faultsAt indices n)

theorem not_inDomain (index : UInt64) (n : Nat) :
    (!inDomain index n) = decide (domainSize n ≤ index.toNat) := by
  rw [Bool.eq_iff_iff, Bool.not_eq_true', ← Bool.not_eq_true, inDomain_iff, decide_eq_true_iff,
    Nat.not_lt]

theorem checkIndex_eq_refuse (index : UInt64) (n : Nat) :
    checkIndex index n = refuse (queryFaults [index] n) := by
  show _ = refuse [⟨domainSize n ≤ index.toNat, .indexOutOfDomain index n⟩]
  rw [refuse_singleton, checkIndex, ← ite_not]
  simp only [inDomain_iff, Nat.not_lt]

theorem checkQueries_eq_refuse (indices : List UInt64) (n : Nat) :
    checkQueries indices n = refuse (queryFaults indices n) := by
  have hpresent : (fun index => !inDomain index n)
      = Fault.present ∘ fun index => ⟨domainSize n ≤ index.toNat, .indexOutOfDomain index n⟩ :=
    funext fun index => not_inDomain index n
  rw [checkQueries, refuse, firstError, queryFaults, List.find?_map, hpresent, Option.map_map]
  cases indices.find? _ <;> rfl

/-- The check knows the index before a position only.  The induction keeps all that have passed. -/
theorem checkAscending_eq_refuse (n : Nat) (before indices : List UInt64) :
    checkAscending n before.getLast? before.length indices
      = refuse ((indices.zipIdx before.length).flatMap (faultsAt (before ++ indices) n)) := by
  induction indices generalizing before with
  | nil => rfl
  | cons index rest ih =>
      have hprevious : (0 < before.length &&
            (before ++ index :: rest)[before.length - 1]?.any (index ≤ ·))
          = before.getLast?.any (index ≤ ·) := by
        cases before with
        | nil => rfl
        | cons first before =>
            rw [List.getLast?_eq_getElem?, List.getElem?_append_left (by simp)]
            simp
      have hrest := ih (before ++ [index])
      rw [List.getLast?_concat, List.length_append, List.length_singleton, List.append_assoc,
        List.singleton_append] at hrest
      rw [List.zipIdx_cons, List.flatMap_cons, faultsAt, List.cons_append, List.cons_append,
        List.nil_append, refuse_cons, refuse_cons, ← hrest, checkAscending, not_inDomain,
        ← hprevious]

theorem checkSpecialIndices_eq_refuse (indices : List UInt64) (n : Nat) :
    checkSpecialIndices indices n = refuse (positionFaults indices n) :=
  checkAscending_eq_refuse n [] indices

end PointSharing
