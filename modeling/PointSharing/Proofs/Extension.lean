/-
Keys with proofs are keys without proofs and something at their end.

Both ways of generating draw the same shares, and the field that only keys with proofs have comes
after all others.  So a key with proofs is the key that would have been generated without them,
followed by the proof correction; what is refused without proofs is refused with them, for the same
reason.  The other direction holds for every key that is parsed, whoever made it: its beginning is
parsed as a key without proofs, and to the same tree.  What is evaluated with proof is then what
is evaluated without, whatever the hashes and the last field are.

Both directions rest on the table alone: a key of a table with one more entry at the end begins
with a key of the shorter table (`Layout.take_size_eq_build`).
-/
import PointSharing.Proofs.MultiPoint.Verified
import PointSharing.Proofs.Point.Verified

namespace PointSharing

/-- A second way of generating keys refuses what the first refuses, for the same reason, leaves
the same tape, and otherwise appends the same `count` bytes to both keys. -/
def ExtendsBy {κ : Type} (append : κ → Bytes → κ) (count : Nat) :
    (plain extended : Except Error (Pair κ) × Tape) → Prop
  | (.error e, rest), extended => extended = (.error e, rest)
  | (.ok keys, rest), extended =>
    ∃ suffix : Bytes, suffix.length = count ∧
      extended = (.ok (keys.map (append · suffix)), rest)

/-! ### One special point -/

namespace Point

namespace Key

/-- The key with some more bytes. -/
def append (key : Key) (suffix : Bytes) : Key := { key with bytes := key.bytes ++ suffix }

/-- The key with only the first bytes. -/
def take (key : Key) (length : Nat) : Key := { key with bytes := key.bytes.take length }

variable {key : Key} {parts : Parts}

theorem WellFormed.take (h : key.WellFormed true) :
    (key.take (key.layout false).size).WellFormed false := by
  have hfields : (key.layout true).fields
      = (key.layout false).fields ++ [(.proofCorrection, tagSize)] := Layout.fields_pointTable _ _
  have hnodup := Layout.nodup_pointTable key.rangeSize key.dataSize true
  have hsize : (key.layout false).size ≤ (key.layout true).size :=
    Nat.le.intro (Layout.size_of_fields_append hfields).symm
  exact ⟨h.supported, Nat.le_trans hsize h.addressable,
    Layout.length_take_size hfields hnodup h.length,
    (Layout.header_take hfields hnodup h.length (by simp [layout, Layout.pointTable])).trans
      h.rangeSize⟩

/-- The beginning of a key with proofs is parsed to the same parts, less the proof correction. -/
theorem parse_take (h : key.parse true = .ok parts) :
    (key.take (key.layout false).size).parse false
      = .ok { parts with proofCorrection := Tag.zero } := by
  obtain ⟨hformed, rfl⟩ := parse_eq_ok_iff.mp h
  refine parse_eq_ok_iff.mpr ⟨hformed.take, ?_⟩
  show Parts.ofFields key.rangeSize ((key.layout false).read (key.bytes.take _)) = _
  have hread : ∀ field ∈ [Field.rootSeed, .rootBit, .levelCorrections, .payload],
      (key.layout false).read (key.bytes.take (key.layout false).size) field
        = (key.layout true).read key.bytes field := by
    intro field hfield
    refine Layout.read_take (Layout.fields_pointTable _ _) (Layout.nodup_pointTable _ _ true)
      hformed.length ?_
    simp only [List.mem_cons, List.not_mem_nil, or_false] at hfield
    rcases hfield with rfl | rfl | rfl | rfl <;> simp [Layout.pointTable]
  have hproof : (key.layout false).read (key.bytes.take (key.layout false).size) .proofCorrection
      = [] := Layout.read_missing (by simp [layout, Layout.pointTable]) _
  unfold Parts.ofFields
  rw [hread .rootSeed (by simp), hread .rootBit (by simp), hread .levelCorrections (by simp),
    hread .payload (by simp), hproof, Tag.ofBytes_nil]

end Key

/-- Evaluating with proof evaluates the beginning of the key. -/
theorem Verified.sameOutputs (setup : Setup) {key : Key} {parts : Parts}
    (h : key.parse true = .ok parts) :
    SameOutputs (Point.evaluate setup.prg (key.take (key.layout false).size))
      (Point.evaluateAll setup.prg (key.take (key.layout false).size)) (evaluate setup key)
      (evaluateBatch setup key) (evaluateAll setup key) := by
  have hsized := Parts.sized_evaluator setup.prg (Key.length_corrections h) key.dataSize
  -- The proof correction is not part of the tree.
  let plain : Parts := { parts with proofCorrection := Tag.zero }
  have hsame : SameOutputs (plain.evaluator setup.prg key.rangeSize key.dataSize).evaluate
      (plain.evaluator setup.prg key.rangeSize key.dataSize).evaluateAll _ _ _ :=
    (parts.prover setup key.rangeSize key.dataSize).sameOutputs hsized
      (Key.parse_eq_ok_iff.mp h).1.supported
  unfold Point.evaluate Point.evaluateAll evaluate evaluateBatch evaluateAll
  rw [Key.evaluator_eq setup.prg (Key.parse_take h), Key.prover_eq setup h]
  exact hsame.checkFullDomain key.rangeSize

/-- Only the last field depends on the proof correction. -/
theorem Shares.key_some (shares : Shares) (n d : Nat) (correction : Tag) (party : Party) :
    shares.key n d (some correction) party
      = (shares.key n d none party).append correction.toBytes := by
  have hcontent : ∀ field ∈ (Layout.pointTable n d false).fields.map Prod.fst,
      (shares.parts correction party).content n field
        = (shares.parts Tag.zero party).content n field := by
    intro field hfield
    simp only [Layout.pointTable, Bool.false_eq_true, if_false, List.append_nil, List.map_cons,
      List.map_nil, List.mem_cons, List.not_mem_nil, or_false] at hfield
    rcases hfield with rfl | rfl | rfl | rfl | rfl <;> rfl
  have hbytes : (Layout.pointTable n d true).build ((shares.parts correction party).content n)
      = (Layout.pointTable n d false).build ((shares.parts Tag.zero party).content n)
        ++ correction.toBytes := by
    rw [Layout.build_of_fields_append (Layout.fields_pointTable n d), Layout.build_congr hcontent]
    rfl
  exact congrArg (Key.mk · d n) hbytes

theorem Verified.generate_extends (setup : Setup) (tape : Tape) (index : UInt64) (n d : Nat)
    {data : Bytes} (hdata : data.length < 1 <<< 63) :
    ExtendsBy Key.append tagSize ((Point.generate setup.prg index n d data).runOn tape)
      ((generate setup index n d data).runOn tape) := by
  let shares := Shares.ofTape setup.prg index n data tape
  let correction := shares.proofCorrection setup.hashes index
  unfold Point.generate generate
  rw [Shares.runOn_draw_toKeys fun _ => none,
    Shares.runOn_draw_toKeys fun shares => some (shares.proofCorrection setup.hashes index)]
  cases hchecked : Shares.checkArguments index n d data with
  | error e => rfl
  | ok u =>
      obtain ⟨hn, rfl, -⟩ := Shares.checkArguments_eq_ok_iff.mp hchecked
      simp only [Shares.toKeys_eq]
      rw [if_pos (Layout.size_pointTable_le hn hdata _),
        if_pos (Layout.size_pointTable_le hn hdata _)]
      refine ⟨correction.toBytes, Tag.length_toBytes _, ?_⟩
      rw [funext (shares.key_some n data.length correction)]
      rfl

end Point

/-! ### Several special points -/

namespace MultiPoint

namespace Key

/-- The key with some more bytes. -/
def append (key : Key) (suffix : Bytes) : Key := { key with bytes := key.bytes ++ suffix }

/-- The key with only the first bytes. -/
def take (key : Key) (length : Nat) : Key := { key with bytes := key.bytes.take length }

variable {key : Key} {parts : Parts}

theorem WellFormed.take (h : key.WellFormed true) :
    (key.take (key.layout false).size).WellFormed false := by
  have hfields : (key.layout true).fields
      = (key.layout false).fields ++ [(.proofCorrection, tagSize * key.points)] :=
    Layout.fields_multiPointTable _ _ _
  have hnodup := key.nodup_layout true
  have hsize : (key.layout false).size ≤ (key.layout true).size :=
    Nat.le.intro (Layout.size_of_fields_append hfields).symm
  exact ⟨h.supported, h.points_pos, h.points_le, Nat.le_trans hsize h.addressable,
    Layout.length_take_size hfields hnodup h.length,
    (Layout.header_take hfields hnodup h.length (by simp)).trans h.rangeSize,
    (Layout.header_take hfields hnodup h.length (by simp)).trans h.rangePoints⟩

/-- The beginning of a key with proofs is parsed to the same parts, less the proof corrections. -/
theorem parse_take (h : key.parse true = .ok parts) :
    (key.take (key.layout false).size).parse false = .ok { parts with proofCorrections := [] } := by
  obtain ⟨hformed, rfl⟩ := parse_eq_ok_iff.mp h
  refine parse_eq_ok_iff.mpr ⟨hformed.take, ?_⟩
  show Parts.ofFields key.rangeSize key.points key.dataSize false
    ((key.layout false).read (key.bytes.take _)) = _
  have hread : ∀ field ∈ [Field.rootSeed, .party, .levelCorrections, .payload],
      (key.layout false).read (key.bytes.take (key.layout false).size) field
        = (key.layout true).read key.bytes field := by
    intro field hfield
    refine Layout.read_take (Layout.fields_multiPointTable _ _ _) (key.nodup_layout true)
      hformed.length ?_
    simp only [List.mem_cons, List.not_mem_nil, or_false] at hfield
    rcases hfield with rfl | rfl | rfl | rfl <;> simp [Layout.multiPointTable]
  unfold Parts.ofFields
  rw [hread .rootSeed (by simp), hread .party (by simp), hread .levelCorrections (by simp),
    hread .payload (by simp), if_neg (by decide)]

end Key

/-- Evaluating with proof evaluates the beginning of the key. -/
theorem Verified.sameOutputs (setup : Setup) {key : Key} {parts : Parts}
    (h : key.parse true = .ok parts) :
    SameOutputs (MultiPoint.evaluate setup.prg (key.take (key.layout false).size))
      (MultiPoint.evaluateAll setup.prg (key.take (key.layout false).size)) (evaluate setup key)
      (evaluateBatch setup key) (evaluateAll setup key) := by
  have hsized := Parts.sized_evaluator setup.prg (Key.length_levels h) key.dataSize
  -- The proof corrections are not part of the tree.
  let plain : Parts := { parts with proofCorrections := [] }
  have hsame : SameOutputs (plain.evaluator setup.prg key.rangeSize key.dataSize).evaluate
      (plain.evaluator setup.prg key.rangeSize key.dataSize).evaluateAll _ _ _ :=
    (parts.prover setup key.rangeSize key.dataSize).sameOutputs hsized
      (Key.parse_eq_ok_iff.mp h).1.supported
  unfold MultiPoint.evaluate MultiPoint.evaluateAll evaluate evaluateBatch evaluateAll
  rw [Key.evaluator_eq setup.prg (Key.parse_take h), Key.prover_eq setup h]
  exact hsame.checkFullDomain key.rangeSize

/-- Only the last field depends on the proof corrections. -/
theorem Shares.key_some (shares : Shares) (n points d : Nat) (corrections : List Tag)
    (party : Party) :
    shares.key n points d (some corrections) party
      = (shares.key n points d none party).append (corrections.flatMap Tag.toBytes) := by
  have hcontent : ∀ field ∈ (Layout.multiPointTable n points d false).fields.map Prod.fst,
      (shares.parts points corrections party).content n field
        = (shares.parts points [] party).content n field := by
    intro field hfield
    simp only [Layout.multiPointTable, Bool.false_eq_true, if_false, List.append_nil,
      List.map_cons, List.map_nil, List.mem_cons, List.not_mem_nil, or_false] at hfield
    rcases hfield with rfl | rfl | rfl | rfl | rfl | rfl <;> rfl
  have hbytes : (Layout.multiPointTable n points d true).build
        ((shares.parts points corrections party).content n)
      = (Layout.multiPointTable n points d false).build ((shares.parts points [] party).content n)
        ++ corrections.flatMap Tag.toBytes := by
    rw [Layout.build_of_fields_append (Layout.fields_multiPointTable n points d),
      Layout.build_congr hcontent]
    rfl
  exact congrArg (Key.mk · d n points) hbytes

theorem Verified.generate_extends (setup : Setup) (tape : Tape) (indices : List UInt64)
    (n points d : Nat) {data : Bytes} (hdata : data.length < 1 <<< 63) :
    ExtendsBy Key.append (tagSize * points)
      ((MultiPoint.generate setup.prg indices n points d data).runOn tape)
      ((generate setup indices n points d data).runOn tape) := by
  let shares := Shares.ofTape setup.prg indices n points d data tape
  let corrections := shares.proofCorrections setup.hashes indices
  unfold MultiPoint.generate generate
  rw [Shares.runOn_draw_toKeys fun _ => none,
    Shares.runOn_draw_toKeys fun shares => some (shares.proofCorrections setup.hashes indices)]
  cases hchecked : Shares.checkArguments indices n points d data with
  | error e => rfl
  | ok u =>
      obtain ⟨hn, hspecial, -, hd⟩ := Shares.checkArguments_eq_ok_iff.mp hchecked
      rw [hd] at hdata
      have hcount : corrections.length = points :=
        Shares.length_proofCorrections (Shares.separates_growOn setup.prg tape hspecial) hspecial
          setup.hashes
      simp only [Shares.toKeys_eq _ hspecial.positive]
      rw [if_pos (Layout.size_multiPointTable_le hn hspecial.supported hdata _),
        if_pos (Layout.size_multiPointTable_le hn hspecial.supported hdata _)]
      refine ⟨corrections.flatMap Tag.toBytes, ?_, ?_⟩
      · rw [Bytes.length_flatMap_of_forall _ fun tag _ => Tag.length_toBytes tag, hcount]
      · rw [funext (shares.key_some n points d corrections)]
        rfl

end MultiPoint

/-! ### Both kinds -/

/-- **Keys with proofs are keys without, and 64 bytes more for each point; the proof is all that
evaluating them with proof adds.**  Payloads fill less than half of the address space, so that the
64 bytes more can always be addressed too. -/
theorem verified_extends_plain (setup : Setup) :
    (∀ (tape : Tape) (index : UInt64) (n d : Nat) (data : Bytes), data.length < 1 <<< 63 →
      ExtendsBy Point.Key.append 64
        ((Point.generate setup.prg index n d data).runOn tape)
        ((Point.Verified.generate setup index n d data).runOn tape)) ∧
    (∀ (key : Point.Key) (parts : Point.Parts), key.parse true = .ok parts →
      ∃ layout, Layout.point key.rangeSize key.dataSize false = .ok layout ∧
        SameOutputs (Point.evaluate setup.prg (key.take layout.size))
          (Point.evaluateAll setup.prg (key.take layout.size))
          (Point.Verified.evaluate setup key) (Point.Verified.evaluateBatch setup key)
          (Point.Verified.evaluateAll setup key)) ∧
    (∀ (tape : Tape) (indices : List UInt64) (n points d : Nat) (data : Bytes),
      data.length < 1 <<< 63 →
      ExtendsBy MultiPoint.Key.append (64 * points)
        ((MultiPoint.generate setup.prg indices n points d data).runOn tape)
        ((MultiPoint.Verified.generate setup indices n points d data).runOn tape)) ∧
    (∀ (key : MultiPoint.Key) (parts : MultiPoint.Parts), key.parse true = .ok parts →
      ∃ layout, Layout.multiPoint key.rangeSize key.points key.dataSize false = .ok layout ∧
        SameOutputs (MultiPoint.evaluate setup.prg (key.take layout.size))
          (MultiPoint.evaluateAll setup.prg (key.take layout.size))
          (MultiPoint.Verified.evaluate setup key) (MultiPoint.Verified.evaluateBatch setup key)
          (MultiPoint.Verified.evaluateAll setup key)) := by
  refine ⟨?_, ?_, ?_, ?_⟩
  · intro tape index n d data hdata
    exact Point.Verified.generate_extends setup tape index n d hdata
  · intro key parts h
    have hsize := (Point.Key.parse_eq_ok_iff.mp h).1.take.addressable
    exact ⟨key.layout false, (Layout.point_eq _ _ _).trans (if_pos hsize),
      Point.Verified.sameOutputs setup h⟩
  · intro tape indices n points d data hdata
    exact MultiPoint.Verified.generate_extends setup tape indices n points d hdata
  · intro key parts h
    have hformed := (MultiPoint.Key.parse_eq_ok_iff.mp h).1
    exact ⟨key.layout false,
      (Layout.multiPoint_eq hformed.points_pos _ _ _).trans (if_pos hformed.take.addressable),
      MultiPoint.Verified.sameOutputs setup h⟩

/-- Generated keys, and keys with corrections, payloads and proof corrections that no generation
would make. -/
theorem verified_extends_plain_small_domains :
    let setup : Setup := ⟨.ofBlock 0, ⟨1, 2⟩⟩
    let key : Point.Key := ⟨1 :: List.replicate 101 0xab, 2, 1⟩
    let keyOfPoints : MultiPoint.Key := ⟨1 :: 1 :: List.replicate 107 0xab, 2, 1, 1⟩
    (∃ keys rest suffix, suffix.length = 64 ∧
      (Point.generate setup.prg 1 2 1 [7]).runOn (.ofBytes []) = (.ok keys, rest) ∧
      (Point.Verified.generate setup 1 2 1 [7]).runOn (.ofBytes [])
        = (.ok (keys.map (·.append suffix)), rest)) ∧
    (∃ layout proved all, Layout.point 1 2 false = .ok layout ∧
      Point.Verified.evaluate setup key 1 = .ok proved ∧
      Point.evaluate setup.prg (key.take layout.size) 1 = .ok proved.output ∧
      Point.Verified.evaluateAll setup key = .ok all ∧
      Point.evaluateAll setup.prg (key.take layout.size) = .ok all.output) ∧
    (∃ keys rest suffix, suffix.length = 128 ∧
      (MultiPoint.generate setup.prg [1, 2] 2 2 1 [7, 9]).runOn (.ofBytes []) = (.ok keys, rest) ∧
      (MultiPoint.Verified.generate setup [1, 2] 2 2 1 [7, 9]).runOn (.ofBytes [])
        = (.ok (keys.map (·.append suffix)), rest)) ∧
    ∃ layout proved outputs, Layout.multiPoint 1 1 2 false = .ok layout ∧
      MultiPoint.Verified.evaluateBatch setup keyOfPoints [1, 0, 0] = .ok proved ∧
      [1, 0, 0].mapM (MultiPoint.evaluate setup.prg (keyOfPoints.take layout.size)) = .ok outputs ∧
      proved.output = outputs.flatten := by
  intro setup key keyOfPoints
  obtain ⟨hpoint, hpointKey, hpoints, hpointsKey⟩ := verified_extends_plain setup
  refine ⟨?_, ?_, ?_, ?_⟩
  · have hplain : (Point.generate setup.prg 1 2 1 [7]).runOn (.ofBytes []) = (.ok _, _) :=
      (Point.Shares.runOn_draw_toKeys_eq_ok_iff fun _ => none).mpr
        ⟨⟨by decide, rfl, by decide⟩, by decide, rfl, rfl⟩
    have hextends := hpoint (.ofBytes []) 1 2 1 [7] (by decide)
    rw [hplain] at hextends
    obtain ⟨suffix, hlength, hverified⟩ := hextends
    exact ⟨_, _, suffix, hlength, hplain, hverified⟩
  · have hparse : key.parse true = .ok _ :=
      Point.Key.parse_eq_ok_iff.mpr ⟨by constructor <;> decide, rfl⟩
    have hprover := Point.Key.prover_eq setup hparse
    have hquery : ∀ x ∈ [(1 : UInt64)], x.toNat < domainSize 1 := by simp [domainSize]
    have hone : Point.Verified.evaluate setup key 1 = .ok _ :=
      (Point.Verified.evaluate_eq hprover 1).trans (Prover.proveAt_eq_ok _ hquery (by decide))
    have hall : Point.Verified.evaluateAll setup key = .ok _ :=
      (Point.Verified.evaluateAll_eq hprover (by decide)).trans
        (Prover.proveAll_eq_ok _ rfl (by decide) (by decide))
    obtain ⟨layout, hlayout, hsame⟩ := hpointKey key _ hparse
    exact ⟨layout, _, _, hlayout, hone, hsame.one _ _ hone, hall, hsame.all _ hall⟩
  · have hspecial : MultiPoint.SpecialIndices [1, 2] 2 2 :=
      ⟨by simp [domainSize], by decide, rfl, by decide, by decide⟩
    have hplain := (MultiPoint.runOn_generate setup.prg (.ofBytes []) (by decide) hspecial
      (show ([7, 9] : Bytes).length = 2 * 1 from rfl) (by decide)).2
    have hextends := hpoints (.ofBytes []) [1, 2] 2 2 1 [7, 9] (by decide)
    rw [hplain] at hextends
    obtain ⟨suffix, hlength, hverified⟩ := hextends
    exact ⟨_, _, suffix, hlength, hplain, hverified⟩
  · have hparse : keyOfPoints.parse true = .ok _ :=
      MultiPoint.Key.parse_eq_ok_iff.mpr ⟨by constructor <;> decide, rfl⟩
    have hprover := MultiPoint.Key.prover_eq setup hparse
    have hqueries : ∀ x ∈ [1, 0, (0 : UInt64)], x.toNat < domainSize 1 := by simp [domainSize]
    have hbatch : MultiPoint.Verified.evaluateBatch setup keyOfPoints [1, 0, 0] = .ok _ :=
      (MultiPoint.Verified.evaluateBatch_eq hprover (by decide) _).trans
        (Prover.proveAt_eq_ok _ hqueries (by decide))
    obtain ⟨layout, hlayout, hsame⟩ := hpointsKey keyOfPoints _ hparse
    obtain ⟨outputs, houtputs, hflatten⟩ := hsame.batch _ _ hbatch
    exact ⟨layout, _, outputs, hlayout, hbatch, houtputs, hflatten⟩

end PointSharing
