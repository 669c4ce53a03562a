/-
What a proof covers.

A proof is made from the leaves of a key and from its proof corrections.  The payload is not among
what it is made from: in a key that differs in the payload only, every evaluation has the proof that
it had, and its outputs are shifted by what the payloads differ by, at each leaf by the words that
the leaf picks.  The other way round the proof corrections take no part in any output.

So proofs that agree say that the leaves agree, but not that the payloads do.  If the payload of one
key of a pair is replaced, the two parties reconstruct shifted values, and their proofs are those
of the pair that was generated.
-/
import PointSharing.Proofs.PayloadChange
import PointSharing.Proofs.Verification.Replacement

namespace PointSharing

/-! ### One point -/

namespace Point

/-- Two keys of the same declared sizes are accepted as keys with proofs, and differ in one field
only. -/
structure Key.DifferIn (field : Field) (key key' : Key) (parts parts' : Parts) : Prop where
  sizes : key' = { key with bytes := key'.bytes }
  parse : key.parse true = .ok parts
  parse' : key'.parse true = .ok parts'
  bytes : ∃ layout, Layout.point key.rangeSize key.dataSize true = .ok layout ∧
    layout.AgreeOutside [field] key.bytes key'.bytes

namespace Parts

variable {n d : Nat} {f f' : Field → Bytes}

theorem ofFields_of_payload (h : ∀ field, field ≠ .payload → f' field = f field) :
    ofFields n f' = { ofFields n f with payload := f' .payload } := by
  unfold ofFields
  rw [h .rootSeed (by decide), h .rootBit (by decide), h .levelCorrections (by decide),
    h .proofCorrection (by decide)]

theorem ofFields_of_proofCorrection (h : ∀ field, field ≠ .proofCorrection → f' field = f field) :
    ofFields n f' = { ofFields n f with proofCorrection := Tag.ofBytes (f' .proofCorrection) } := by
  unfold ofFields
  rw [h .rootSeed (by decide), h .rootBit (by decide), h .levelCorrections (by decide),
    h .payload (by decide)]

/-- What the outputs at an index differ by if the payload is another one: what the payloads differ
by, if the control bit of the leaf picks it. -/
def payloadShift (prg : Prg) (parts : Parts) (rangeSize dataSize : Nat) (payload : Bytes)
    (index : UInt64) : Bytes :=
  if ((parts.evaluator prg rangeSize dataSize).leafAt index).control
  then Bytes.xor parts.payload payload else Bytes.zeros dataSize

theorem shift_output (setup : Setup) {parts : Parts} {payload : Bytes}
    (h : parts.payload.length = d) (h' : payload.length = d) :
    (parts.prover setup n d).shift ({ parts with payload := payload }.output setup.prg d)
      = parts.payloadShift setup.prg n d payload := by
  funext index
  let leaf := (parts.evaluator setup.prg n d).leafAt index
  let mask := setup.prg.leafMask leaf.seed d
  have hmask : mask.length = d := setup.prg.length_leafMask leaf.seed d
  show Bytes.xor (if leaf.control then Bytes.xor mask parts.payload else mask)
      (if leaf.control then Bytes.xor mask payload else mask)
    = if leaf.control then Bytes.xor parts.payload payload else Bytes.zeros d
  by_cases hcontrol : leaf.control = true
  · rw [if_pos hcontrol, if_pos hcontrol, if_pos hcontrol, Bytes.xor_comm (hmask.trans h.symm),
      Bytes.xor_comm (hmask.trans h'.symm)]
    exact Bytes.xor_xor_xor_cancel (Nat.le_of_eq (hmask.trans h'.symm))
  · rw [if_neg hcontrol, if_neg hcontrol, if_neg hcontrol, Bytes.xor_self, hmask]

end Parts

namespace Key

variable {field : Field} {key key' : Key} {parts parts' : Parts}

theorem length_payload (h : key.parse true = .ok parts) : parts.payload.length = key.dataSize := by
  obtain ⟨hformed, rfl⟩ := Key.parse_eq_ok_iff.mp h
  exact Layout.fits_read (Layout.nodup_pointTable _ _ _) hformed.length (.payload, key.dataSize)
    (by simp [Layout.pointTable])

/-- Well-formed keys whose other fields are read the same differ in one field only. -/
theorem WellFormed.differIn (field : Field) (h : key.WellFormed true) (h' : key'.WellFormed true)
    (hsizes : key' = { key with bytes := key'.bytes })
    (hread : ∀ other ∈ (key.layout true).fields.map Prod.fst, other ∉ [field] →
      (key.layout true).read key.bytes other = (key.layout true).read key'.bytes other) :
    ∃ parts parts', DifferIn field key key' parts parts' := by
  refine ⟨_, _, hsizes, Key.parse_eq_ok_iff.mpr ⟨h, rfl⟩, Key.parse_eq_ok_iff.mpr ⟨h', rfl⟩,
    key.layout true, (Layout.point_eq _ _ _).trans (if_pos h.addressable), ?_⟩
  have hlength' : key'.bytes.length = (key.layout true).size := by
    rw [h'.length, hsizes]
    rfl
  exact (Layout.agreeOutside_iff (Layout.nodup_pointTable _ _ _) h.length hlength').mpr hread

namespace DifferIn

/-- All other fields say the same. -/
theorem read_eq (h : DifferIn field key key' parts parts') {other : Field} (hne : other ≠ field) :
    (key'.layout true).read key'.bytes other = (key.layout true).read key.bytes other := by
  obtain ⟨layout, htable, hagree⟩ := h.bytes
  have haddressable := (Key.parse_eq_ok_iff.mp h.parse).1.addressable
  have hlayout : key.layout true = layout :=
    Except.ok.inj (((Layout.point_eq _ _ _).trans (if_pos haddressable)).symm.trans htable)
  have hlayout' : key'.layout true = key.layout true := by
    rw [h.sizes]
    rfl
  rw [hlayout', hlayout]
  exact (hagree.read_eq (by simpa using hne)).symm

theorem rangeSize_eq (h : DifferIn field key key' parts parts') :
    key'.rangeSize = key.rangeSize := by
  rw [h.sizes]

theorem dataSize_eq (h : DifferIn field key key' parts parts') : key'.dataSize = key.dataSize := by
  rw [h.sizes]

theorem parts_of_payload (h : DifferIn .payload key key' parts parts') :
    parts' = { parts with payload := parts'.payload } := by
  obtain ⟨-, rfl⟩ := Key.parse_eq_ok_iff.mp h.parse
  obtain ⟨-, rfl⟩ := Key.parse_eq_ok_iff.mp h.parse'
  rw [h.rangeSize_eq]
  exact Parts.ofFields_of_payload fun _ => h.read_eq

theorem parts_of_proofCorrection (h : DifferIn .proofCorrection key key' parts parts') :
    parts' = { parts with proofCorrection := parts'.proofCorrection } := by
  obtain ⟨-, rfl⟩ := Key.parse_eq_ok_iff.mp h.parse
  obtain ⟨-, rfl⟩ := Key.parse_eq_ok_iff.mp h.parse'
  rw [h.rangeSize_eq]
  exact Parts.ofFields_of_proofCorrection fun _ => h.read_eq

/-- The outputs of the first key with the payload of the second are shifted by what the payloads
differ by. -/
theorem shift_output (setup : Setup) (h : DifferIn field key key' parts parts') :
    (parts.prover setup key.rangeSize key.dataSize).shift
        ({ parts with payload := parts'.payload }.output setup.prg key.dataSize)
      = parts.payloadShift setup.prg key.rangeSize key.dataSize parts'.payload :=
  Parts.shift_output setup (Key.length_payload h.parse)
    ((Key.length_payload h.parse').trans h.dataSize_eq)

end DifferIn

end Key

namespace Verified

variable {setup : Setup} {key key' : Key} {parts parts' : Parts}

/-- The ways of evaluating a key with proof. -/
def evaluations (setup : Setup) (key : Key) : ProvedEvaluations where
  one := evaluate setup key
  batch := evaluateBatch setup key
  all := evaluateAll setup key

theorem evaluations_eq (h : key.parse true = .ok parts) :
    evaluations setup key
      = (parts.prover setup key.rangeSize key.dataSize).evaluations.limited key.rangeSize := by
  unfold evaluations evaluate evaluateBatch evaluateAll
  rw [Key.prover_eq setup h]
  rfl

theorem evaluations_of_payload (setup : Setup) (h : Key.DifferIn .payload key key' parts parts') :
    evaluations setup key'
      = ((parts.prover setup key.rangeSize key.dataSize).withOutput
          ({ parts with payload := parts'.payload }.output setup.prg key.dataSize)).evaluations.limited
            key.rangeSize := by
  rw [evaluations_eq h.parse', h.rangeSize_eq, h.dataSize_eq, h.parts_of_payload]
  rfl

theorem shifted_of_payload (h : Key.DifferIn .payload key key' parts parts') :
    (evaluations setup key).Shifted key.rangeSize
      (parts.payloadShift setup.prg key.rangeSize key.dataSize parts'.payload)
      (evaluations setup key') := by
  let prover := parts.prover setup key.rangeSize key.dataSize
  let output := { parts with payload := parts'.payload }.output setup.prg key.dataSize
  have hsized : prover.Sized :=
    Parts.sized_evaluator setup.prg (Key.length_corrections h.parse) key.dataSize
  have hshifted : prover.evaluations.Shifted key.rangeSize (prover.shift output)
      (prover.withOutput output).evaluations :=
    Prover.shifted_withOutput hsized (fun leaf => Parts.length_output _ _ leaf)
      (Key.parse_eq_ok_iff.mp h.parse).1.supported
  rw [evaluations_eq h.parse, evaluations_of_payload setup h, ← h.shift_output setup]
  exact hshifted.limited key.rangeSize

theorem outputsAgree_of_proofCorrection (h : Key.DifferIn .proofCorrection key key' parts parts') :
    (evaluations setup key).OutputsAgree (evaluations setup key') := by
  rw [evaluations_eq h.parse, evaluations_eq h.parse', h.rangeSize_eq, h.dataSize_eq,
    h.parts_of_proofCorrection]
  exact ProvedEvaluations.OutputsAgree.limited (Prover.outputsAgree_withTags _ _ _) _

/-- The keys of a generated pair stand for trees of the sizes asked for, and these agree. -/
theorem agree_of_generate {index : UInt64} {n d : Nat} {data : Bytes} {tape rest : Tape}
    {keys : Pair Key} (h : (generate setup index n d data).runOn tape = (.ok keys, rest)) :
    ∃ held : Party → Parts,
      (∀ party, (keys.get party).rangeSize = n ∧ (keys.get party).dataSize = d ∧
        (keys.get party).parse true = .ok (held party)) ∧
      Prover.Agree n d (value index data) ((held .a).prover setup n d)
        ((held .b).prover setup n d) := by
  let correction : Shares → Option Tag := fun shares =>
    some (shares.proofCorrection setup.hashes index)
  have hwritten := Shares.writtenTo correction h
  obtain ⟨⟨-, hd, hindex⟩, -⟩ := (Shares.runOn_draw_toKeys_eq_ok_iff correction).mp h
  subst hd
  let shares := Shares.ofTape setup.prg index n data tape
  refine ⟨shares.parts (shares.proofCorrection setup.hashes index), ?_,
    Shares.agree setup shares.roots data hindex⟩
  intro party
  exact ⟨(hwritten.declared party).1, (hwritten.declared party).2, hwritten.parse party⟩

/-- The keys for other values are the same keys with another payload. -/
theorem differIn_of_generate {index : UInt64} {n d : Nat} {data data' : Bytes} {tape rest : Tape}
    {keys : Pair Key} (hdata : data'.length = data.length)
    (h : (generate setup index n d data).runOn tape = (.ok keys, rest)) :
    ∃ keys', (generate setup index n d data').runOn tape = (.ok keys', rest) ∧
      ∀ party, ∃ parts parts',
        Key.DifferIn .payload (keys.get party) (keys'.get party) parts parts' := by
  obtain ⟨keys', layout, h', htable, hshifted⟩ := Shares.shifted
    (fun shares => some (shares.proofCorrection setup.hashes index)) hdata rfl h
  obtain ⟨held, hkeys, -⟩ := agree_of_generate h
  obtain ⟨held', hkeys', -⟩ := agree_of_generate h'
  refine ⟨keys', h', ?_⟩
  intro party
  obtain ⟨hn, hd, hparse⟩ := hkeys party
  refine ⟨held party, held' party, (hshifted party).declared, hparse, (hkeys' party).2.2, layout, ?_,
    (hshifted party).unchanged⟩
  rw [hn, hd]
  exact htable

/-- If the payload of one key of a generated pair is replaced, the values are shifted. -/
theorem reconstructAll_of_payload {index : UInt64} {n d : Nat} {data : Bytes} {tape rest : Tape}
    {keys : Pair Key} (h : (generate setup index n d data).runOn tape = (.ok keys, rest))
    {party : Party} (hdiffer : Key.DifferIn .payload (keys.get party) key' parts parts') :
    let replaced := keys.replace party key'
    (evaluations setup replaced.a).ReconstructAll n d
      (fun x => Bytes.xor (value index data x) (parts.payloadShift setup.prg n d parts'.payload x))
      (evaluations setup replaced.b) := by
  obtain ⟨held, hkeys, hagree⟩ := agree_of_generate h
  obtain ⟨hn, hd, hheld⟩ := hkeys party
  have hparts : held party = parts := Except.ok.inj (hheld.symm.trans hdiffer.parse)
  subst hparts
  have hformed := (Key.parse_eq_ok_iff.mp hdiffer.parse).1
  have hshift := hdiffer.shift_output setup
  have hreplaced := evaluations_of_payload setup hdiffer
  rw [hn, hd] at hshift hreplaced
  have hkept : ∀ other, evaluations setup (keys.get other)
      = ((held other).prover setup n d).evaluations.limited n := by
    intro other
    obtain ⟨hn, hd, hheld⟩ := hkeys other
    rw [evaluations_eq hheld, hn, hd]
  rw [← hshift]
  exact Prover.Agree.reconstructAll_replace (fun leaf => Parts.length_output _ _ leaf)
    (evaluations setup) (fun other => (held other).prover setup n d) hagree hkept
    (hn ▸ hformed.supported) hreplaced

end Verified

end Point

/-! ### Several points -/

namespace MultiPoint

/-- Two keys of the same declared sizes are accepted as keys with proofs, and differ in one field
only. -/
structure Key.DifferIn (field : Field) (key key' : Key) (parts parts' : Parts) : Prop where
  sizes : key' = { key with bytes := key'.bytes }
  parse : key.parse true = .ok parts
  parse' : key'.parse true = .ok parts'
  bytes : ∃ layout, Layout.multiPoint key.rangeSize key.points key.dataSize true = .ok layout ∧
    layout.AgreeOutside [field] key.bytes key'.bytes

namespace Parts

variable {n points d : Nat} {verifiable : Bool} {f f' : Field → Bytes}

theorem ofFields_of_payload (h : ∀ field, field ≠ .payload → f' field = f field) :
    ofFields n points d verifiable f' = { ofFields n points d verifiable f with
      payload := (ofFields n points d verifiable f').payload } := by
  unfold ofFields
  rw [h .rootSeed (by decide), h .party (by decide), h .levelCorrections (by decide),
    h .proofCorrection (by decide)]

theorem ofFields_of_proofCorrection (h : ∀ field, field ≠ .proofCorrection → f' field = f field) :
    ofFields n points d verifiable f' = { ofFields n points d verifiable f with
      proofCorrections := (ofFields n points d verifiable f').proofCorrections } := by
  unfold ofFields
  rw [h .rootSeed (by decide), h .party (by decide), h .levelCorrections (by decide),
    h .payload (by decide)]

/-- What the outputs at an index differ by if the payload is another one: the sum of what the words
differ by that the sign vector of the leaf picks. -/
def payloadShift (prg : Prg) (parts : Parts) (rangeSize dataSize : Nat) (payload : List Bytes)
    (index : UInt64) : Bytes :=
  ((parts.evaluator prg rangeSize dataSize).leafAt index).control.sum Bytes.xor
    (Bytes.zeros dataSize) (List.zipWith Bytes.xor parts.payload payload)

theorem shift_output (setup : Setup) {parts : Parts} {payload : List Bytes}
    (hcount : parts.payload.length = payload.length)
    (hwords : ∀ word ∈ parts.payload, word.length = d) (hwords' : ∀ word ∈ payload, word.length = d) :
    (parts.prover setup n d).shift ({ parts with payload := payload }.output setup.prg d)
      = parts.payloadShift setup.prg n d payload := by
  funext index
  let leaf := (parts.evaluator setup.prg n d).leafAt index
  let mask := setup.prg.leafMask leaf.seed d
  have hmask : mask.length = d := setup.prg.length_leafMask leaf.seed d
  show Bytes.xor (leaf.control.sum Bytes.xor mask parts.payload)
      (leaf.control.sum Bytes.xor mask payload)
    = leaf.control.sum Bytes.xor (Bytes.zeros d) (List.zipWith Bytes.xor parts.payload payload)
  rw [SignVector.xor_sum_sum hcount hwords hwords' leaf.control hmask, Bytes.xor_self, hmask]

end Parts

namespace Key

variable {field : Field} {key key' : Key} {parts parts' : Parts}

theorem length_payload (h : key.parse true = .ok parts) : parts.payload.length = key.points := by
  obtain ⟨-, rfl⟩ := Key.parse_eq_ok_iff.mp h
  exact Bytes.length_words _ _ _

theorem length_of_mem_payload (h : key.parse true = .ok parts) :
    ∀ word ∈ parts.payload, word.length = key.dataSize := by
  obtain ⟨hformed, rfl⟩ := Key.parse_eq_ok_iff.mp h
  have hfield : ((key.layout true).read key.bytes .payload).length
      = key.dataSize * key.points :=
    Layout.fits_read (key.nodup_layout true) hformed.length
      (.payload, key.dataSize * key.points) (by simp [Key.layout, Layout.multiPointTable])
  intro word hword
  exact Bytes.length_of_mem_words (hfield.trans (Nat.mul_comm _ _)) hword

/-- Well-formed keys whose other fields are read the same differ in one field only. -/
theorem WellFormed.differIn (field : Field) (h : key.WellFormed true) (h' : key'.WellFormed true)
    (hsizes : key' = { key with bytes := key'.bytes })
    (hread : ∀ other ∈ (key.layout true).fields.map Prod.fst, other ∉ [field] →
      (key.layout true).read key.bytes other = (key.layout true).read key'.bytes other) :
    ∃ parts parts', DifferIn field key key' parts parts' := by
  refine ⟨_, _, hsizes, Key.parse_eq_ok_iff.mpr ⟨h, rfl⟩, Key.parse_eq_ok_iff.mpr ⟨h', rfl⟩,
    key.layout true, (Layout.multiPoint_eq h.points_pos _ _ _).trans (if_pos h.addressable), ?_⟩
  have hlength' : key'.bytes.length = (key.layout true).size := by
    rw [h'.length, hsizes]
    rfl
  exact (Layout.agreeOutside_iff (key.nodup_layout true) h.length hlength').mpr hread

namespace DifferIn

/-- All other fields say the same. -/
theorem read_eq (h : DifferIn field key key' parts parts') {other : Field} (hne : other ≠ field) :
    (key'.layout true).read key'.bytes other = (key.layout true).read key.bytes other := by
  obtain ⟨layout, htable, hagree⟩ := h.bytes
  have hformed := (Key.parse_eq_ok_iff.mp h.parse).1
  have hlayout : key.layout true = layout :=
    Except.ok.inj (((Layout.multiPoint_eq hformed.points_pos _ _ _).trans
      (if_pos hformed.addressable)).symm.trans htable)
  have hlayout' : key'.layout true = key.layout true := by
    rw [h.sizes]
    rfl
  rw [hlayout', hlayout]
  exact (hagree.read_eq (by simpa using hne)).symm

theorem rangeSize_eq (h : DifferIn field key key' parts parts') :
    key'.rangeSize = key.rangeSize := by
  rw [h.sizes]

theorem points_eq (h : DifferIn field key key' parts parts') : key'.points = key.points := by
  rw [h.sizes]

theorem dataSize_eq (h : DifferIn field key key' parts parts') : key'.dataSize = key.dataSize := by
  rw [h.sizes]

theorem parts_of_payload (h : DifferIn .payload key key' parts parts') :
    parts' = { parts with payload := parts'.payload } := by
  obtain ⟨-, rfl⟩ := Key.parse_eq_ok_iff.mp h.parse
  obtain ⟨-, rfl⟩ := Key.parse_eq_ok_iff.mp h.parse'
  rw [h.rangeSize_eq, h.points_eq, h.dataSize_eq]
  exact Parts.ofFields_of_payload fun _ => h.read_eq

theorem parts_of_proofCorrection (h : DifferIn .proofCorrection key key' parts parts') :
    parts' = { parts with proofCorrections := parts'.proofCorrections } := by
  obtain ⟨-, rfl⟩ := Key.parse_eq_ok_iff.mp h.parse
  obtain ⟨-, rfl⟩ := Key.parse_eq_ok_iff.mp h.parse'
  rw [h.rangeSize_eq, h.points_eq, h.dataSize_eq]
  exact Parts.ofFields_of_proofCorrection fun _ => h.read_eq

/-- The outputs of the first key with the payload of the second are shifted by what the payloads
differ by. -/
theorem shift_output (setup : Setup) (h : DifferIn field key key' parts parts') :
    (parts.prover setup key.rangeSize key.dataSize).shift
        ({ parts with payload := parts'.payload }.output setup.prg key.dataSize)
      = parts.payloadShift setup.prg key.rangeSize key.dataSize parts'.payload := by
  have hwords' := length_of_mem_payload h.parse'
  rw [h.dataSize_eq] at hwords'
  refine Parts.shift_output setup ?_ (length_of_mem_payload h.parse) hwords'
  rw [length_payload h.parse, length_payload h.parse', h.points_eq]

end DifferIn

end Key

namespace Verified

variable {setup : Setup} {key key' : Key} {parts parts' : Parts}

/-- The ways of evaluating a key with proof. -/
def evaluations (setup : Setup) (key : Key) : ProvedEvaluations where
  one := evaluate setup key
  batch := evaluateBatch setup key
  all := evaluateAll setup key

theorem evaluations_eq (h : key.parse true = .ok parts) :
    evaluations setup key
      = (parts.prover setup key.rangeSize key.dataSize).evaluations.limited key.rangeSize := by
  unfold evaluations evaluate evaluateBatch evaluateAll
  rw [Key.prover_eq setup h]
  rfl

theorem evaluations_of_payload (setup : Setup) (h : Key.DifferIn .payload key key' parts parts') :
    evaluations setup key'
      = ((parts.prover setup key.rangeSize key.dataSize).withOutput
          ({ parts with payload := parts'.payload }.output setup.prg key.dataSize)).evaluations.limited
            key.rangeSize := by
  rw [evaluations_eq h.parse', h.rangeSize_eq, h.dataSize_eq, h.parts_of_payload]
  rfl

theorem shifted_of_payload (h : Key.DifferIn .payload key key' parts parts') :
    (evaluations setup key).Shifted key.rangeSize
      (parts.payloadShift setup.prg key.rangeSize key.dataSize parts'.payload)
      (evaluations setup key') := by
  let prover := parts.prover setup key.rangeSize key.dataSize
  let output := { parts with payload := parts'.payload }.output setup.prg key.dataSize
  have hsized : prover.Sized :=
    Parts.sized_evaluator setup.prg (Key.length_levels h.parse) key.dataSize
  have hshifted : prover.evaluations.Shifted key.rangeSize (prover.shift output)
      (prover.withOutput output).evaluations :=
    Prover.shifted_withOutput hsized (fun leaf => Parts.length_output _ _ leaf)
      (Key.parse_eq_ok_iff.mp h.parse).1.supported
  rw [evaluations_eq h.parse, evaluations_of_payload setup h, ← h.shift_output setup]
  exact hshifted.limited key.rangeSize

theorem outputsAgree_of_proofCorrection (h : Key.DifferIn .proofCorrection key key' parts parts') :
    (evaluations setup key).OutputsAgree (evaluations setup key') := by
  rw [evaluations_eq h.parse, evaluations_eq h.parse', h.rangeSize_eq, h.dataSize_eq,
    h.parts_of_proofCorrection]
  exact ProvedEvaluations.OutputsAgree.limited (Prover.outputsAgree_withTags _ _ _) _

variable {indices : List UInt64} {n points d : Nat} {data : Bytes} {tape rest : Tape}
  {keys : Pair Key}

/-- The keys of a generated pair stand for trees of the sizes asked for, and these agree. -/
theorem agree_of_generate
    (h : (generate setup indices n points d data).runOn tape = (.ok keys, rest)) :
    ∃ held : Party → Parts,
      (∀ party, (keys.get party).rangeSize = n ∧ (keys.get party).points = points ∧
        (keys.get party).dataSize = d ∧ (keys.get party).parse true = .ok (held party)) ∧
      Prover.Agree n d (value indices d data) ((held .a).prover setup n d)
        ((held .b).prover setup n d) := by
  let corrections : Shares → Option (List Tag) := fun shares =>
    some (shares.proofCorrections setup.hashes indices)
  obtain ⟨⟨-, hspecial, -, hd⟩, -⟩ := (Shares.runOn_draw_toKeys_eq_ok_iff corrections).mp h
  have hwritten := Shares.writtenTo corrections
    (Shares.length_of_mem_some_proofCorrections setup hspecial d data tape) h
  let shares := Shares.ofTape setup.prg indices n points d data tape
  refine ⟨shares.parts points (shares.proofCorrections setup.hashes indices), ?_,
    Shares.agree (Shares.separates_growOn setup.prg tape hspecial) hspecial hd⟩
  intro party
  obtain ⟨hn, hpoints, hd⟩ := hwritten.declared party
  exact ⟨hn, hpoints, hd, hwritten.parse party⟩

/-- The keys for other values are the same keys with another payload. -/
theorem differIn_of_generate {data' : Bytes} (hdata : data'.length = data.length)
    (h : (generate setup indices n points d data).runOn tape = (.ok keys, rest)) :
    ∃ keys', (generate setup indices n points d data').runOn tape = (.ok keys', rest) ∧
      ∀ party, ∃ parts parts',
        Key.DifferIn .payload (keys.get party) (keys'.get party) parts parts' := by
  let corrections : Shares → Option (List Tag) := fun shares =>
    some (shares.proofCorrections setup.hashes indices)
  obtain ⟨⟨-, hspecial, -, -⟩, -⟩ := (Shares.runOn_draw_toKeys_eq_ok_iff corrections).mp h
  obtain ⟨keys', layout, h', htable, hshifted⟩ := Shares.shifted corrections hdata rfl
    (Shares.length_of_mem_some_proofCorrections setup hspecial d data tape) h
  obtain ⟨held, hkeys, -⟩ := agree_of_generate h
  obtain ⟨held', hkeys', -⟩ := agree_of_generate h'
  refine ⟨keys', h', ?_⟩
  intro party
  obtain ⟨hn, hpoints, hd, hparse⟩ := hkeys party
  refine ⟨held party, held' party, (hshifted party).declared, hparse, (hkeys' party).2.2.2, layout,
    ?_, (hshifted party).unchanged⟩
  rw [hn, hpoints, hd]
  exact htable

/-- If the payload of one key of a generated pair is replaced, the values are shifted. -/
theorem reconstructAll_of_payload
    (h : (generate setup indices n points d data).runOn tape = (.ok keys, rest)) {party : Party}
    (hdiffer : Key.DifferIn .payload (keys.get party) key' parts parts') :
    let replaced := keys.replace party key'
    (evaluations setup replaced.a).ReconstructAll n d
      (fun x => Bytes.xor (value indices d data x)
        (parts.payloadShift setup.prg n d parts'.payload x))
      (evaluations setup replaced.b) := by
  obtain ⟨held, hkeys, hagree⟩ := agree_of_generate h
  obtain ⟨hn, -, hd, hheld⟩ := hkeys party
  have hparts : held party = parts := Except.ok.inj (hheld.symm.trans hdiffer.parse)
  subst hparts
  have hformed := (Key.parse_eq_ok_iff.mp hdiffer.parse).1
  have hshift := hdiffer.shift_output setup
  have hreplaced := evaluations_of_payload setup hdiffer
  rw [hn, hd] at hshift hreplaced
  have hkept : ∀ other, evaluations setup (keys.get other)
      = ((held other).prover setup n d).evaluations.limited n := by
    intro other
    obtain ⟨hn, -, hd, hheld⟩ := hkeys other
    rw [evaluations_eq hheld, hn, hd]
  rw [← hshift]
  exact Prover.Agree.reconstructAll_replace (fun leaf => Parts.length_output _ _ leaf)
    (evaluations setup) (fun other => (held other).prover setup n d) hagree hkept
    (hn ▸ hformed.supported) hreplaced

end Verified

end MultiPoint

/-! ### Both kinds -/

/-- **A proof covers the leaves and not the payload.**  With another payload every evaluation has the
same proof, and outputs that are shifted by what the payloads differ by where the leaf picks it;
with other proof corrections every evaluation has the same outputs.  If the payload of one key of a
generated pair is replaced, both parties still have the same proof, and reconstruct shifted
values. -/
theorem evaluations_of_replaced_field (setup : Setup) :
    (∀ (key key' : Point.Key) (parts parts' : Point.Parts),
      Point.Key.DifferIn .payload key key' parts parts' →
      (Point.Verified.evaluations setup key).Shifted key.rangeSize
        (parts.payloadShift setup.prg key.rangeSize key.dataSize parts'.payload)
        (Point.Verified.evaluations setup key')) ∧
    (∀ (key key' : Point.Key) (parts parts' : Point.Parts),
      Point.Key.DifferIn .proofCorrection key key' parts parts' →
      (Point.Verified.evaluations setup key).OutputsAgree
        (Point.Verified.evaluations setup key')) ∧
    (∀ (index : UInt64) (n d : Nat) (data : Bytes) (tape rest : Tape) (keys : Pair Point.Key),
      (Point.Verified.generate setup index n d data).runOn tape = (.ok keys, rest) →
      ∀ (party : Party) (key' : Point.Key) (parts parts' : Point.Parts),
        Point.Key.DifferIn .payload (keys.get party) key' parts parts' →
        let replaced := keys.replace party key'
        (Point.Verified.evaluations setup replaced.a).ReconstructAll n d
          (fun x => Bytes.xor (Point.value index data x)
            (parts.payloadShift setup.prg n d parts'.payload x))
          (Point.Verified.evaluations setup replaced.b)) ∧
    (∀ (key key' : MultiPoint.Key) (parts parts' : MultiPoint.Parts),
      MultiPoint.Key.DifferIn .payload key key' parts parts' →
      (MultiPoint.Verified.evaluations setup key).Shifted key.rangeSize
        (parts.payloadShift setup.prg key.rangeSize key.dataSize parts'.payload)
        (MultiPoint.Verified.evaluations setup key')) ∧
    (∀ (key key' : MultiPoint.Key) (parts parts' : MultiPoint.Parts),
      MultiPoint.Key.DifferIn .proofCorrection key key' parts parts' →
      (MultiPoint.Verified.evaluations setup key).OutputsAgree
        (MultiPoint.Verified.evaluations setup key')) ∧
    (∀ (indices : List UInt64) (n points d : Nat) (data : Bytes) (tape rest : Tape)
      (keys : Pair MultiPoint.Key),
      (MultiPoint.Verified.generate setup indices n points d data).runOn tape
        = (.ok keys, rest) →
      ∀ (party : Party) (key' : MultiPoint.Key) (parts parts' : MultiPoint.Parts),
        MultiPoint.Key.DifferIn .payload (keys.get party) key' parts parts' →
        let replaced := keys.replace party key'
        (MultiPoint.Verified.evaluations setup replaced.a).ReconstructAll n d
          (fun x => Bytes.xor (MultiPoint.value indices d data x)
            (parts.payloadShift setup.prg n d parts'.payload x))
          (MultiPoint.Verified.evaluations setup replaced.b)) := by
  refine ⟨?_, ?_, ?_, ?_, ?_, ?_⟩
  · intro key key' parts parts' h
    exact Point.Verified.shifted_of_payload h
  · intro key key' parts parts' h
    exact Point.Verified.outputsAgree_of_proofCorrection h
  · intro index n d data tape rest keys h party key' parts parts' hdiffer
    exact Point.Verified.reconstructAll_of_payload h hdiffer
  · intro key key' parts parts' h
    exact MultiPoint.Verified.shifted_of_payload h
  · intro key key' parts parts' h
    exact MultiPoint.Verified.outputsAgree_of_proofCorrection h
  · intro indices n points d data tape rest keys h party key' parts parts' hdiffer
    exact MultiPoint.Verified.reconstructAll_of_payload h hdiffer

/-- Keys that no generation would make, with one byte of the payload replaced or with the proof
corrections replaced, and generated keys of which party B's is replaced by the one for other
values. -/
theorem evaluations_of_replaced_field_small_keys :
    let setup : Setup := ⟨.ofBlock 0, ⟨1, 2⟩⟩
    let tags : Bytes := List.replicate 64 0xab
    let key (byte : UInt8) (tags : Bytes) : Point.Key :=
      ⟨1 :: (List.replicate 35 0xab ++ byte :: 0xab :: tags), 2, 1⟩
    let keyOfPoints (byte : UInt8) (tags : Bytes) : MultiPoint.Key :=
      ⟨1 :: 1 :: (List.replicate 41 0xab ++ byte :: 0xab :: tags), 2, 1, 1⟩
    (∃ proved proved',
      Point.Verified.evaluate setup (key 0xab tags) 1 = .ok proved ∧
      Point.Verified.evaluate setup (key 0xaa tags) 1 = .ok proved' ∧
      proved'.proof = proved.proof) ∧
    (Point.Verified.evaluateAll setup (key 0xab (Bytes.zeros 64))).map Proved.output
      = (Point.Verified.evaluateAll setup (key 0xab tags)).map Proved.output ∧
    (∃ keys keys' rest, ∃ parts parts' : Point.Parts,
      (Point.Verified.generate setup 1 2 1 [7]).runOn (.ofBytes []) = (.ok keys, rest) ∧
      (Point.Verified.generate setup 1 2 1 [8]).runOn (.ofBytes []) = (.ok keys', rest) ∧
      Reconstructs (Bytes.xor [7] (parts.payloadShift setup.prg 2 1 parts'.payload 1))
        (Point.Verified.evaluate setup keys.a 1) (Point.Verified.evaluate setup keys'.b 1)) ∧
    (∃ proved proved',
      MultiPoint.Verified.evaluateBatch setup (keyOfPoints 0xab tags) [1, 0, 0] = .ok proved ∧
      MultiPoint.Verified.evaluateBatch setup (keyOfPoints 0xaa tags) [1, 0, 0] = .ok proved' ∧
      proved'.proof = proved.proof) ∧
    (MultiPoint.Verified.evaluateAll setup (keyOfPoints 0xab (Bytes.zeros 64))).map Proved.output
      = (MultiPoint.Verified.evaluateAll setup (keyOfPoints 0xab tags)).map Proved.output ∧
    ∃ keys keys' rest, ∃ parts parts' : MultiPoint.Parts,
      (MultiPoint.Verified.generate setup [1, 2] 2 2 1 [7, 9]).runOn (.ofBytes [])
        = (.ok keys, rest) ∧
      (MultiPoint.Verified.generate setup [1, 2] 2 2 1 [7, 8]).runOn (.ofBytes [])
        = (.ok keys', rest) ∧
      Reconstructs (Bytes.xor [9] (parts.payloadShift setup.prg 2 1 parts'.payload 2))
        (MultiPoint.Verified.evaluate setup keys.a 2)
        (MultiPoint.Verified.evaluate setup keys'.b 2) := by
  intro setup tags key keyOfPoints
  obtain ⟨hpayload, htags, hpair, hpayloads, hproofs, hpairs⟩ := evaluations_of_replaced_field setup
  have hkey : (key 0xab tags).WellFormed true := by constructor <;> decide
  have hkeyOfPoints : (keyOfPoints 0xab tags).WellFormed true := by constructor <;> decide
  refine ⟨?_, ?_, ?_, ?_, ?_, ?_⟩
  · obtain ⟨parts, parts', hdiffer⟩ := hkey.differIn .payload
      (show (key 0xaa tags).WellFormed true by constructor <;> decide) rfl (by decide)
    have hquery : ∀ x ∈ [(1 : UInt64)], x.toNat < domainSize 1 := by simp [domainSize]
    have hprover := Point.Key.prover_eq setup hdiffer.parse
    have hone : (Point.Verified.evaluations setup (key 0xab tags)).one 1 = .ok _ :=
      (Point.Verified.evaluate_eq hprover 1).trans
        (Prover.proveAt_eq_ok _ hquery (show 1 * 2 ≤ maxBuffer by decide))
    have hshifted := (hpayload _ _ _ _ hdiffer).one 1
    rw [hone] at hshifted
    obtain ⟨proved', hone', hproof, -⟩ := hshifted.of_ok
    exact ⟨_, proved', hone, hone', hproof⟩
  · obtain ⟨parts, parts', hdiffer⟩ := hkey.differIn .proofCorrection
      (show (key 0xab (Bytes.zeros 64)).WellFormed true by constructor <;> decide) rfl (by decide)
    exact (htags _ _ _ _ hdiffer).all
  · obtain ⟨keys, rest, hrun⟩ := Point.Verified.exists_generate setup (.ofBytes [])
      (show 2 ≤ maxRangeBits by decide) (show ([7] : Bytes).length = 1 from rfl)
      (show (1 : UInt64).toNat < domainSize 2 by decide) (by decide)
    obtain ⟨keys', hrun', hdiffers⟩ :=
      Point.Verified.differIn_of_generate (show ([8] : Bytes).length = 1 from rfl) hrun
    obtain ⟨parts, parts', hdiffer⟩ := hdiffers .b
    have hvalue := (hpair 1 2 1 [7] (.ofBytes []) rest keys hrun .b keys'.b parts parts' hdiffer).one
      1 (by decide) (by decide)
    exact ⟨keys, keys', rest, parts, parts', hrun, hrun', hvalue⟩
  · obtain ⟨parts, parts', hdiffer⟩ := hkeyOfPoints.differIn .payload
      (show (keyOfPoints 0xaa tags).WellFormed true by constructor <;> decide) rfl (by decide)
    have hqueries : ∀ x ∈ [1, 0, (0 : UInt64)], x.toNat < domainSize 1 := by simp [domainSize]
    have hprover := MultiPoint.Key.prover_eq setup hdiffer.parse
    have hbatch :
        (MultiPoint.Verified.evaluations setup (keyOfPoints 0xab tags)).batch [1, 0, 0] = .ok _ :=
      (MultiPoint.Verified.evaluateBatch_eq hprover (by decide) _).trans
        (Prover.proveAt_eq_ok _ hqueries (show 3 * 2 ≤ maxBuffer by decide))
    have hshifted := (hpayloads _ _ _ _ hdiffer).batch [1, 0, 0]
    rw [hbatch] at hshifted
    obtain ⟨proved', hbatch', hproof, -⟩ := hshifted.of_ok
    exact ⟨_, proved', hbatch, hbatch', hproof⟩
  · obtain ⟨parts, parts', hdiffer⟩ := hkeyOfPoints.differIn .proofCorrection
      (show (keyOfPoints 0xab (Bytes.zeros 64)).WellFormed true by constructor <;> decide) rfl
      (by decide)
    exact (hproofs _ _ _ _ hdiffer).all
  · have hspecial : MultiPoint.SpecialIndices [1, 2] 2 2 :=
      ⟨by simp [domainSize], by decide, rfl, by decide, by decide⟩
    obtain ⟨keys, rest, hrun⟩ := MultiPoint.Verified.exists_generate setup (.ofBytes [])
      (by decide) hspecial (by decide) (show ([7, 9] : Bytes).length = 2 * 1 from rfl) (by decide)
    obtain ⟨keys', hrun', hdiffers⟩ :=
      MultiPoint.Verified.differIn_of_generate (show ([7, 8] : Bytes).length = 2 from rfl) hrun
    obtain ⟨parts, parts', hdiffer⟩ := hdiffers .b
    have hvalue := (hpairs [1, 2] 2 2 1 [7, 9] (.ofBytes []) rest keys hrun .b keys'.b parts parts'
      hdiffer).one 2 (by simp [domainSize]) (by decide)
    exact ⟨keys, keys', rest, parts, parts', hrun, hrun', hvalue⟩

end PointSharing
