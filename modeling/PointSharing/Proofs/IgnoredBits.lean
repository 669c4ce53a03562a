/-
The bits of a key that do not count.

A byte that stands for a single bit is read by its lowest bit, and the other seven are dropped.  In
a key with one special point these are the byte of the root bit and the last two bytes of every
correction, in a key with several the byte of the party.  Here it is shown that nothing else is
dropped: two accepted keys of the same declared sizes are parsed to the same parts exactly if they
have the same bits but for these.

The argument goes the way that a key is read.  Each decoder is compared with the bits of the string
that it reads, words are compared one by one and then the fields of the key; the header fields are
the same because the declared sizes are.
-/
import PointSharing.Proofs.MultiPoint.Key
import PointSharing.Proofs.Point.Key
import PointSharing.Proofs.SameBits

namespace PointSharing

/-- Every bit counts. -/
def noBit (_ _ : Nat) : Prop := False

theorem sameBits_noBit {bytes bytes' : Bytes} (h : bytes.length = bytes'.length) :
    SameBits noBit bytes bytes' ↔ bytes = bytes' :=
  sameBits_iff_eq h fun _ _ _ hignored => hignored

/-- What is written back as it was read is read with all of its bits. -/
theorem decode_eq_iff {α : Type} {decode : Bytes → α} {encode : α → Bytes} {size : Nat}
    (hencode : ∀ bytes : Bytes, bytes.length = size → encode (decode bytes) = bytes)
    {bytes bytes' : Bytes} (h : bytes.length = size) (h' : bytes'.length = size) :
    decode bytes = decode bytes' ↔ SameBits noBit bytes bytes' := by
  rw [sameBits_noBit (h.trans h'.symm)]
  constructor
  · intro heq
    rw [← hencode bytes h, ← hencode bytes' h', heq]
  · rintro rfl
    rfl

/-! ### Parties, blocks, sign vectors and tags -/

theorem Party.ofByte_eq_iff (x y : UInt8) :
    ofByte x = ofByte y ↔ (x &&& 1 == 1) = (y &&& 1 == 1) := by
  unfold ofByte
  cases x &&& 1 == 1 <;> cases y &&& 1 == 1 <;> decide

theorem Party.ofByte_headD_eq_iff {ignored : Nat → Nat → Prop} {bytes bytes' : Bytes}
    (h : bytes.length = 1) (h' : bytes'.length = 1) (hlowest : ∀ j, ignored 0 j ↔ 0 < j) :
    ofByte (bytes.headD 0) = ofByte (bytes'.headD 0) ↔ SameBits ignored bytes bytes' := by
  obtain ⟨x, rfl⟩ := List.length_eq_one_iff.mp h
  obtain ⟨y, rfl⟩ := List.length_eq_one_iff.mp h'
  rw [sameBits_singleton hlowest]
  exact ofByte_eq_iff x y

theorem Block.toBytes_ofBytes_take {bytes : Bytes} (h : 16 ≤ bytes.length) :
    (ofBytes bytes).toBytes = bytes.take 16 := by
  have hread : ofBytes bytes = ofBytes (bytes.take 16) := by
    rw [ofBytes, ofBytes, List.take_take, Nat.min_self]
  rw [hread]
  exact toBytes_ofBytes (List.length_take_of_le h)

theorem SignVector.toBytes_ofBytes_take {bytes : Bytes} (h : 4 ≤ bytes.length) :
    toBytes (ofBytes bytes) = bytes.take 4 := by
  have hread : ofBytes bytes = ofBytes (bytes.take 4) := by
    rw [ofBytes, ofBytes, List.take_take, Nat.min_self]
  rw [hread]
  exact toBytes_ofBytes (List.length_take_of_le h)

theorem Tag.toBytes_ofBytes {bytes : Bytes} (h : bytes.length = tagSize) :
    (ofBytes bytes).toBytes = bytes := by
  have hwords : (ofBytes bytes).toList.map Block.toBytes
      = Bytes.words blockSize tagBlocks bytes := by
    apply List.ext_getElem
    · simp [toList]
    · intro i hi hi'
      have hlt : i < tagBlocks := by simpa using hi'
      have hblock : blockSize ≤ (bytes.drop (blockSize * i)).length := by
        rw [List.length_drop, h, tagSize, tagBlocks, blockSize]
        rw [tagBlocks] at hlt
        omega
      have hword : (Bytes.words blockSize tagBlocks bytes)[i]? = _ := Bytes.getElem?_words bytes hlt
      rw [List.getElem?_eq_getElem hi'] at hword
      rw [Option.some.inj hword, Nat.mul_comm, List.getElem_map]
      simp only [toList, ofBytes, Vector.getElem_toList, Vector.getElem_ofFn, if_pos hblock]
      exact Block.toBytes_ofBytes_take hblock
  rw [toBytes, Block.listToBytes, List.flatMap_def, hwords]
  exact Bytes.flatten_words h

/-! ### Corrections -/

theorem SignCorrection.toBytes_ofBytes {bytes : Bytes} (h : bytes.length = signCorrectionSize) :
    (ofBytes bytes).toBytes = bytes := by
  rw [signCorrectionSize] at h
  have hrest : (bytes.drop 20).take 4 = (bytes.drop 16).drop 4 := by
    rw [List.drop_drop, List.take_of_length_le]
    rw [List.length_drop]
    omega
  rw [toBytes, ofBytes, Block.toBytes_ofBytes_take (by omega),
    SignVector.toBytes_ofBytes_take (by rw [List.length_drop]; omega),
    SignVector.toBytes_ofBytes_take (by rw [List.length_drop]; omega), hrest, List.append_assoc,
    List.take_append_drop, List.take_append_drop]

namespace BitCorrection

/-- The bits of a correction that do not count: those above the lowest of a control bit. -/
def ignored (i j : Nat) : Prop := blockSize ≤ i % bitCorrectionSize ∧ 0 < j

/-- Every correction of a level ignores the same bits. -/
theorem ignored_add (i j : Nat) : ignored (bitCorrectionSize + i) j ↔ ignored i j := by
  rw [ignored, ignored, Nat.add_mod_left]

theorem exists_eq_append {w : Bytes} (h : w.length = bitCorrectionSize) :
    ∃ seed x y, seed.length = blockSize ∧ w = seed ++ ([x] ++ [y]) := by
  rw [bitCorrectionSize] at h
  have hrest : (w.drop blockSize).length = 2 := by
    rw [List.length_drop, h, blockSize]
  obtain ⟨x, y, hxy⟩ := List.length_eq_two.mp hrest
  refine ⟨w.take blockSize, x, y, List.length_take_of_le ?_, ?_⟩
  · rw [h, blockSize]
    decide
  · rw [List.singleton_append, ← hxy, List.take_append_drop]

theorem ofBytes_append {seed : Bytes} (h : seed.length = blockSize) (x y : UInt8) :
    ofBytes (seed ++ ([x] ++ [y])) = ⟨Block.ofBytes seed, bitOfByte x, bitOfByte y⟩ := by
  rw [blockSize] at h
  have hseed : Block.ofBytes (seed ++ ([x] ++ [y])) = Block.ofBytes seed := by
    rw [Block.ofBytes, Block.ofBytes, List.take_left' h, List.take_of_length_le (by omega)]
  have hleft : (seed ++ ([x] ++ [y])).drop 16 = [x, y] := List.drop_left' h
  have hright : (seed ++ ([x] ++ [y])).drop 17 = [y] := by
    rw [show (17 : Nat) = 16 + 1 from rfl, ← List.drop_drop, hleft]
    rfl
  rw [ofBytes, hseed, hleft, hright]
  rfl

theorem ofBytes_eq_iff {w w' : Bytes} (h : w.length = bitCorrectionSize)
    (h' : w'.length = bitCorrectionSize) : ofBytes w = ofBytes w' ↔ SameBits ignored w w' := by
  obtain ⟨seed, x, y, hseed, rfl⟩ := exists_eq_append h
  obtain ⟨seed', x', y', hseed', rfl⟩ := exists_eq_append h'
  -- all bits of the seed count, and the two bytes after it are the control bits
  have hkept : ∀ i j, i < seed.length → ¬ ignored i j := by
    intro i j hi hignored
    have hmod : i % bitCorrectionSize = i :=
      Nat.mod_eq_of_lt (Nat.lt_trans (hseed ▸ hi) (by decide))
    rw [ignored, hmod, ← hseed] at hignored
    omega
  have hlowest : ∀ k, k < 2 → ∀ j, ignored (seed.length + k) j ↔ 0 < j := by
    intro k hk j
    have hmod : (seed.length + k) % bitCorrectionSize = blockSize + k := by
      rw [hseed]
      exact Nat.mod_eq_of_lt (Nat.add_lt_add_left hk blockSize)
    rw [ignored, hmod]
    exact and_iff_right (Nat.le_add_right _ _)
  rw [ofBytes_append hseed, ofBytes_append hseed', Correction.mk.injEq,
    sameBits_append (hseed.trans hseed'.symm),
    sameBits_append (show [x].length = [x'].length from rfl),
    sameBits_iff_eq (hseed.trans hseed'.symm) hkept, ← sameBits_noBit (hseed.trans hseed'.symm),
    sameBits_singleton (hlowest 0 (by decide)), sameBits_singleton (hlowest 1 (by decide)),
    decode_eq_iff (fun _ => Block.toBytes_ofBytes) hseed hseed']
  rfl

end BitCorrection

theorem Layout.read_eq_of_headers {layout : Layout} {field : Field} {key key' : Bytes}
    (hnodup : (layout.fields.map Prod.fst).Nodup) (hkey : key.length = layout.size)
    (hkey' : key'.length = layout.size) (hmem : (field, 1) ∈ layout.fields)
    (h : layout.header key field = layout.header key' field) :
    layout.read key field = layout.read key' field := by
  rw [read_eq_of_header hnodup hkey hmem, read_eq_of_header hnodup hkey' hmem, h]

/-! ### One special point -/

namespace Point

/-- The bits of a field that do not count. -/
def ignored : Field → Nat → Nat → Prop
  | .rootBit, _, j => 0 < j
  | .levelCorrections, i, j => BitCorrection.ignored i j
  | _, _, _ => False

variable {n d : Nat} {verifiable : Bool}

theorem forall_field_iff {P : Field → Prop} :
    (∀ field ∈ (Layout.pointTable n d verifiable).fields.map Prod.fst, P field) ↔
      P .rangeSize ∧ P .rootSeed ∧ P .rootBit ∧ P .levelCorrections ∧ P .payload ∧
        (verifiable = true → P .proofCorrection) := by
  cases verifiable <;> simp [Layout.pointTable]

/-- The corrections of all levels compare like the bits that count in them. -/
theorem corrections_eq_iff {bytes bytes' : Bytes} (h : bytes.length = bitCorrectionSize * n)
    (h' : bytes'.length = bitCorrectionSize * n) :
    (Bytes.words bitCorrectionSize n bytes).map BitCorrection.ofBytes
        = (Bytes.words bitCorrectionSize n bytes').map BitCorrection.ofBytes ↔
      SameBits BitCorrection.ignored bytes bytes' := by
  rw [Nat.mul_comm] at h h'
  exact map_words_eq_iff BitCorrection.ignored_add (fun _ _ => BitCorrection.ofBytes_eq_iff) h h'

theorem length_of_fits {field : Field → Bytes}
    (h : (Layout.pointTable n d verifiable).Fits field) :
    (field .rootSeed).length = blockSize ∧ (field .rootBit).length = 1 ∧
      (field .levelCorrections).length = bitCorrectionSize * n ∧ (field .payload).length = d ∧
      (verifiable = true → (field .proofCorrection).length = tagSize) := by
  cases verifiable <;> simp_all [Layout.Fits, Layout.pointTable]

/-- Fields are read the same exactly if they have the same bits. -/
theorem ofFields_eq_iff {field field' : Field → Bytes}
    (h : (Layout.pointTable n d verifiable).Fits field)
    (h' : (Layout.pointTable n d verifiable).Fits field')
    (hheader : field .rangeSize = field' .rangeSize)
    (hmissing : verifiable = false → field .proofCorrection = field' .proofCorrection) :
    Parts.ofFields n field = Parts.ofFields n field' ↔
      ∀ name ∈ (Layout.pointTable n d verifiable).fields.map Prod.fst,
        SameBits (ignored name) (field name) (field' name) := by
  obtain ⟨hseedLength, hbitLength, hlevelsLength, hpayloadLength, htagLength⟩ := length_of_fits h
  obtain ⟨hseedLength', hbitLength', hlevelsLength', hpayloadLength', htagLength'⟩ :=
    length_of_fits h'
  have hseed : Block.ofBytes (field .rootSeed) = Block.ofBytes (field' .rootSeed) ↔
      SameBits (ignored .rootSeed) (field .rootSeed) (field' .rootSeed) :=
    decode_eq_iff (fun _ => Block.toBytes_ofBytes) hseedLength hseedLength'
  have hparty : Party.ofByte ((field .rootBit).headD 0) = Party.ofByte ((field' .rootBit).headD 0)
      ↔ SameBits (ignored .rootBit) (field .rootBit) (field' .rootBit) :=
    Party.ofByte_headD_eq_iff hbitLength hbitLength' fun _ => Iff.rfl
  have hcorrections :
      (Bytes.words bitCorrectionSize n (field .levelCorrections)).map BitCorrection.ofBytes
        = (Bytes.words bitCorrectionSize n (field' .levelCorrections)).map BitCorrection.ofBytes
      ↔ SameBits (ignored .levelCorrections) (field .levelCorrections)
        (field' .levelCorrections) :=
    corrections_eq_iff hlevelsLength hlevelsLength'
  have hpayload : field .payload = field' .payload ↔
      SameBits (ignored .payload) (field .payload) (field' .payload) :=
    (sameBits_noBit (hpayloadLength.trans hpayloadLength'.symm)).symm
  have htag : Tag.ofBytes (field .proofCorrection) = Tag.ofBytes (field' .proofCorrection) ↔
      (verifiable = true → SameBits (ignored .proofCorrection) (field .proofCorrection)
        (field' .proofCorrection)) := by
    cases verifiable with
    | false =>
        -- there is no such field to compare, and both read it as the empty string
        rw [hmissing rfl]
        exact iff_of_true rfl fun hfalse => absurd hfalse (by decide)
    | true =>
        rw [decode_eq_iff (fun _ => Tag.toBytes_ofBytes) (htagLength rfl) (htagLength' rfl)]
        exact ⟨fun hsame _ => hsame, fun hsame => hsame rfl⟩
  rw [forall_field_iff, Parts.ofFields, Parts.ofFields, Parts.mk.injEq, hseed, hparty,
    hcorrections, hpayload, htag]
  exact (and_iff_right (.of_eq hheader)).symm

/-- **Two keys are parsed to the same parts exactly if they have the same bits that count.** -/
theorem parts_eq_iff {bytes bytes' : Bytes} {parts parts' : Parts}
    (h : Key.parse ⟨bytes, d, n⟩ verifiable = .ok parts)
    (h' : Key.parse ⟨bytes', d, n⟩ verifiable = .ok parts') :
    parts = parts' ↔
      SameBits ((Layout.pointTable n d verifiable).Ignored ignored) bytes bytes' := by
  obtain ⟨hformed, rfl⟩ := Key.parse_eq_ok_iff.mp h
  obtain ⟨hformed', rfl⟩ := Key.parse_eq_ok_iff.mp h'
  have hnodup := Layout.nodup_pointTable n d verifiable
  have hheader := Layout.read_eq_of_headers hnodup hformed.length hformed'.length
    (show (.rangeSize, 1) ∈ _ by simp [Layout.pointTable])
    (hformed.rangeSize.trans hformed'.rangeSize.symm)
  rw [Layout.sameBits_iff_fields hnodup hformed.length hformed'.length]
  refine ofFields_eq_iff (Layout.fits_read hnodup hformed.length)
    (Layout.fits_read hnodup hformed'.length) hheader ?_
  rintro rfl
  have hmissing : Field.proofCorrection ∉ (Layout.pointTable n d false).fields.map Prod.fst := by
    simp [Layout.pointTable]
  exact (Layout.read_missing hmissing bytes).trans (Layout.read_missing hmissing bytes').symm

end Point

/-! ### Several special points -/

namespace MultiPoint

/-- The bits of a field that do not count. -/
def ignored : Field → Nat → Nat → Prop
  | .party, _, j => 0 < j
  | _, _, _ => False

variable {n t d : Nat} {verifiable : Bool}

theorem decodeLevels_eq_iff {bytes bytes' : Bytes} (h : bytes.length = signCorrectionSize * n * t)
    (h' : bytes'.length = signCorrectionSize * n * t) :
    decodeLevels n t bytes = decodeLevels n t bytes' ↔ SameBits noBit bytes bytes' := by
  have hcount : signCorrectionSize * n * t = n * (signCorrectionSize * t) := by
    rw [Nat.mul_comm signCorrectionSize n, Nat.mul_assoc]
  rw [hcount] at h h'
  refine map_words_eq_iff (fun _ _ => Iff.rfl) (fun level level' hl hl' => ?_) h h'
  rw [Nat.mul_comm] at hl hl'
  refine map_words_eq_iff (fun _ _ => Iff.rfl) (fun w w' hw hw' => ?_) hl hl'
  exact decode_eq_iff (fun _ => SignCorrection.toBytes_ofBytes) hw hw'

theorem forall_field_iff {P : Field → Prop} :
    (∀ field ∈ (Layout.multiPointTable n t d verifiable).fields.map Prod.fst, P field) ↔
      P .rangeSize ∧ P .rangePoints ∧ P .rootSeed ∧ P .party ∧ P .levelCorrections ∧ P .payload ∧
        (verifiable = true → P .proofCorrection) := by
  cases verifiable <;> simp [Layout.multiPointTable]

theorem payload_eq_iff {bytes bytes' : Bytes} (h : bytes.length = d * t)
    (h' : bytes'.length = d * t) :
    Bytes.words d t bytes = Bytes.words d t bytes' ↔ SameBits noBit bytes bytes' := by
  rw [Nat.mul_comm] at h h'
  exact decode_eq_iff (fun _ => Bytes.flatten_words) h h'

theorem proofCorrections_eq_iff {bytes bytes' : Bytes} (h : bytes.length = tagSize * t)
    (h' : bytes'.length = tagSize * t) :
    (Bytes.words tagSize t bytes).map Tag.ofBytes = (Bytes.words tagSize t bytes').map Tag.ofBytes ↔
      SameBits noBit bytes bytes' := by
  rw [Nat.mul_comm] at h h'
  exact map_words_eq_iff (fun _ _ => Iff.rfl)
    (fun _ _ => decode_eq_iff fun _ => Tag.toBytes_ofBytes) h h'

/-- Fields are read the same exactly if they have the same bits. -/
theorem ofFields_eq_iff {field field' : Field → Bytes}
    (h : (Layout.multiPointTable n t d verifiable).Fits field)
    (h' : (Layout.multiPointTable n t d verifiable).Fits field')
    (hrange : field .rangeSize = field' .rangeSize)
    (hpoints : field .rangePoints = field' .rangePoints) :
    Parts.ofFields n t d verifiable field = Parts.ofFields n t d verifiable field' ↔
      ∀ name ∈ (Layout.multiPointTable n t d verifiable).fields.map Prod.fst,
        SameBits (ignored name) (field name) (field' name) := by
  obtain ⟨hseedLength, hbitLength, hlevelsLength, hpayloadLength, htagsLength⟩ := length_of_fits h
  obtain ⟨hseedLength', hbitLength', hlevelsLength', hpayloadLength', htagsLength'⟩ :=
    length_of_fits h'
  have hseed : Block.ofBytes (field .rootSeed) = Block.ofBytes (field' .rootSeed) ↔
      SameBits (ignored .rootSeed) (field .rootSeed) (field' .rootSeed) :=
    decode_eq_iff (fun _ => Block.toBytes_ofBytes) hseedLength hseedLength'
  have hparty : Party.ofByte ((field .party).headD 0) = Party.ofByte ((field' .party).headD 0)
      ↔ SameBits (ignored .party) (field .party) (field' .party) :=
    Party.ofByte_headD_eq_iff hbitLength hbitLength' fun _ => Iff.rfl
  have hlevels : decodeLevels n t (field .levelCorrections)
        = decodeLevels n t (field' .levelCorrections) ↔
      SameBits (ignored .levelCorrections) (field .levelCorrections)
        (field' .levelCorrections) :=
    decodeLevels_eq_iff hlevelsLength hlevelsLength'
  have hpayload : Bytes.words d t (field .payload) = Bytes.words d t (field' .payload) ↔
      SameBits (ignored .payload) (field .payload) (field' .payload) :=
    payload_eq_iff hpayloadLength hpayloadLength'
  have htags : (if verifiable then (Bytes.words tagSize t (field .proofCorrection)).map Tag.ofBytes
        else []) = (if verifiable then
          (Bytes.words tagSize t (field' .proofCorrection)).map Tag.ofBytes else []) ↔
      (verifiable = true → SameBits (ignored .proofCorrection) (field .proofCorrection)
        (field' .proofCorrection)) := by
    cases verifiable with
    | false => exact iff_of_true rfl fun hfalse => absurd hfalse (by decide)
    | true =>
        rw [if_pos rfl, if_pos rfl,
          proofCorrections_eq_iff (htagsLength rfl) (htagsLength' rfl)]
        exact ⟨fun hsame _ => hsame, fun hsame => hsame rfl⟩
  rw [forall_field_iff, Parts.ofFields, Parts.ofFields, Parts.mk.injEq, hseed, hparty, hlevels,
    hpayload, htags, and_iff_left (show t = t from rfl)]
  exact ((and_iff_right (.of_eq hrange)).trans (and_iff_right (.of_eq hpoints))).symm

/-- **Two keys are parsed to the same parts exactly if they have the same bits that count.** -/
theorem parts_eq_iff {bytes bytes' : Bytes} {parts parts' : Parts}
    (h : Key.parse ⟨bytes, d, n, t⟩ verifiable = .ok parts)
    (h' : Key.parse ⟨bytes', d, n, t⟩ verifiable = .ok parts') :
    parts = parts' ↔
      SameBits ((Layout.multiPointTable n t d verifiable).Ignored ignored) bytes bytes' := by
  obtain ⟨hformed, rfl⟩ := Key.parse_eq_ok_iff.mp h
  obtain ⟨hformed', rfl⟩ := Key.parse_eq_ok_iff.mp h'
  have hnodup := Layout.nodup_multiPointTable n t d verifiable
  have hrange := Layout.read_eq_of_headers hnodup hformed.length hformed'.length
    (show (.rangeSize, 1) ∈ _ by simp [Layout.multiPointTable])
    (hformed.rangeSize.trans hformed'.rangeSize.symm)
  have hpoints := Layout.read_eq_of_headers hnodup hformed.length hformed'.length
    (show (.rangePoints, 1) ∈ _ by simp [Layout.multiPointTable])
    (hformed.rangePoints.trans hformed'.rangePoints.symm)
  rw [Layout.sameBits_iff_fields hnodup hformed.length hformed'.length]
  exact ofFields_eq_iff (Layout.fits_read hnodup hformed.length)
    (Layout.fits_read hnodup hformed'.length) hrange hpoints

end MultiPoint

/-! ### Writing and reading -/

/-- What is written over the beginning of a string is read back, and the rest is kept. -/
theorem Bytes.read_overwrite {α : Type} {decode : Bytes → α} {x : α} {out new : Bytes} {size : Nat}
    (hread : ∀ rest, decode (new ++ rest) = x) (hnew : new.length = size)
    (hout : size ≤ out.length) : decode (overwrite out new) = x ∧
      (overwrite out new).length = out.length ∧ (overwrite out new).drop size = out.drop size := by
  refine ⟨hread _, ?_, ?_⟩
  · rw [overwrite, List.length_append, List.length_drop]
    omega
  · rw [← hnew]
    exact List.drop_left

/-- **Only the upper bits of the bytes that stand for a single bit are dropped when a key is
parsed.**  A correction that is written over the beginning of a string is read back from there and
the rest of the string is kept; what is read as a correction with sign vectors is written as it
was. -/
theorem parts_eq_iff_sameBits :
    (∀ (n d : Nat) (verifiable : Bool) (bytes bytes' : Bytes) (parts parts' : Point.Parts),
      Point.Key.parse ⟨bytes, d, n⟩ verifiable = .ok parts →
      Point.Key.parse ⟨bytes', d, n⟩ verifiable = .ok parts' →
      (parts = parts' ↔
        SameBits ((Layout.pointTable n d verifiable).Ignored Point.ignored) bytes bytes')) ∧
    (∀ (n t d : Nat) (verifiable : Bool) (bytes bytes' : Bytes)
      (parts parts' : MultiPoint.Parts),
      MultiPoint.Key.parse ⟨bytes, d, n, t⟩ verifiable = .ok parts →
      MultiPoint.Key.parse ⟨bytes', d, n, t⟩ verifiable = .ok parts' →
      (parts = parts' ↔
        SameBits ((Layout.multiPointTable n t d verifiable).Ignored MultiPoint.ignored)
          bytes bytes')) ∧
    (∀ (c : BitCorrection) (out : Bytes), 18 ≤ out.length →
      let written := Bytes.overwrite out c.toBytes
      BitCorrection.ofBytes written = c ∧ written.length = out.length ∧
        written.drop 18 = out.drop 18) ∧
    (∀ (c : SignCorrection) (out : Bytes), 24 ≤ out.length →
      let written := Bytes.overwrite out c.toBytes
      SignCorrection.ofBytes written = c ∧ written.length = out.length ∧
        written.drop 24 = out.drop 24) ∧
    ∀ bytes : Bytes, bytes.length = 24 → (SignCorrection.ofBytes bytes).toBytes = bytes := by
  refine ⟨?_, ?_, ?_, ?_, ?_⟩
  · intro n d verifiable bytes bytes' parts parts' h h'
    exact Point.parts_eq_iff h h'
  · intro n t d verifiable bytes bytes' parts parts' h h'
    exact MultiPoint.parts_eq_iff h h'
  · intro c out hout
    exact Bytes.read_overwrite c.ofBytes_toBytes_append c.length_toBytes hout
  · intro c out hout
    exact Bytes.read_overwrite c.ofBytes_toBytes_append c.length_toBytes hout
  · intro bytes h
    exact SignCorrection.toBytes_ofBytes h

/-- Keys that differ in the upper bits of the three bytes that stand for a bit, or of the byte of
the party, are the same; keys in which the lowest bit of one of them is another are not. -/
theorem parts_eq_iff_sameBits_small_keys :
    let bytes : Bytes := 1 :: List.replicate 37 0xab
    let upper : Bytes := ((bytes.set 17 0x01).set 34 0x55).set 35 0xff
    let lowest : Bytes := bytes.set 34 0xaa
    let bytesOfPoints : Bytes := 1 :: 1 :: List.replicate 107 0xab
    SameBits ((Layout.pointTable 1 2 false).Ignored Point.ignored) bytes upper ∧
    ¬ SameBits ((Layout.pointTable 1 2 false).Ignored Point.ignored) bytes lowest ∧
    SameBits ((Layout.multiPointTable 1 1 2 true).Ignored MultiPoint.ignored) bytesOfPoints
      (bytesOfPoints.set 18 0x01) ∧
    ¬ SameBits ((Layout.multiPointTable 1 1 2 true).Ignored MultiPoint.ignored) bytesOfPoints
      (bytesOfPoints.set 19 0x2b) ∧
    BitCorrection.ofBytes (Bytes.overwrite bytes (BitCorrection.toBytes ⟨5, true, false⟩))
      = ⟨5, true, false⟩ ∧
    SignCorrection.ofBytes (Bytes.overwrite bytes (SignCorrection.toBytes ⟨5, 6, 7⟩))
      = ⟨5, 6, 7⟩ ∧
    (SignCorrection.ofBytes (bytes.take 24)).toBytes = bytes.take 24 := by
  intro bytes upper lowest bytesOfPoints
  obtain ⟨hpoint, hpoints, hbits, hsigns, hread⟩ := parts_eq_iff_sameBits
  have hparse (bytes : Bytes) (h : Point.Key.WellFormed ⟨bytes, 2, 1⟩ false) :=
    Point.Key.parse_eq_ok_iff.mpr ⟨h, rfl⟩
  have hparsePoints (bytes : Bytes) (h : MultiPoint.Key.WellFormed ⟨bytes, 2, 1, 1⟩ true) :=
    MultiPoint.Key.parse_eq_ok_iff.mpr ⟨h, rfl⟩
  have hkey := hparse bytes (by constructor <;> decide)
  have hkeyOfPoints := hparsePoints bytesOfPoints (by constructor <;> decide)
  refine ⟨(hpoint _ _ _ _ _ _ _ hkey (hparse upper (by constructor <;> decide))).mp (by decide),
    fun h => absurd
      ((hpoint _ _ _ _ _ _ _ hkey (hparse lowest (by constructor <;> decide))).mpr h) (by decide),
    (hpoints _ _ _ _ _ _ _ _ hkeyOfPoints (hparsePoints _ (by constructor <;> decide))).mp
      (by decide),
    fun h => absurd ((hpoints _ _ _ _ _ _ _ _ hkeyOfPoints
      (hparsePoints _ (by constructor <;> decide))).mpr h) (by decide),
    (hbits _ bytes (by decide)).1, (hsigns _ bytes (by decide)).1, hread _ (by decide)⟩

end PointSharing
