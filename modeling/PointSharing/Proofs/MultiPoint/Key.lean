/-
Which keys of functions with several special points are parsed, and to what.

`Parts.Sized` is what the parts of a key have to satisfy to be laid out.  There are words
within words here: a level is a word of the field of level corrections, and a correction is
a word of its level.  Both are cut at the same sizes that they were joined with.

`Key.WellFormed` is what a key has to satisfy to be parsed, whoever made it.  It says nothing
of what the fields hold beyond their lengths and the two headers.
-/
import PointSharing.MultiPoint.Key
import PointSharing.Proofs.Layout
import PointSharing.Proofs.Limits
import PointSharing.Proofs.Verification.Tag

namespace PointSharing.MultiPoint

/-- The parts have the sizes that are declared for their key. -/
structure Parts.Sized (parts : Parts) (rangeSize dataSize : Nat) (verifiable : Bool) : Prop where
  supported : rangeSize ≤ maxRangeBits
  points_pos : 0 < parts.points
  points_le : parts.points ≤ maxPoints
  levels : parts.levels.length = rangeSize
  corrections : ∀ level ∈ parts.levels, level.length = parts.points
  payload : parts.payload.length = parts.points
  words : ∀ word ∈ parts.payload, word.length = dataSize
  proofCorrections : parts.proofCorrections.length = if verifiable then parts.points else 0

/-! ### Levels as words -/

theorem length_encodeLevel {level : List SignCorrection} {points : Nat}
    (h : level.length = points) :
    (level.flatMap SignCorrection.toBytes).length = signCorrectionSize * points := by
  rw [Bytes.length_flatMap_of_forall _ fun c _ => SignCorrection.length_toBytes c, h,
    signCorrectionSize]

theorem length_encodeLevels {levels : List (List SignCorrection)} {points : Nat}
    (h : ∀ level ∈ levels, level.length = points) :
    (encodeLevels levels).length = signCorrectionSize * levels.length * points := by
  unfold encodeLevels
  rw [Bytes.length_flatMap_of_forall _ fun level hlevel => length_encodeLevel (h level hlevel),
    Nat.mul_right_comm]

theorem decodeLevels_encodeLevels {levels : List (List SignCorrection)} {points : Nat}
    (h : ∀ level ∈ levels, level.length = points) :
    decodeLevels levels.length points (encodeLevels levels) = levels := by
  have hlevel : ∀ level ∈ levels,
      (Bytes.words signCorrectionSize points (level.flatMap SignCorrection.toBytes)).map
        SignCorrection.ofBytes = level := by
    intro level hlevel
    rw [← h level hlevel, signCorrectionSize,
      Bytes.words_flatMap _ fun c _ => SignCorrection.length_toBytes c, List.map_map]
    exact List.map_id'' (fun c => by simpa using SignCorrection.ofBytes_toBytes_append c []) _
  unfold decodeLevels encodeLevels
  rw [Bytes.words_flatMap _ fun level hlevel => length_encodeLevel (h level hlevel), List.map_map]
  exact (List.map_congr_left hlevel).trans (List.map_id' _)

namespace Parts

variable {parts : Parts} {n d : Nat} {verifiable : Bool}

theorem Sized.fits (h : parts.Sized n d verifiable) :
    (Layout.multiPointTable n parts.points d verifiable).Fits (parts.content n) := by
  have hcorrections : (parts.content n .levelCorrections).length
      = signCorrectionSize * n * parts.points := by
    rw [content, length_encodeLevels h.corrections, h.levels]
  have hpayload : (parts.content n .payload).length = d * parts.points := by
    rw [content, ← List.flatMap_id, Bytes.length_flatMap_of_forall (f := id) _ h.words, h.payload]
  have hproof : verifiable = true →
      (parts.content n .proofCorrection).length = tagSize * parts.points := by
    intro hv
    rw [content, Bytes.length_flatMap_of_forall _ fun tag _ => Tag.length_toBytes tag,
      h.proofCorrections, if_pos hv]
  intro entry hentry
  cases verifiable <;>
    simp only [Layout.multiPointTable, List.mem_append, List.mem_cons, List.not_mem_nil, or_false,
      if_true, Bool.false_eq_true, if_false] at hentry
  · rcases hentry with rfl | rfl | rfl | rfl | rfl | rfl
    · rfl
    · rfl
    · exact Block.length_toBytes _
    · rfl
    · exact hcorrections
    · exact hpayload
  · rcases hentry with (rfl | rfl | rfl | rfl | rfl | rfl) | rfl
    · rfl
    · rfl
    · exact Block.length_toBytes _
    · rfl
    · exact hcorrections
    · exact hpayload
    · exact hproof rfl

theorem ofFields_build (h : parts.Sized n d verifiable) :
    ofFields n parts.points d verifiable ((Layout.multiPointTable n parts.points d verifiable).read
      ((Layout.multiPointTable n parts.points d verifiable).build (parts.content n))) = parts := by
  have hread : ∀ field ∈ [Field.rootSeed, .party, .levelCorrections, .payload],
      (Layout.multiPointTable n parts.points d verifiable).read
        ((Layout.multiPointTable n parts.points d verifiable).build (parts.content n)) field
        = parts.content n field := by
    intro field hfield
    refine Layout.read_build h.fits ?_
    simp only [List.mem_cons, List.not_mem_nil, or_false] at hfield
    rcases hfield with rfl | rfl | rfl | rfl <;> simp [Layout.multiPointTable]
  have hlevels : decodeLevels n parts.points (parts.content n .levelCorrections)
      = parts.levels := by
    rw [content, ← h.levels]
    exact decodeLevels_encodeLevels h.corrections
  have hpayload : Bytes.words d parts.points (parts.content n .payload) = parts.payload := by
    rw [content, ← h.payload]
    exact Bytes.words_flatten _ h.words
  have hproof : (if verifiable then
      (Bytes.words tagSize parts.points
        ((Layout.multiPointTable n parts.points d verifiable).read
          ((Layout.multiPointTable n parts.points d verifiable).build (parts.content n))
          .proofCorrection)).map Tag.ofBytes
      else []) = parts.proofCorrections := by
    cases verifiable with
    | false => exact (List.length_eq_zero_iff.mp h.proofCorrections).symm
    | true =>
        have hcount : parts.proofCorrections.length = parts.points := h.proofCorrections
        rw [if_pos rfl, Layout.read_build h.fits (by simp [Layout.multiPointTable]), content,
          ← hcount, Bytes.words_flatMap _ fun tag _ => Tag.length_toBytes tag, List.map_map]
        exact List.map_id'' Tag.ofBytes_toBytes _
  unfold ofFields
  rw [hread .rootSeed (by simp), hread .party (by simp), hread .levelCorrections (by simp),
    hread .payload (by simp), hlevels, hpayload, hproof]
  simp only [content, Block.ofBytes_toBytes, List.headD_cons, Party.ofByte_toByte]

end Parts

/-- The lengths of the fields of a key. -/
theorem length_of_fits {n t d : Nat} {verifiable : Bool} {field : Field → Bytes}
    (h : (Layout.multiPointTable n t d verifiable).Fits field) :
    (field .rootSeed).length = blockSize ∧ (field .party).length = 1 ∧
      (field .levelCorrections).length = signCorrectionSize * n * t ∧
      (field .payload).length = d * t ∧
      (verifiable = true → (field .proofCorrection).length = tagSize * t) := by
  cases verifiable <;> simp_all [Layout.Fits, Layout.multiPointTable]

/-! ### Accepted keys -/

/-- The layout that the declared sizes of a key ask for. -/
def Key.layout (key : Key) (verifiable : Bool) : Layout :=
  Layout.multiPointTable key.rangeSize key.points key.dataSize verifiable

/-- The bytes of a key agree with its declared sizes. -/
structure Key.WellFormed (key : Key) (verifiable : Bool) : Prop where
  supported : key.rangeSize ≤ maxRangeBits
  points_pos : 0 < key.points
  points_le : key.points ≤ maxPoints
  addressable : (key.layout verifiable).size ≤ maxSize
  length : key.bytes.length = (key.layout verifiable).size
  rangeSize : (key.layout verifiable).header key.bytes .rangeSize = key.rangeSize
  rangePoints : (key.layout verifiable).header key.bytes .rangePoints = key.points

/-- A key holds words of its declared size. -/
theorem Key.WellFormed.dataSize_le_length {key : Key} {verifiable : Bool}
    (h : key.WellFormed verifiable) : key.dataSize ≤ key.bytes.length := by
  have hword : key.dataSize ≤ key.dataSize * key.points := Nat.le_mul_of_pos_right _ h.points_pos
  rw [h.length, Key.layout, Layout.size_multiPointTable]
  omega

/-- A key is parsed exactly if it is well formed, and to what its fields say. -/
theorem Key.parse_eq_ok_iff {key : Key} {verifiable : Bool} {parts : Parts} :
    key.parse verifiable = .ok parts ↔ key.WellFormed verifiable ∧
      Parts.ofFields key.rangeSize key.points key.dataSize verifiable
        ((key.layout verifiable).read key.bytes) = parts := by
  unfold parse
  rw [check_bind_eq_ok_iff, check_bind_eq_ok_iff, checkRangeSize_eq_ok_iff,
    checkPointCount_eq_ok_iff]
  -- the layout is only known to be its table once the number of points is positive
  constructor
  · rintro ⟨hn, ⟨hpos, hle⟩, hparsed⟩
    simp only [Layout.multiPoint_eq hpos, ite_bind_eq_ok_iff, check_bind_eq_ok_iff,
      Layout.check_eq_ok_iff, Layout.checkHeader_eq_ok_iff] at hparsed
    obtain ⟨hsize, hlength, hrange, hpoints, hparts⟩ := hparsed
    exact ⟨⟨hn, hpos, hle, hsize, hlength, hrange, hpoints⟩, Except.ok.inj hparts⟩
  · rintro ⟨⟨hn, hpos, hle, hsize, hlength, hrange, hpoints⟩, rfl⟩
    simp only [Layout.multiPoint_eq hpos, ite_bind_eq_ok_iff, check_bind_eq_ok_iff,
      Layout.check_eq_ok_iff, Layout.checkHeader_eq_ok_iff]
    exact ⟨hn, ⟨hpos, hle⟩, hsize, hlength, hrange, hpoints, rfl⟩

theorem Key.parses_iff {key : Key} {verifiable : Bool} :
    (∃ parts, key.parse verifiable = .ok parts) ↔ key.WellFormed verifiable := by
  constructor
  · rintro ⟨parts, hparse⟩
    exact (Key.parse_eq_ok_iff.mp hparse).1
  · intro h
    exact ⟨_, Key.parse_eq_ok_iff.mpr ⟨h, rfl⟩⟩

/-- **A key is parsed to the parts that it was built from.** -/
theorem Key.parse_build {parts : Parts} {n d : Nat} {verifiable : Bool}
    (h : parts.Sized n d verifiable)
    (hsize : (Layout.multiPointTable n parts.points d verifiable).size ≤ maxSize) :
    Key.parse ⟨(Layout.multiPointTable n parts.points d verifiable).build (parts.content n), d, n,
      parts.points⟩ verifiable = .ok parts := by
  have hrangeSize := Layout.header_build .rangeSize h.fits (by simp [Layout.multiPointTable])
    rfl (Nat.lt_of_le_of_lt h.supported (by decide))
  have hrangePoints := Layout.header_build .rangePoints h.fits
    (by simp [Layout.multiPointTable]) rfl (Nat.lt_of_le_of_lt h.points_le (by decide))
  exact parse_eq_ok_iff.mpr ⟨⟨h.supported, h.points_pos, h.points_le, hsize,
    Layout.length_build h.fits, hrangeSize, hrangePoints⟩, Parts.ofFields_build h⟩

/-! ### The fields of an accepted key -/

/-- The bytes of a field of a key without proofs. -/
def Key.field (key : Key) (field : Field) : Bytes := (key.layout false).read key.bytes field

@[simp] theorem Key.layout_fields (key : Key) :
    (key.layout false).fields = [(.rangeSize, 1), (.rangePoints, 1), (.rootSeed, blockSize),
      (.party, 1), (.levelCorrections, signCorrectionSize * key.rangeSize * key.points),
      (.payload, key.dataSize * key.points)] := rfl

theorem Key.nodup_layout (key : Key) (verifiable : Bool) :
    ((key.layout verifiable).fields.map Prod.fst).Nodup :=
  Layout.nodup_multiPointTable _ _ _ _

theorem Key.WellFormed.field_rangeSize {key : Key} (h : key.WellFormed false) :
    key.field .rangeSize = [UInt8.ofNat key.rangeSize] := by
  rw [field, Layout.read_eq_of_header (key.nodup_layout false) h.length (by simp), h.rangeSize]

theorem Key.WellFormed.field_rangePoints {key : Key} (h : key.WellFormed false) :
    key.field .rangePoints = [UInt8.ofNat key.points] := by
  rw [field, Layout.read_eq_of_header (key.nodup_layout false) h.length (by simp), h.rangePoints]

theorem Key.WellFormed.fits_field {key : Key} (h : key.WellFormed false) :
    (key.layout false).Fits key.field :=
  Layout.fits_read (key.nodup_layout false) h.length

/-- A well-formed key is what its fields put together are. -/
theorem Key.WellFormed.build_eq {key : Key} (h : key.WellFormed false) {content : Field → Bytes}
    (hcontent : ∀ field ∈ (key.layout false).fields.map Prod.fst,
      content field = key.field field) :
    (key.layout false).build content = key.bytes :=
  (Layout.build_congr hcontent).trans (Layout.build_read (key.nodup_layout false) h.length)

end PointSharing.MultiPoint
