/-
Which keys of functions with one special point are parsed, and to what.

`Parts.Sized` is what the parts of a key have to satisfy to be laid out: one correction for
each level, a payload of the declared size, and no proof correction where the layout has no
field for one.  Such parts are read back from the key that they are written into.

`Key.WellFormed` is what a key has to satisfy to be parsed, whoever made it.  It says nothing
of what the fields hold beyond their lengths and the header.
-/
import PointSharing.Point.Key
import PointSharing.Proofs.Layout
import PointSharing.Proofs.Limits
import PointSharing.Proofs.Verification.Tag

namespace PointSharing.Point

/-- The parts have the sizes that are declared for their key. -/
structure Parts.Sized (parts : Parts) (rangeSize dataSize : Nat) (verifiable : Bool) : Prop where
  supported : rangeSize ≤ maxRangeBits
  corrections : parts.corrections.length = rangeSize
  payload : parts.payload.length = dataSize
  proofCorrection : verifiable = false → parts.proofCorrection = Tag.zero

namespace Parts

variable {parts : Parts} {n d : Nat} {verifiable : Bool}

theorem Sized.fits (h : parts.Sized n d verifiable) :
    (Layout.pointTable n d verifiable).Fits (parts.content n) := by
  have hcorrections : (parts.content n .levelCorrections).length = bitCorrectionSize * n := by
    rw [content, Bytes.length_flatMap_of_forall _ fun c _ => BitCorrection.length_toBytes c,
      h.corrections, bitCorrectionSize]
  intro entry hentry
  cases verifiable <;>
    simp only [Layout.pointTable, List.mem_append, List.mem_cons, List.not_mem_nil, or_false,
      if_true, Bool.false_eq_true, if_false] at hentry
  · rcases hentry with rfl | rfl | rfl | rfl | rfl
    · rfl
    · exact Block.length_toBytes _
    · rfl
    · exact hcorrections
    · exact h.payload
  · rcases hentry with (rfl | rfl | rfl | rfl | rfl) | rfl
    · rfl
    · exact Block.length_toBytes _
    · rfl
    · exact hcorrections
    · exact h.payload
    · exact Tag.length_toBytes _

theorem ofFields_build (h : parts.Sized n d verifiable) :
    ofFields n ((Layout.pointTable n d verifiable).read
      ((Layout.pointTable n d verifiable).build (parts.content n))) = parts := by
  have hread : ∀ field ∈ [Field.rootSeed, .rootBit, .levelCorrections, .payload],
      (Layout.pointTable n d verifiable).read
        ((Layout.pointTable n d verifiable).build (parts.content n)) field
        = parts.content n field := by
    intro field hfield
    refine Layout.read_build h.fits ?_
    simp only [List.mem_cons, List.not_mem_nil, or_false] at hfield
    rcases hfield with rfl | rfl | rfl | rfl <;> simp [Layout.pointTable]
  have hcorrections : (Bytes.words bitCorrectionSize n (parts.content n .levelCorrections)).map
      BitCorrection.ofBytes = parts.corrections := by
    rw [content, ← h.corrections, bitCorrectionSize,
      Bytes.words_flatMap _ fun c _ => BitCorrection.length_toBytes c, List.map_map]
    exact List.map_id'' (fun c => by simpa using BitCorrection.ofBytes_toBytes_append c []) _
  have hproof : Tag.ofBytes ((Layout.pointTable n d verifiable).read
      ((Layout.pointTable n d verifiable).build (parts.content n)) .proofCorrection)
      = parts.proofCorrection := by
    cases verifiable with
    | false =>
        rw [Layout.read_missing (by simp [Layout.pointTable]), Tag.ofBytes_nil,
          h.proofCorrection rfl]
    | true =>
        rw [Layout.read_build h.fits (by simp [Layout.pointTable])]
        exact Tag.ofBytes_toBytes _
  unfold ofFields
  rw [hread .rootSeed (by simp), hread .rootBit (by simp), hread .levelCorrections (by simp),
    hread .payload (by simp), hcorrections, hproof]
  simp only [content, Block.ofBytes_toBytes, List.headD_cons, Party.ofByte_toByte]

end Parts

/-! ### Accepted keys -/

/-- The layout that the declared sizes of a key ask for. -/
def Key.layout (key : Key) (verifiable : Bool) : Layout :=
  Layout.pointTable key.rangeSize key.dataSize verifiable

/-- The bytes of a key agree with its declared sizes. -/
structure Key.WellFormed (key : Key) (verifiable : Bool) : Prop where
  supported : key.rangeSize ≤ maxRangeBits
  addressable : (key.layout verifiable).size ≤ maxSize
  length : key.bytes.length = (key.layout verifiable).size
  rangeSize : (key.layout verifiable).header key.bytes .rangeSize = key.rangeSize

/-- A key holds a word of its declared size. -/
theorem Key.WellFormed.dataSize_le_length {key : Key} {verifiable : Bool}
    (h : key.WellFormed verifiable) : key.dataSize ≤ key.bytes.length := by
  rw [h.length, Key.layout, Layout.size_pointTable]
  omega

/-- A key is parsed exactly if it is well formed, and to what its fields say. -/
theorem Key.parse_eq_ok_iff {key : Key} {verifiable : Bool} {parts : Parts} :
    key.parse verifiable = .ok parts ↔ key.WellFormed verifiable ∧
      Parts.ofFields key.rangeSize ((key.layout verifiable).read key.bytes) = parts := by
  unfold parse
  simp only [check_bind_eq_ok_iff, checkRangeSize_eq_ok_iff, Layout.point_eq, ite_bind_eq_ok_iff,
    Layout.check_eq_ok_iff, Layout.checkHeader_eq_ok_iff]
  constructor
  · rintro ⟨hn, hsize, hlength, hheader, hparts⟩
    exact ⟨⟨hn, hsize, hlength, hheader⟩, Except.ok.inj hparts⟩
  · rintro ⟨⟨hn, hsize, hlength, hheader⟩, rfl⟩
    exact ⟨hn, hsize, hlength, hheader, rfl⟩

/-- **A key is parsed to the parts that it was built from.** -/
theorem Key.parse_build {parts : Parts} {n d : Nat} {verifiable : Bool}
    (h : parts.Sized n d verifiable)
    (hsize : (Layout.pointTable n d verifiable).size ≤ maxSize) :
    Key.parse ⟨(Layout.pointTable n d verifiable).build (parts.content n), d, n⟩ verifiable
      = .ok parts := by
  have hheader := Layout.header_build .rangeSize h.fits (by simp [Layout.pointTable])
    rfl (Nat.lt_of_le_of_lt h.supported (by decide))
  exact parse_eq_ok_iff.mpr
    ⟨⟨h.supported, hsize, Layout.length_build h.fits, hheader⟩, Parts.ofFields_build h⟩

end PointSharing.Point
