/-
What a tree of several special points looks up.

A sign vector has room for more points than a key has, and a bit beyond the last point would select
an item that is not there and be passed over.  The corrections of a key are whatever its bytes say,
so all depends on the mask: it is applied to both children of every node, and the root has no bit
but that of the first point.  So the bits at every node are among those of the points.

The other half is that the items are there.  The fields of a key are read as one sequence of
corrections, one of payload words and one of proof corrections, and each of them has been checked to
be as long as the declared number of points asks for.
-/
import PointSharing.Proofs.InnerNodes
import PointSharing.Proofs.MultiPoint.Decompression

namespace PointSharing

/-- The words of a string, as many as there are; what is left at the end is dropped. -/
def Bytes.chunks (size : Nat) (bytes : Bytes) : List Bytes :=
  words size (bytes.length / size) bytes

theorem Bytes.chunks_eq_words {size count : Nat} {bytes : Bytes} (hsize : 0 < size)
    (h : bytes.length = size * count) : chunks size bytes = words size count bytes := by
  rw [chunks, h, Nat.mul_div_cancel_left count hsize]

namespace MultiPoint

variable {prg : Prg} {n points d : Nat} {verifiable : Bool} {field : Field → Bytes}

/-! ### Levels -/

/-- Level by level the corrections are read in the order in which they lie in the field. -/
theorem flatten_decodeLevels (n points : Nat) (bytes : Bytes) :
    (decodeLevels n points bytes).flatten
      = (Bytes.words signCorrectionSize (n * points) bytes).map SignCorrection.ofBytes := by
  rw [decodeLevels, ← List.flatMap_def, ← List.map_flatMap, Bytes.flatMap_words]

theorem length_of_mem_decodeLevels {level : List SignCorrection} {bytes : Bytes}
    (h : level ∈ decodeLevels n points bytes) : level.length = points := by
  obtain ⟨word, -, rfl⟩ := List.mem_map.mp h
  rw [List.length_map, Bytes.length_words]

/-- A level is a part of the sequence of all corrections. -/
theorem getElem?_decodeLevels {depth : Nat} (h : depth < n) (bytes : Bytes) :
    let all := (decodeLevels n points bytes).flatten
    (decodeLevels n points bytes)[depth]? = some ((all.drop (depth * points)).take points) := by
  intro all
  have hlength : (decodeLevels n points bytes).length = n := by simp [decodeLevels]
  have hlevel := List.getElem?_eq_getElem (hlength.symm ▸ h)
  have hword := Bytes.word_flatMap (f := id) _
    (fun level hmem => length_of_mem_decodeLevels hmem) hlevel
  rw [List.flatMap_id] at hword
  rw [hlevel, hword]
  rfl

/-! ### Signs -/

/-- Wherever a party comes, no bit is set but those of the points. -/
theorem Parts.within_of_reaches {parts : Parts} (hpoints : 0 < parts.points)
    (hlevels : parts.levels.length = n) {depth : Nat} (hdepth : depth ≤ n)
    {node : Node SignVector} (h : (parts.evaluator prg n d).Reaches depth node) :
    node.control.Within parts.points := by
  refine Evaluator.Reaches.inv (P := fun node => node.control.Within parts.points)
    ((List.length_map _).trans hlevels) hdepth ?_ ?_ h
  · -- the mask is applied to every child, so nothing has to be known of the parent
    intro step hstep state right _
    obtain ⟨corrections, -, rfl⟩ := List.mem_map.mp hstep
    rw [side_level]
    exact SignVector.within_and_mask _ _
  · show (rootNode parts.party parts.rootSeed).control.Within parts.points
    unfold rootNode
    intro point hpoint
    cases hbit : parts.party.bit with
    | false => simp [hbit] at hpoint
    | true =>
        rw [hbit, if_pos rfl, SignVector.getLsbD_single (by decide), beq_iff_eq] at hpoint
        exact hpoint ▸ hpoints

/-! ### Keys -/

/-- What is read from the fields of a key is as much as its tree looks up, and nothing that is
looked up is missing. -/
structure Parts.InBounds (prg : Prg) (n d : Nat) (verifiable : Bool) (field : Field → Bytes)
    (parts : Parts) : Prop where
  /-- The corrections of all levels are those that the field has. -/
  corrections : parts.levels.flatten
    = (Bytes.chunks signCorrectionSize (field .levelCorrections)).map SignCorrection.ofBytes
  /-- There are as many of them as the sizes of the key say. -/
  count : parts.levels.flatten.length = n * parts.points
  /-- There is a level for every depth. -/
  level : ∀ depth < n, (depth + 1) * parts.points ≤ parts.levels.flatten.length ∧
    parts.levels[depth]?
      = some ((parts.levels.flatten.drop (depth * parts.points)).take parts.points)
  /-- There is a payload word for every point. -/
  word : ∀ point < parts.points, (point + 1) * d ≤ (field .payload).length ∧
    parts.payload[point]? = some (((field .payload).drop (point * d)).take d)
  /-- A key with proofs has a proof correction for every point. -/
  tags : verifiable = true →
    parts.proofCorrections = (Bytes.chunks tagSize (field .proofCorrection)).map Tag.ofBytes ∧
      parts.proofCorrections.length = parts.points
  /-- No party comes to a sign vector beyond those of the points. -/
  signs : ∀ depth ≤ n, ∀ node, (parts.evaluator prg n d).Reaches depth node →
    node.control.toNat < 1 <<< parts.points
  /-- Above the leaves every set bit selects a correction. -/
  inner : ∀ depth < n, ∀ node, (parts.evaluator prg n d).Reaches depth node →
    ∃ corrections, parts.levels[depth]? = some corrections ∧ node.control.FindsAll corrections
  /-- At a leaf every set bit selects a payload word, and a proof correction if there are any. -/
  leaf : ∀ node, (parts.evaluator prg n d).Reaches n node →
    node.control.FindsAll parts.payload ∧
      (verifiable = true → node.control.FindsAll parts.proofCorrections)

/-- Fields of the right lengths are enough, whatever is in them. -/
theorem Parts.inBounds_ofFields (prg : Prg) (hpoints : 0 < points)
    (hfits : (Layout.multiPointTable n points d verifiable).Fits field) :
    (ofFields n points d verifiable field).InBounds prg n d verifiable field := by
  obtain ⟨-, -, hlevels, hpayload, htags⟩ := length_of_fits hfits
  let parts := ofFields n points d verifiable field
  have hcorrections : parts.levels.flatten
      = (Bytes.words signCorrectionSize (n * points) (field .levelCorrections)).map
          SignCorrection.ofBytes := flatten_decodeLevels n points _
  have hcount : parts.levels.flatten.length = n * points := by
    rw [hcorrections, List.length_map, Bytes.length_words]
  have hlevel : ∀ depth < n, parts.levels[depth]?
      = some ((parts.levels.flatten.drop (depth * points)).take points) :=
    fun depth hdepth => getElem?_decodeLevels hdepth _
  have hproofs : verifiable = true → parts.proofCorrections.length = points := by
    rintro rfl
    exact (List.length_map _).trans (Bytes.length_words _ _ _)
  have hwithin : ∀ depth ≤ n, ∀ node, (parts.evaluator prg n d).Reaches depth node →
      node.control.Within points := fun depth hdepth node hnode =>
    within_of_reaches hpoints (length_levels_ofFields n points d verifiable field) hdepth hnode
  refine ⟨?_, hcount, ?_, ?_, ?_, ?_, ?_, ?_⟩
  · rw [hcorrections, Bytes.chunks_eq_words (by decide) (hlevels.trans (Nat.mul_assoc _ _ _))]
  · intro depth hdepth
    exact ⟨hcount.symm ▸ Nat.mul_le_mul_right points hdepth, hlevel depth hdepth⟩
  · intro point hpoint
    refine ⟨?_, Bytes.getElem?_words _ hpoint⟩
    rw [hpayload, Nat.mul_comm d]
    exact Nat.mul_le_mul_right d hpoint
  · intro hverifiable
    refine ⟨?_, hproofs hverifiable⟩
    rw [Bytes.chunks_eq_words (by decide) (htags hverifiable), ofFields, if_pos hverifiable]
  · intro depth hdepth node hnode
    exact (hwithin depth hdepth node hnode).toNat_lt
  · intro depth hdepth node hnode
    refine ⟨_, hlevel depth hdepth, (hwithin depth (Nat.le_of_lt hdepth) node hnode).findsAll ?_⟩
    exact length_of_mem_decodeLevels (List.mem_of_getElem? (hlevel depth hdepth))
  · intro node hnode
    have hleaf := hwithin n (Nat.le_refl n) node hnode
    exact ⟨hleaf.findsAll (Bytes.length_words _ _ _),
      fun hverifiable => hleaf.findsAll (hproofs hverifiable)⟩

/-- **Whatever the bytes of an accepted key or compressed key are, nothing is looked up in vain**:
the corrections, payload words and proof corrections that are read are as many as the sizes say, and
at every node that a party comes to each set bit of the sign vector is that of a point. -/
theorem inBounds_of_parse (prg : Prg) :
    (∀ (key : Key) (verifiable : Bool) (parts : Parts), key.parse verifiable = .ok parts →
      ∃ layout,
        Layout.multiPoint key.rangeSize key.points key.dataSize verifiable = .ok layout ∧
        parts.points = key.points ∧
        parts.InBounds prg key.rangeSize key.dataSize verifiable (layout.read key.bytes)) ∧
    ∀ (key : Compressed) (layout : Layout) (party : Party), key.checkedLayout = .ok layout →
      (key.parts layout party).points = key.points ∧
      (key.parts layout party).InBounds prg key.rangeSize key.dataSize false
        (layout.read key.bytes) := by
  refine ⟨?_, ?_⟩
  · intro key verifiable parts hparse
    obtain ⟨h, rfl⟩ := Key.parse_eq_ok_iff.mp hparse
    have hfits := Layout.fits_read (key.nodup_layout verifiable) h.length
    have haddressable : (Layout.multiPointTable key.rangeSize key.points key.dataSize
        verifiable).size ≤ maxSize := h.addressable
    refine ⟨key.layout verifiable, ?_, rfl, Parts.inBounds_ofFields prg h.points_pos hfits⟩
    rw [Layout.multiPoint_eq h.points_pos, if_pos haddressable]
    rfl
  · intro key layout party hlayout
    obtain ⟨h, rfl⟩ := Compressed.checkedLayout_eq_ok_iff.mp hlayout
    have hbounds := Parts.inBounds_ofFields prg h.points_pos (h.fits_content party)
    exact ⟨rfl, hbounds.corrections, hbounds.count, hbounds.level, hbounds.word, hbounds.tags,
      hbounds.signs, hbounds.inner, hbounds.leaf⟩

/-- With corrections in which bits are set far beyond the last of the points. -/
theorem inBounds_of_parse_one_byte_repeated :
    ∃ plain verified layout,
      Key.parse ⟨2 :: 2 :: List.replicate 117 0xab, 2, 2, 2⟩ false = .ok plain ∧
      plain.levels.flatten = List.replicate 4 (SignCorrection.ofBytes (List.replicate 24 0xab)) ∧
      (∀ node, (plain.evaluator (.ofBlock 0) 2 2).Reaches 1 node → node.control.toNat < 4) ∧
      Key.parse ⟨1 :: 1 :: List.replicate 107 0xab, 2, 1, 1⟩ true = .ok verified ∧
      (∀ node, (verified.evaluator (.ofBlock 0) 1 2).Reaches 1 node →
        node.control.FindsAll verified.proofCorrections) ∧
      Compressed.checkedLayout ⟨2 :: 2 :: List.replicate 132 0xab, 2, 2, 2⟩ = .ok layout ∧
      ∀ party, (Compressed.parts ⟨2 :: 2 :: List.replicate 132 0xab, 2, 2, 2⟩ layout
        party).levels.flatten.length = 4 := by
  have hplain : Key.parse ⟨2 :: 2 :: List.replicate 117 0xab, 2, 2, 2⟩ false = .ok _ :=
    Key.parse_eq_ok_iff.mpr ⟨by constructor <;> decide, rfl⟩
  have hverified : Key.parse ⟨1 :: 1 :: List.replicate 107 0xab, 2, 1, 1⟩ true = .ok _ :=
    Key.parse_eq_ok_iff.mpr ⟨by constructor <;> decide, rfl⟩
  have hlayout : Compressed.checkedLayout ⟨2 :: 2 :: List.replicate 132 0xab, 2, 2, 2⟩ = .ok _ :=
    Compressed.checkedLayout_eq_ok_iff.mpr ⟨by constructor <;> decide, rfl⟩
  obtain ⟨hkeys, hcompressed⟩ := inBounds_of_parse (.ofBlock 0)
  obtain ⟨_, -, -, hinPlain⟩ := hkeys _ _ _ hplain
  obtain ⟨_, -, -, hinVerified⟩ := hkeys _ _ _ hverified
  exact ⟨_, _, _, hplain, by decide, hinPlain.signs 1 (by decide), hverified,
    fun node hnode => (hinVerified.leaf node hnode).2 rfl, hlayout,
    fun party => (hcompressed _ _ party hlayout).2.count⟩

end MultiPoint

end PointSharing
