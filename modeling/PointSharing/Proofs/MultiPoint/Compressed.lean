/-
Two keys and the compressed key that stands for both.

The two layouts have the same fields up to what they do with the parties: the keys have a byte
that says whose they are, the compressed key has a second root seed.  So each is made from the
other field by field, and since a key of the right length is what its fields put together are,
nothing is lost either way, whatever the fields hold.

What has to be shown besides is that the checks on the two sides match.  The sizes do: a
compressed key is fifteen bytes longer than either of the two, which is why keys that can exist
in memory always have one.  And a pair is refused exactly for the first part in which its keys
do not agree; the header fields are compared twice, but no two keys that passed the first
comparison fail the second.
-/
import PointSharing.MultiPoint.Compressed
import PointSharing.Proofs.MultiPoint.Key

namespace PointSharing.MultiPoint

/-! ### Comparing two keys -/

/-- What the keys of a pair are compared in, in the order in which differences are reported. -/
def comparedParts : List PairPart :=
  [.field .rangeSize, .field .rangePoints, .dataSize, .field .party, .field .levelCorrections,
    .field .payload]

example : comparedParts.map PairPart.name
    = ["range size", "range points", "data size", "party", "level corrections", "payload"] := rfl

/-- One part of two keys is as it is in the keys of party A and party B of a pair. -/
def agrees (a b : Key) : PairPart → Bool
  | .field .rangeSize => a.rangeSize == b.rangeSize
  | .field .rangePoints => a.points == b.points
  | .dataSize => a.dataSize == b.dataSize
  | .field .party => a.field .party == [0] && b.field .party == [1]
  | .field field => a.field field == b.field field

/-- The first part in which two keys do not agree. -/
def firstDifference (a b : Key) : Option PairPart :=
  comparedParts.find? fun part => !agrees a b part

/-- Two keys of arbitrary content form a pair, the first of them party A's. -/
structure Paired (a b : Key) : Prop where
  parses_a : ∃ parts, a.parse false = .ok parts
  parses_b : ∃ parts, b.parse false = .ok parts
  rangeSize : a.rangeSize = b.rangeSize
  points : a.points = b.points
  dataSize : a.dataSize = b.dataSize
  party_a : a.field .party = [0]
  party_b : b.field .party = [1]
  levelCorrections : a.field .levelCorrections = b.field .levelCorrections
  payload : a.field .payload = b.field .payload

theorem paired_iff {a b : Key} :
    Paired a b ↔ a.WellFormed false ∧ b.WellFormed false ∧ firstDifference a b = none := by
  rw [← Key.parses_iff, ← Key.parses_iff, firstDifference, List.find?_eq_none]
  simp only [comparedParts, List.mem_cons, List.not_mem_nil, or_false, forall_eq_or_imp,
    forall_eq, agrees, Bool.not_eq_true', Bool.not_eq_false, beq_iff_eq, Bool.and_eq_true]
  constructor
  · intro h
    exact ⟨h.parses_a, h.parses_b, h.rangeSize, h.points, h.dataSize, ⟨h.party_a, h.party_b⟩,
      h.levelCorrections, h.payload⟩
  · rintro ⟨ha, hb, hrange, hpoints, hdata, ⟨hpartyA, hpartyB⟩, hlevels, hpayload⟩
    exact ⟨ha, hb, hrange, hpoints, hdata, hpartyA, hpartyB, hlevels, hpayload⟩

namespace Compressed

/-! ### Accepted compressed keys -/

/-- The layout that the declared sizes of a compressed key ask for. -/
def layout (key : Compressed) : Layout :=
  Layout.compressedTable key.rangeSize key.points key.dataSize

/-- The bytes of a compressed key agree with its declared sizes. -/
structure WellFormed (key : Compressed) : Prop where
  supported : key.rangeSize ≤ maxRangeBits
  points_pos : 0 < key.points
  points_le : key.points ≤ maxPoints
  addressable : key.layout.size ≤ maxSize
  length : key.bytes.length = key.layout.size
  rangeSize : key.layout.header key.bytes .rangeSize = key.rangeSize
  rangePoints : key.layout.header key.bytes .rangePoints = key.points

theorem checkedLayout_eq_ok_iff {key : Compressed} {layout : Layout} :
    key.checkedLayout = .ok layout ↔ key.WellFormed ∧ key.layout = layout := by
  unfold checkedLayout
  rw [check_bind_eq_ok_iff, check_bind_eq_ok_iff, checkRangeSize_eq_ok_iff,
    checkPointCount_eq_ok_iff]
  constructor
  · rintro ⟨hn, ⟨hpos, hle⟩, hchecked⟩
    simp only [Layout.compressed_eq hpos, ite_bind_eq_ok_iff, check_bind_eq_ok_iff,
      Layout.check_eq_ok_iff, Layout.checkHeader_eq_ok_iff] at hchecked
    obtain ⟨hsize, hlength, hrange, hpoints, hlayout⟩ := hchecked
    exact ⟨⟨hn, hpos, hle, hsize, hlength, hrange, hpoints⟩, Except.ok.inj hlayout⟩
  · rintro ⟨⟨hn, hpos, hle, hsize, hlength, hrange, hpoints⟩, rfl⟩
    simp only [Layout.compressed_eq hpos, ite_bind_eq_ok_iff, check_bind_eq_ok_iff,
      Layout.check_eq_ok_iff, Layout.checkHeader_eq_ok_iff]
    exact ⟨hn, ⟨hpos, hle⟩, hsize, hlength, hrange, hpoints, rfl⟩

/-- The key of a party. -/
def keyOf (key : Compressed) (party : Party) : Key where
  bytes := (Layout.multiPointTable key.rangeSize key.points key.dataSize false).build
    (key.content key.layout party)
  dataSize := key.dataSize
  rangeSize := key.rangeSize
  points := key.points

/-- A compressed key is split exactly if it is well formed. -/
theorem split_eq_ok_iff {key : Compressed} {pair : Pair Key} :
    key.split = .ok pair ↔ key.WellFormed ∧ Pair.ofFn key.keyOf = pair := by
  have hsplit (h : key.WellFormed) : key.split = .ok (Pair.ofFn key.keyOf) := by
    have hsize : (Layout.multiPointTable key.rangeSize key.points key.dataSize false).size
        ≤ maxSize := by
      have hle := h.addressable
      rw [layout, Layout.size_compressedTable_eq] at hle
      omega
    unfold split
    rw [checkedLayout_eq_ok_iff.mpr ⟨h, rfl⟩, Layout.multiPoint_eq h.points_pos]
    exact ite_bind_eq_ok_iff.mpr ⟨hsize, rfl⟩
  constructor
  · intro h
    have hformed : key.WellFormed := by
      cases hlayout : key.checkedLayout with
      | ok layout => exact (checkedLayout_eq_ok_iff.mp hlayout).1
      | error e =>
          rw [split, hlayout] at h
          cases h
    rw [hsplit hformed] at h
    exact ⟨hformed, Except.ok.inj h⟩
  · rintro ⟨h, rfl⟩
    exact hsplit h

/-! ### From a compressed key to a pair -/

section

variable {key : Compressed}

@[simp] theorem layout_fields (key : Compressed) :
    key.layout.fields = [(.rangeSize, 1), (.rangePoints, 1), (.rootSeed, blockSize),
      (.secondRootSeed, blockSize),
      (.levelCorrections, signCorrectionSize * key.rangeSize * key.points),
      (.payload, key.dataSize * key.points)] := rfl

theorem nodup_layout (key : Compressed) : (key.layout.fields.map Prod.fst).Nodup :=
  Layout.nodup_compressedTable _ _ _

theorem WellFormed.fits_content (h : key.WellFormed) (party : Party) :
    ((key.keyOf party).layout false).Fits (key.content key.layout party) := by
  have hfits : key.layout.Fits (key.layout.read key.bytes) :=
    Layout.fits_read key.nodup_layout h.length
  intro entry hentry
  simp only [Key.layout_fields, List.mem_cons, List.not_mem_nil, or_false] at hentry
  rcases hentry with rfl | rfl | rfl | rfl | rfl | rfl
  · exact hfits (.rangeSize, 1) (by simp)
  · exact hfits (.rangePoints, 1) (by simp)
  · cases party with
    | a => exact hfits (.rootSeed, blockSize) (by simp)
    | b => exact hfits (.secondRootSeed, blockSize) (by simp)
  · rfl
  · exact hfits (.levelCorrections, _) (by simp [keyOf])
  · exact hfits (.payload, _) (by simp [keyOf])

theorem WellFormed.field_keyOf (h : key.WellFormed) (party : Party) (field : Field)
    (hmem : field ∈ ((key.keyOf party).layout false).fields.map Prod.fst) :
    (key.keyOf party).field field = key.content key.layout party field :=
  Layout.read_build (h.fits_content party) hmem

theorem WellFormed.wellFormed_keyOf (h : key.WellFormed) (party : Party) :
    (key.keyOf party).WellFormed false where
  supported := h.supported
  points_pos := h.points_pos
  points_le := h.points_le
  addressable := by
    have hle := h.addressable
    rw [layout, Layout.size_compressedTable_eq] at hle
    exact Nat.le_trans (Nat.le_add_right _ 15) hle
  length := Layout.length_build (h.fits_content party)
  rangeSize := by
    have hfield := h.field_keyOf party .rangeSize (by simp)
    exact (congrArg (fun bytes => (bytes.headD 0).toNat) hfield).trans h.rangeSize
  rangePoints := by
    have hfield := h.field_keyOf party .rangePoints (by simp)
    exact (congrArg (fun bytes => (bytes.headD 0).toNat) hfield).trans h.rangePoints

/-- The two keys of a compressed key form a pair. -/
theorem WellFormed.paired_keyOf (h : key.WellFormed) : Paired (key.keyOf .a) (key.keyOf .b) := by
  have hfield : ∀ party, ∀ field ∈ [Field.party, .levelCorrections, .payload],
      (key.keyOf party).field field = key.content key.layout party field := by
    intro party field hfield
    refine h.field_keyOf party field ?_
    simp only [List.mem_cons, List.not_mem_nil, or_false] at hfield
    rcases hfield with rfl | rfl | rfl <;> simp
  refine ⟨Key.parses_iff.mpr (h.wellFormed_keyOf .a), Key.parses_iff.mpr (h.wellFormed_keyOf .b),
    rfl, rfl, rfl, ?_, ?_, ?_, ?_⟩
  · exact hfield .a .party (by simp)
  · exact hfield .b .party (by simp)
  · rw [hfield .a .levelCorrections (by simp), hfield .b .levelCorrections (by simp)]
    rfl
  · rw [hfield .a .payload (by simp), hfield .b .payload (by simp)]
    rfl

end

/-! ### From a pair to a compressed key -/

/-- What the compressed key of two keys has in each field. -/
def joinedContent (a b : Key) : Field → Bytes
  | .secondRootSeed => b.field .rootSeed
  | field => a.field field

/-- The compressed key of two keys. -/
def join (a b : Key) : Compressed where
  bytes := (Layout.compressedTable a.rangeSize a.points a.dataSize).build (joinedContent a b)
  dataSize := a.dataSize
  rangeSize := a.rangeSize
  points := a.points

/-- Joining the two keys of a compressed key gives it back. -/
theorem WellFormed.join_keyOf {key : Compressed} (h : key.WellFormed) :
    join (key.keyOf .a) (key.keyOf .b) = key := by
  have hcontent : ∀ field ∈ key.layout.fields.map Prod.fst,
      joinedContent (key.keyOf .a) (key.keyOf .b) field = key.layout.read key.bytes field := by
    intro field hfield
    simp only [layout_fields, List.map_cons, List.map_nil, List.mem_cons, List.not_mem_nil,
      or_false] at hfield
    rcases hfield with rfl | rfl | rfl | rfl | rfl | rfl
    · exact h.field_keyOf .a _ (by simp)
    · exact h.field_keyOf .a _ (by simp)
    · exact h.field_keyOf .a _ (by simp)
    · exact h.field_keyOf .b _ (by simp)
    · exact h.field_keyOf .a _ (by simp)
    · exact h.field_keyOf .a _ (by simp)
  have hbytes : key.layout.build (joinedContent (key.keyOf .a) (key.keyOf .b)) = key.bytes :=
    (Layout.build_congr hcontent).trans (Layout.build_read key.nodup_layout h.length)
  obtain ⟨bytes, dataSize, rangeSize, points⟩ := key
  exact congrArg (Compressed.mk · dataSize rangeSize points) hbytes

end Compressed

section

variable {a b : Key} (h : Paired a b)

include h

theorem Paired.wellFormed_a : a.WellFormed false := Key.parses_iff.mp h.parses_a

theorem Paired.wellFormed_b : b.WellFormed false := Key.parses_iff.mp h.parses_b

theorem Paired.layout_eq : b.layout false = a.layout false := by
  rw [Key.layout, Key.layout, h.rangeSize, h.points, h.dataSize]

theorem Paired.fits_joinedContent :
    (Compressed.join a b).layout.Fits (Compressed.joinedContent a b) := by
  have hfitsA : (a.layout false).Fits a.field := h.wellFormed_a.fits_field
  have hfitsB : (b.layout false).Fits b.field := h.wellFormed_b.fits_field
  intro entry hentry
  simp only [Compressed.layout_fields, List.mem_cons, List.not_mem_nil, or_false] at hentry
  rcases hentry with rfl | rfl | rfl | rfl | rfl | rfl
  · exact hfitsA (.rangeSize, 1) (by simp)
  · exact hfitsA (.rangePoints, 1) (by simp)
  · exact hfitsA (.rootSeed, blockSize) (by simp)
  · exact hfitsB (.rootSeed, blockSize) (by simp)
  · exact hfitsA (.levelCorrections, _) (by simp [Compressed.join])
  · exact hfitsA (.payload, _) (by simp [Compressed.join])

theorem Paired.read_join (field : Field)
    (hmem : field ∈ (Compressed.join a b).layout.fields.map Prod.fst) :
    (Compressed.join a b).layout.read (Compressed.join a b).bytes field
      = Compressed.joinedContent a b field :=
  Layout.read_build h.fits_joinedContent hmem

theorem Paired.wellFormed_join (hsize : (Compressed.join a b).layout.size ≤ maxSize) :
    (Compressed.join a b).WellFormed where
  supported := h.wellFormed_a.supported
  points_pos := h.wellFormed_a.points_pos
  points_le := h.wellFormed_a.points_le
  addressable := hsize
  length := Layout.length_build h.fits_joinedContent
  rangeSize := by
    have hread := h.read_join .rangeSize (by simp)
    exact (congrArg (fun bytes => (bytes.headD 0).toNat) hread).trans h.wellFormed_a.rangeSize
  rangePoints := by
    have hread := h.read_join .rangePoints (by simp)
    exact (congrArg (fun bytes => (bytes.headD 0).toNat) hread).trans h.wellFormed_a.rangePoints

theorem Paired.field_eq {field : Field} (hmem : field ∈ Compressed.sharedFields) :
    a.field field = b.field field := by
  simp only [Compressed.sharedFields, List.mem_cons, List.not_mem_nil, or_false] at hmem
  rcases hmem with rfl | rfl | rfl | rfl
  · rw [h.wellFormed_a.field_rangeSize, h.wellFormed_b.field_rangeSize, h.rangeSize]
  · rw [h.wellFormed_a.field_rangePoints, h.wellFormed_b.field_rangePoints, h.points]
  · exact h.levelCorrections
  · exact h.payload

theorem Paired.keyOf_join_a : (Compressed.join a b).keyOf .a = a := by
  have hbytes : (a.layout false).build
      ((Compressed.join a b).content (Compressed.join a b).layout .a) = a.bytes := by
    refine h.wellFormed_a.build_eq ?_
    intro field hfield
    simp only [Key.layout_fields, List.map_cons, List.map_nil, List.mem_cons, List.not_mem_nil,
      or_false] at hfield
    rcases hfield with rfl | rfl | rfl | rfl | rfl | rfl
    · exact h.read_join _ (by simp)
    · exact h.read_join _ (by simp)
    · exact h.read_join .rootSeed (by simp)
    · exact h.party_a.symm
    · exact h.read_join _ (by simp)
    · exact h.read_join _ (by simp)
  obtain ⟨bytes, dataSize, rangeSize, points⟩ := a
  exact congrArg (Key.mk · dataSize rangeSize points) hbytes

theorem Paired.keyOf_join_b : (Compressed.join a b).keyOf .b = b := by
  have hbytes : (a.layout false).build
      ((Compressed.join a b).content (Compressed.join a b).layout .b) = b.bytes := by
    rw [← h.layout_eq]
    refine h.wellFormed_b.build_eq ?_
    intro field hfield
    simp only [Key.layout_fields, List.map_cons, List.map_nil, List.mem_cons, List.not_mem_nil,
      or_false] at hfield
    rcases hfield with rfl | rfl | rfl | rfl | rfl | rfl
    · exact (h.read_join _ (by simp)).trans (h.field_eq (by simp [Compressed.sharedFields]))
    · exact (h.read_join _ (by simp)).trans (h.field_eq (by simp [Compressed.sharedFields]))
    · exact h.read_join .secondRootSeed (by simp)
    · exact h.party_b.symm
    · exact (h.read_join _ (by simp)).trans (h.field_eq (by simp [Compressed.sharedFields]))
    · exact (h.read_join _ (by simp)).trans (h.field_eq (by simp [Compressed.sharedFields]))
  have hsizes : b = ⟨b.bytes, a.dataSize, a.rangeSize, a.points⟩ := by
    rw [h.dataSize, h.rangeSize, h.points]
  rw [hsizes]
  exact congrArg (Key.mk · a.dataSize a.rangeSize a.points) hbytes

end

/-! ### The checks on a pair -/

namespace Compressed

theorem checkAgree_true (part : PairPart) : checkAgree true part = .ok () := rfl

/-- Checking one part after another refuses the first one that does not agree. -/
theorem checkAgree_bind_eq_elim {α : Type} (agree : PairPart → Bool) (part : PairPart)
    {parts : List PairPart} {f : Unit → Except Error α} {result : Except Error α}
    (hrest : agree part = true →
      f () = (parts.find? fun part => !agree part).elim result (.error ∘ .pairMismatch)) :
    (checkAgree (agree part) part >>= f)
      = ((part :: parts).find? fun part => !agree part).elim result (.error ∘ .pairMismatch) := by
  cases hagree : agree part with
  | false =>
      rw [List.find?_cons_of_pos (by rw [hagree]; rfl)]
      rfl
  | true =>
      rw [List.find?_cons_of_neg (by simp [hagree])]
      exact hrest hagree

/-- Two well-formed keys are refused for the first part in which they do not agree. -/
theorem ofPair_eq_elim {a b : Key} (ha : a.WellFormed false) (hb : b.WellFormed false)
    (hsize : (join a b).layout.size ≤ maxSize) :
    ofPair ⟨a, b⟩ = (firstDifference a b).elim (.ok (join a b)) (.error ∘ .pairMismatch) := by
  have hplain : Layout.multiPoint a.rangeSize a.points a.dataSize false
      = .ok (a.layout false) := by
    rw [Layout.multiPoint_eq ha.points_pos]
    exact if_pos ha.addressable
  have hjoined : Layout.compressed a.rangeSize a.points a.dataSize = .ok (join a b).layout := by
    rw [Layout.compressed_eq ha.points_pos]
    exact if_pos hsize
  have hfieldA : (a.layout false).read a.bytes = a.field := rfl
  simp only [ofPair, Key.parse_eq_ok_iff.mpr ⟨ha, rfl⟩, Key.parse_eq_ok_iff.mpr ⟨hb, rfl⟩, hplain,
    hjoined, ok_bind, firstDifference, comparedParts]
  refine checkAgree_bind_eq_elim (agrees a b) (.field .rangeSize) fun hrangeAgrees => ?_
  refine checkAgree_bind_eq_elim (agrees a b) (.field .rangePoints) fun hpointsAgree => ?_
  refine checkAgree_bind_eq_elim (agrees a b) .dataSize fun hdataAgrees => ?_
  have hrange : a.rangeSize = b.rangeSize := eq_of_beq hrangeAgrees
  have hpoints : a.points = b.points := eq_of_beq hpointsAgree
  have hdata : a.dataSize = b.dataSize := eq_of_beq hdataAgrees
  have hlayout : b.layout false = a.layout false := by
    rw [Key.layout, Key.layout, hrange, hpoints, hdata]
  have hfieldB : (a.layout false).read b.bytes = b.field := by
    rw [← hlayout]
    rfl
  -- the header fields are compared a second time, as bytes
  have hrangeField : (a.field .rangeSize == b.field .rangeSize) = true := by
    rw [ha.field_rangeSize, hb.field_rangeSize, hrange, beq_self_eq_true]
  have hpointsField : (a.field .rangePoints == b.field .rangePoints) = true := by
    rw [ha.field_rangePoints, hb.field_rangePoints, hpoints, beq_self_eq_true]
  simp only [hfieldA, hfieldB, sharedFields, List.forM, hrangeField, hpointsField,
    checkAgree_true, ok_bind, bind_assoc, pure_bind]
  refine checkAgree_bind_eq_elim (agrees a b) (.field .party) fun _ => ?_
  refine checkAgree_bind_eq_elim (agrees a b) (.field .levelCorrections) fun _ => ?_
  refine checkAgree_bind_eq_elim (agrees a b) (.field .payload) fun _ => ?_
  rfl

/-- A key that can exist in memory is in no pair that is too large to be compressed. -/
theorem size_layout_join {a : Key} (ha : a.WellFormed false) (hlength : a.bytes.length < 1 <<< 63)
    (b : Key) : (join a b).layout.size ≤ maxSize := by
  rw [ha.length] at hlength
  rw [layout, Layout.size_compressedTable_eq, maxSize]
  exact Nat.le_trans (Nat.add_le_add_right (Nat.le_of_lt hlength) 15) (by decide)

section

variable {a b : Key} (hsize : a.WellFormed false → (join a b).layout.size ≤ maxSize)

include hsize

/-- Both keys are parsed before they are compared. -/
theorem ofPair_eq :
    ofPair ⟨a, b⟩ = (do
      let _ ← a.parse false
      let _ ← b.parse false
      (firstDifference a b).elim (.ok (join a b)) (.error ∘ .pairMismatch)) := by
  cases hparseA : a.parse false with
  | error e => simp only [ofPair, hparseA, bind, Except.bind]
  | ok partsA =>
      cases hparseB : b.parse false with
      | error e => simp only [ofPair, hparseA, hparseB, bind, Except.bind]
      | ok partsB =>
          have ha := (Key.parse_eq_ok_iff.mp hparseA).1
          have hb := (Key.parse_eq_ok_iff.mp hparseB).1
          exact ofPair_eq_elim ha hb (hsize ha)

theorem ofPair_eq_ok_iff {key : Compressed} :
    ofPair ⟨a, b⟩ = .ok key ↔ Paired a b ∧ join a b = key := by
  rw [ofPair_eq hsize, paired_iff, ← Key.parses_iff, ← Key.parses_iff]
  cases a.parse false <;> cases b.parse false <;> cases firstDifference a b <;>
    simp [bind, Except.bind]

theorem ofPair_eq_error_iff {e : Error} :
    ofPair ⟨a, b⟩ = .error e ↔ a.parse false = .error e ∨
      (∃ parts, a.parse false = .ok parts) ∧ b.parse false = .error e ∨
      (∃ parts, a.parse false = .ok parts) ∧ (∃ parts, b.parse false = .ok parts) ∧
        ∃ part, firstDifference a b = some part ∧ e = .pairMismatch part := by
  rw [ofPair_eq hsize]
  cases a.parse false <;> cases b.parse false <;> cases firstDifference a b <;>
    simp [bind, Except.bind, eq_comm]

end

theorem split_join {a b : Key} (h : Paired a b) (hsize : (join a b).layout.size ≤ maxSize) :
    (join a b).split = .ok ⟨a, b⟩ := by
  refine split_eq_ok_iff.mpr ⟨h.wellFormed_join hsize, ?_⟩
  rw [Pair.ofFn, h.keyOf_join_a, h.keyOf_join_b]

theorem ofPair_keyOf {key : Compressed} (h : key.WellFormed) :
    ofPair ⟨key.keyOf .a, key.keyOf .b⟩ = .ok key := by
  have hsize : (join (key.keyOf .a) (key.keyOf .b)).layout.size ≤ maxSize := by
    rw [h.join_keyOf]
    exact h.addressable
  exact (ofPair_eq_ok_iff fun _ => hsize).mpr ⟨h.paired_keyOf, h.join_keyOf⟩

/-- **Compressing a pair and splitting a compressed key undo each other.**

Every pair of keys has a compressed key unless one of them is not parsed or the two differ, and
every compressed key that is split at all is the one of the pair that it is split into. -/
theorem ofPair_split_inverse :
    (∀ a b : Key, a.bytes.length < 1 <<< 63 →
      ((∃ key, ofPair ⟨a, b⟩ = .ok key) ↔ Paired a b) ∧
      (∀ key, ofPair ⟨a, b⟩ = .ok key → key.split = .ok ⟨a, b⟩) ∧
      (∀ e, ofPair ⟨a, b⟩ = .error e ↔ a.parse false = .error e ∨
        (∃ parts, a.parse false = .ok parts) ∧ b.parse false = .error e ∨
        (∃ parts, a.parse false = .ok parts) ∧ (∃ parts, b.parse false = .ok parts) ∧
          ∃ part, firstDifference a b = some part ∧ e = .pairMismatch part)) ∧
    (∀ (key : Compressed) (pair : Pair Key), key.split = .ok pair → ofPair pair = .ok key) := by
  refine ⟨?_, ?_⟩
  · intro a b hlength
    have hsize (ha : a.WellFormed false) := size_layout_join ha hlength b
    refine ⟨?_, ?_, fun e => ofPair_eq_error_iff hsize⟩
    · constructor
      · intro ⟨key, hkey⟩
        exact ((ofPair_eq_ok_iff hsize).mp hkey).1
      · intro h
        exact ⟨_, (ofPair_eq_ok_iff hsize).mpr ⟨h, rfl⟩⟩
    · intro key hkey
      obtain ⟨h, rfl⟩ := (ofPair_eq_ok_iff hsize).mp hkey
      exact split_join h (hsize h.wellFormed_a)
  · intro key pair hsplit
    obtain ⟨h, rfl⟩ := split_eq_ok_iff.mp hsplit
    exact ofPair_keyOf h

/-- Two keys that differ in nothing but their root seeds and parties, in both orders. -/
theorem ofPair_split_inverse_one_bit :
    let a : Key := ⟨1 :: 1 :: List.replicate 42 0, 1, 1, 1⟩
    let b : Key := ⟨1 :: 1 :: (List.replicate 16 6 ++ 1 :: List.replicate 25 0), 1, 1, 1⟩
    ∃ key, ofPair ⟨a, b⟩ = .ok key ∧ key.split = .ok ⟨a, b⟩ ∧
      ofPair ⟨b, a⟩ = .error (.pairMismatch (.field .party)) := by
  intro a b
  have ha : ∃ parts, a.parse false = .ok parts := Key.parses_iff.mpr (by constructor <;> decide)
  have hb : ∃ parts, b.parse false = .ok parts := Key.parses_iff.mpr (by constructor <;> decide)
  have hpaired : Paired a b := by
    refine ⟨ha, hb, ?_, ?_, ?_, ?_, ?_, ?_, ?_⟩ <;> decide
  obtain ⟨haccepted, hsplit, -⟩ := ofPair_split_inverse.1 a b (by decide)
  obtain ⟨-, -, hrefused⟩ := ofPair_split_inverse.1 b a (by decide)
  obtain ⟨key, hkey⟩ := haccepted.mpr hpaired
  refine ⟨key, hkey, hsplit key hkey, (hrefused _).mpr ?_⟩
  exact .inr (.inr ⟨hb, ha, .field .party, by decide, rfl⟩)

end Compressed

end PointSharing.MultiPoint
