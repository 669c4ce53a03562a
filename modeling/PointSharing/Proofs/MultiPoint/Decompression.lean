/-
Decompressing a compressed key.

A compressed key is decompressed without making the pair that it stands for, from parts that
are read off its own fields.  They are the parts that the two keys of the pair are parsed to, so
what comes out is the sum of what the two parties would compute over the whole domain,
whatever the key holds (`WellFormed.decompress_eq`).  Any two trees of the same sizes add up to the
sums of their outputs, so this also holds index by index (`WellFormed.decompress_eq_table`).

The keys that are generated form a pair, and joining them loses nothing.  So a function goes
through compression unchanged: by the above its compressed key is decompressed to the sum of
the shares of the generated pair, and these add up to the table of the function.
-/
import PointSharing.Proofs.MultiPoint.Compressed
import PointSharing.Proofs.MultiPoint.Sharing

namespace PointSharing.MultiPoint

variable {prg : Prg} {indices : List UInt64} {n points d : Nat} {data : Bytes} {tape : Tape}

/-! ### Any compressed key -/

/-- The parts of a key without proofs are read from four of its fields. -/
theorem Parts.ofFields_congr {field field' : Field → Bytes}
    (h : ∀ f ∈ [Field.rootSeed, .party, .levelCorrections, .payload], field f = field' f) :
    ofFields n points d false field = ofFields n points d false field' := by
  unfold ofFields
  rw [h .rootSeed (by simp), h .party (by simp), h .levelCorrections (by simp),
    h .payload (by simp)]
  rfl

namespace Compressed

/-- The tree that decompression evaluates for a party. -/
def tree (prg : Prg) (key : Compressed) (party : Party) : Evaluator (Node SignVector) :=
  (key.parts key.layout party).evaluator prg key.rangeSize key.dataSize

/-- What the outputs of the two trees at an index add up to. -/
def sumAt (prg : Prg) (key : Compressed) (index : UInt64) : Bytes :=
  Bytes.xor ((key.tree prg .a).output ((key.tree prg .a).leafAt index))
    ((key.tree prg .b).output ((key.tree prg .b).leafAt index))

variable {key : Compressed}

section

variable (h : key.WellFormed)

include h

/-- The parts that decompression uses are those that a party reads from its key. -/
theorem WellFormed.parse_keyOf (party : Party) :
    (key.keyOf party).parse false = .ok (key.parts key.layout party) := by
  refine Key.parse_eq_ok_iff.mpr ⟨h.wellFormed_keyOf party, Parts.ofFields_congr ?_⟩
  intro field hfield
  refine h.field_keyOf party field ?_
  simp only [List.mem_cons, List.not_mem_nil, or_false] at hfield
  rcases hfield with rfl | rfl | rfl | rfl <;> simp

theorem WellFormed.evaluate_keyOf (party : Party) (index : UInt64) :
    evaluate prg (key.keyOf party) index = (key.tree prg party).evaluate index :=
  evaluate_eq (h.parse_keyOf party) index

/-- **A compressed key is decompressed to the sum of what its two keys are evaluated to.** -/
theorem WellFormed.decompress_eq (prg : Prg) (hn : key.rangeSize ≤ maxFullDomainBits)
    (hsize : domainSize key.rangeSize * key.dataSize ≤ maxBuffer) :
    ∃ shareA shareB, evaluateAll prg (key.keyOf .a) = .ok shareA ∧
      evaluateAll prg (key.keyOf .b) = .ok shareB ∧
      key.decompress prg = .ok (Bytes.xor shareA shareB) := by
  have hshare (party : Party) : evaluateAll prg (key.keyOf party)
      = .ok (key.tree prg party).table := by
    rw [evaluateAll_eq (h.parse_keyOf party) hn]
    exact Evaluator.evaluateAll_eq_ok _ hsize
  refine ⟨_, _, hshare .a, hshare .b, ?_⟩
  unfold decompress
  rw [checkFullDomain_eq_ok_iff.mpr hn, checkedLayout_eq_ok_iff.mpr ⟨h, rfl⟩,
    allocateOutputs_eq_ok_iff.mpr hsize]
  rfl

theorem WellFormed.addUp (prg : Prg) :
    Evaluator.AddUp key.rangeSize key.dataSize (key.sumAt prg) (key.tree prg .a)
      (key.tree prg .b) := by
  have hsized (party : Party) : (key.tree prg party).Sized :=
    Parts.sized_evaluator prg (Key.length_levels (h.parse_keyOf party)) key.dataSize
  exact (hsized .a).addUp (hsized .b) rfl rfl

theorem WellFormed.decompress_eq_table (prg : Prg) (hn : key.rangeSize ≤ maxFullDomainBits)
    (hsize : domainSize key.rangeSize * key.dataSize ≤ maxBuffer) :
    key.decompress prg = .ok (table key.rangeSize (key.sumAt prg)) := by
  obtain ⟨shareA, shareB, hallA, hallB, hdecompress⟩ := h.decompress_eq prg hn hsize
  obtain ⟨tableA, tableB, htableA, htableB, hsum⟩ := (h.addUp prg).evaluateAll h.supported hsize
  have hA : shareA = tableA :=
    Except.ok.inj (hallA.symm.trans ((evaluateAll_eq (h.parse_keyOf .a) hn).trans htableA))
  have hB : shareB = tableB :=
    Except.ok.inj (hallB.symm.trans ((evaluateAll_eq (h.parse_keyOf .b) hn).trans htableB))
  rw [hdecompress, hA, hB, (reconstruct_eq_ok_iff.mp hsum).2]

end

/-- **The words of a decompressed key are the sums of what the two keys that it is split into are
evaluated to**, whatever the compressed key holds. -/
theorem words_of_decompress (prg : Prg) {pair : Pair Key} (hsplit : key.split = .ok pair)
    (hn : key.rangeSize ≤ 32) (hsize : domainSize key.rangeSize * key.dataSize ≤ maxBuffer) :
    ∃ values, key.decompress prg = .ok values ∧
      values.length = domainSize key.rangeSize * key.dataSize ∧
      ∀ index : UInt64, index.toNat < domainSize key.rangeSize →
        ∃ shareA shareB, evaluate prg pair.a index = .ok shareA ∧
          evaluate prg pair.b index = .ok shareB ∧
          reconstruct shareA shareB
            = .ok ((values.drop (index.toNat * key.dataSize)).take key.dataSize) := by
  obtain ⟨h, rfl⟩ := split_eq_ok_iff.mp hsplit
  have hvalue : ∀ index ∈ allIndices key.rangeSize,
      (key.sumAt prg index).length = key.dataSize := by
    intro index hindex
    exact (h.addUp prg).length_value (lt_domainSize_of_mem_allIndices h.supported hindex)
  refine ⟨_, h.decompress_eq_table prg hn hsize, length_table hvalue, ?_⟩
  intro index hindex
  rw [word_table hvalue hindex]
  obtain ⟨shareA, shareB, ha, hb, hsum⟩ := (h.addUp prg).evaluate hindex
  exact ⟨shareA, shareB, (h.evaluate_keyOf .a index).trans ha,
    (h.evaluate_keyOf .b index).trans hb, hsum⟩

/-- With seeds, corrections and a payload that no generation would make. -/
theorem words_of_decompress_one_byte_repeated :
    ∃ pair values, split ⟨1 :: 2 :: List.replicate 84 0xab, 2, 1, 2⟩ = .ok pair ∧
      decompress (.ofBlock 0) ⟨1 :: 2 :: List.replicate 84 0xab, 2, 1, 2⟩ = .ok values ∧
      values.length = 4 ∧
      ∃ shareA shareB, evaluate (.ofBlock 0) pair.a 1 = .ok shareA ∧
        evaluate (.ofBlock 0) pair.b 1 = .ok shareB ∧
        reconstruct shareA shareB = .ok ((values.drop 2).take 2) := by
  have hsplit : split ⟨1 :: 2 :: List.replicate 84 0xab, 2, 1, 2⟩ = .ok _ :=
    split_eq_ok_iff.mpr ⟨by constructor <;> decide, rfl⟩
  obtain ⟨values, hdecompress, hlength, hwords⟩ :=
    words_of_decompress (.ofBlock 0) hsplit (by decide) (by decide)
  exact ⟨_, values, hsplit, hdecompress, hlength, hwords 1 (by decide)⟩

end Compressed

/-- The compressed key of two keys has the parts of both. -/
theorem Paired.parts_join {a b : Key} {partsA partsB : Parts} (h : Paired a b)
    (hsize : (Compressed.join a b).layout.size ≤ maxSize) (ha : a.parse false = .ok partsA)
    (hb : b.parse false = .ok partsB) :
    (Compressed.join a b).parts (Compressed.join a b).layout .a = partsA ∧
      (Compressed.join a b).parts (Compressed.join a b).layout .b = partsB := by
  have hjoined := h.wellFormed_join hsize
  have hpartsA := hjoined.parse_keyOf .a
  have hpartsB := hjoined.parse_keyOf .b
  rw [h.keyOf_join_a, ha] at hpartsA
  rw [h.keyOf_join_b, hb] at hpartsB
  exact ⟨(Except.ok.inj hpartsA).symm, (Except.ok.inj hpartsB).symm⟩

theorem Paired.decompress_join {a b : Key} (h : Paired a b) (prg : Prg)
    (hcompressed : (Compressed.join a b).layout.size ≤ maxSize)
    (hn : a.rangeSize ≤ maxFullDomainBits)
    (hsize : domainSize a.rangeSize * a.dataSize ≤ maxBuffer) :
    ∃ shareA shareB, evaluateAll prg a = .ok shareA ∧ evaluateAll prg b = .ok shareB ∧
      (Compressed.join a b).decompress prg = .ok (Bytes.xor shareA shareB) := by
  have := (h.wellFormed_join hcompressed).decompress_eq prg hn hsize
  rwa [h.keyOf_join_a, h.keyOf_join_b] at this

/-! ### Keys that were generated -/

theorem runOn_compress {a b : Key} {rest : Tape}
    (hrun : (generate prg indices n points d data).runOn tape = (.ok ⟨a, b⟩, rest))
    (hpaired : Paired a b) (hcompressed : (Compressed.join a b).layout.size ≤ maxSize) :
    (compress prg indices n points d data).runOn tape = (.ok (Compressed.join a b), rest) := by
  rw [compress, Draws.runOn_bind, hrun]
  exact congrArg (·, rest) ((Compressed.ofPair_eq_ok_iff fun _ => hcompressed).mpr ⟨hpaired, rfl⟩)

namespace Shares

variable {roots : Pair Block} {growth : Growth}
  (hgrowth : Separates prg points indices n roots n growth)
  (hspecial : SpecialIndices indices n points) (hn : n ≤ maxRangeBits)
  (hdata : data.length = points * d)
  (hsize : (Layout.multiPointTable n points d false).size ≤ maxSize)

include hgrowth hspecial hn hdata

theorem field_key (party : Party) {field : Field}
    (hmem : field ∈ (Layout.multiPointTable n points d false).fields.map Prod.fst) :
    let shares := ofGrowth prg roots growth points d data
    (shares.key n points d none party).field field
      = (shares.parts points [] party).content n field :=
  Layout.read_build (sized_parts hgrowth hspecial hn hdata noProofs party).fits hmem

include hsize

/-- The two keys of a generation agree in everything that they have to agree in. -/
theorem paired_keys :
    let shares := ofGrowth prg roots growth points d data
    Paired (shares.key n points d none .a) (shares.key n points d none .b) := by
  intro shares
  have hfield (party : Party) :
      ∀ field ∈ [Field.party, .levelCorrections, .payload],
        (shares.key n points d none party).field field
          = (shares.parts points [] party).content n field := by
    intro field hfield
    refine field_key hgrowth hspecial hn hdata party ?_
    simp only [List.mem_cons, List.not_mem_nil, or_false] at hfield
    rcases hfield with rfl | rfl | rfl <;> simp [Layout.multiPointTable]
  refine ⟨⟨_, parse_key hgrowth hspecial hn hdata noProofs .a hsize⟩,
    ⟨_, parse_key hgrowth hspecial hn hdata noProofs .b hsize⟩, rfl, rfl, rfl, ?_, ?_, ?_, ?_⟩
  · exact hfield .a .party (by simp)
  · exact hfield .b .party (by simp)
  · rw [hfield .a .levelCorrections (by simp), hfield .b .levelCorrections (by simp)]
    rfl
  · rw [hfield .a .payload (by simp), hfield .b .payload (by simp)]
    rfl

/-- Over the whole domain the shares of the two keys add up to the table of the function. -/
theorem evaluateAll_keys (hfull : n ≤ maxFullDomainBits)
    (houtput : domainSize n * d ≤ maxBuffer) :
    let shares := ofGrowth prg roots growth points d data
    ∃ shareA shareB, evaluateAll prg (shares.key n points d none .a) = .ok shareA ∧
      evaluateAll prg (shares.key n points d none .b) = .ok shareB ∧
      reconstruct shareA shareB = .ok (table n (value indices d data)) := by
  intro shares
  have hparse (party : Party) := parse_key hgrowth hspecial hn hdata noProofs party hsize
  obtain ⟨shareA, shareB, ha, hb, hsum⟩ :=
    (addUp hgrowth hspecial hdata []).evaluateAll hn houtput
  exact ⟨shareA, shareB, (evaluateAll_eq (hparse .a) hfull).trans ha,
    (evaluateAll_eq (hparse .b) hfull).trans hb, hsum⟩

end Shares

/-- Within the limits the two keys that are generated are compressed. -/
theorem runOn_compress_eq_join (prg : Prg) (tape : Tape) (hn : n ≤ maxRangeBits)
    (hspecial : SpecialIndices indices n points) (hd : data.length = points * d)
    (hdata : data.length < 1 <<< 63) :
    let shares := Shares.ofTape prg indices n points d data tape
    let a := shares.key n points d none .a
    let b := shares.key n points d none .b
    Paired a b ∧ (Compressed.join a b).layout.size ≤ maxSize ∧
      (compress prg indices n points d data).runOn tape
        = (.ok (Compressed.join a b), (Shares.growOn prg indices n points tape).2) := by
  intro shares a b
  obtain ⟨hsize, hrun⟩ := runOn_generate prg tape hn hspecial hd hdata
  have hpaired : Paired a b :=
    Shares.paired_keys (Shares.separates_growOn prg tape hspecial) hspecial hn hd hsize
  have hcompressed : (Compressed.join a b).layout.size ≤ maxSize :=
    Layout.size_compressedTable_le hn hspecial.supported (hd ▸ hdata)
  exact ⟨hpaired, hcompressed, runOn_compress hrun hpaired hcompressed⟩

/-- **Compressing a function and decompressing its key gives the table of the function**, which is
also what the shares of the generated pair add up to. -/
theorem decompress_compress (prg : Prg) (tape : Tape) {indices : List UInt64} {n points d : Nat}
    {data : Bytes} (hn : n ≤ 32) (hpos : 1 ≤ points) (hle : points ≤ 32)
    (hcount : indices.length = points) (hascending : indices.Pairwise (· < ·))
    (hindices : ∀ index ∈ indices, index.toNat < domainSize n) (hd : data.length = points * d)
    (hdata : data.length < 1 <<< 63) (hsize : domainSize n * d ≤ maxBuffer) :
    ∃ key keys rest values, (compress prg indices n points d data).runOn tape = (.ok key, rest) ∧
      (generate prg indices n points d data).runOn tape = (.ok keys, rest) ∧
      key.bytes.length = 34 + 24 * n * points + d * points ∧
      key.decompress prg = .ok values ∧ values.length = domainSize n * d ∧
      (∀ index : UInt64, index.toNat < domainSize n →
        (values.drop (index.toNat * d)).take d = value indices d data index) ∧
      ∃ shareA shareB, evaluateAll prg keys.a = .ok shareA ∧ evaluateAll prg keys.b = .ok shareB ∧
        reconstruct shareA shareB = .ok values := by
  have hspecial : SpecialIndices indices n points := ⟨hindices, hascending, hcount, hpos, hle⟩
  have hsupported : n ≤ maxRangeBits := Nat.le_trans hn (by decide)
  have hgrowth := Shares.separates_growOn prg tape hspecial
  obtain ⟨hkeys, hrun⟩ := runOn_generate prg tape hsupported hspecial hd hdata
  let shares := Shares.ofTape prg indices n points d data tape
  let a := shares.key n points d none .a
  let b := shares.key n points d none .b
  have hpaired : Paired a b := Shares.paired_keys hgrowth hspecial hsupported hd hkeys
  have hcompressed : (Compressed.join a b).layout.size ≤ maxSize :=
    Layout.size_compressedTable_le hsupported hle (hd ▸ hdata)
  have hlength : (Compressed.join a b).bytes.length = (Layout.compressedTable n points d).size :=
    (hpaired.wellFormed_join hcompressed).length
  obtain ⟨shareA, shareB, hallA, hallB, hdecompress⟩ :=
    hpaired.decompress_join prg hcompressed hn hsize
  have hsum : reconstruct shareA shareB = .ok (table n (value indices d data)) := by
    obtain ⟨shareA', shareB', hallA', hallB', hsum⟩ :=
      Shares.evaluateAll_keys hgrowth hspecial hsupported hd hkeys hn hsize
    rwa [Except.ok.inj (hallA.symm.trans hallA'), Except.ok.inj (hallB.symm.trans hallB')]
  rw [(reconstruct_eq_ok_iff.mp hsum).2] at hdecompress
  have hvalue : ∀ index ∈ allIndices n, (value indices d data index).length = d := by
    intro index hindex
    exact (Shares.addUp hgrowth hspecial hd []).length_value
      (lt_domainSize_of_mem_allIndices hsupported hindex)
  refine ⟨_, _, _, _, runOn_compress hrun hpaired hcompressed, hrun, ?_, hdecompress,
    length_table hvalue, fun index => word_table hvalue, shareA, shareB, hallA, hallB, hsum⟩
  rw [hlength, Layout.size_compressedTable, signCorrectionSize]
  omega

/-- With two points and the words of all four indices. -/
theorem decompress_compress_two_bits :
    ∃ key rest values,
      (compress (.ofBlock 0) [1, 2] 2 2 1 [7, 9]).runOn (.ofBytes []) = (.ok key, rest) ∧
      key.bytes.length = 132 ∧ key.decompress (.ofBlock 0) = .ok values ∧ values.length = 4 ∧
      values.take 1 = [0] ∧ (values.drop 1).take 1 = [7] ∧ (values.drop 2).take 1 = [9] ∧
      (values.drop 3).take 1 = [0] := by
  have hascending : [1, (2 : UInt64)].Pairwise (· < ·) := by decide
  have hindices : ∀ index ∈ [1, (2 : UInt64)], index.toNat < domainSize 2 := by simp [domainSize]
  have hd : ([7, 9] : Bytes).length = 2 * 1 := rfl
  obtain ⟨key, keys, rest, values, hcompress, -, hbytes, hdecompress, hlength, hwords, -⟩ :=
    decompress_compress (.ofBlock 0) (.ofBytes []) (by decide) (by decide) (by decide) rfl
      hascending hindices hd (by decide) (by decide)
  exact ⟨key, rest, values, hcompress, hbytes, hdecompress, hlength, hwords 0 (by decide),
    hwords 1 (by decide), hwords 2 (by decide), hwords 3 (by decide)⟩

end PointSharing.MultiPoint
