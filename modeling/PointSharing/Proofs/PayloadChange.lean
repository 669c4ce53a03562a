/-
Keys of functions with the same special indices and other values there.

The values of a function enter its shares in one place, where they are masked for the payload.
Neither the corrections nor the leaves depend on them, so neither does what is drawn, and the masks
are the same for any values.  Two pairs of keys from one tape therefore differ in their payloads
only, and these by what the values differ by: the masks are added on both sides and cancel.

With several points this is so word by word, each word having the masks of its own leaf, and the
fields are the words one after the other.
-/
import PointSharing.Proofs.Serialization

namespace PointSharing

/-- Two keys are the same except for their payloads, and these differ by what two values differ
by. -/
structure PayloadShifted (layout : Layout) (data data' key key' : Bytes) : Prop where
  length : key'.length = key.length
  unchanged : layout.AgreeOutside [.payload] key key'
  changed : Bytes.xor (layout.read key .payload) (layout.read key' .payload)
    = Bytes.xor data data'

/-! ### One point -/

namespace Point

/-- Two keys have the same sizes and are shifted. -/
structure Key.Shifted (layout : Layout) (data data' : Bytes) (key key' : Key) : Prop
    extends PayloadShifted layout data data' key.bytes key'.bytes where
  declared : key' = { key with bytes := key'.bytes }

namespace Shares

variable {prg : Prg} {index : UInt64} {n d : Nat} {data data' : Bytes} {tape rest : Tape}
  {keys : Pair Key}

theorem xor_payload (roots : Pair Block) (path : List Bool) (hdata : data'.length = data.length) :
    Bytes.xor (ofRoots prg roots path data).payload (ofRoots prg roots path data').payload
      = Bytes.xor data data' := by
  have hmask : ∀ leaf : Node Bool, (prg.leafMask leaf.seed data.length).length ≤ data'.length := by
    intro leaf
    rw [prg.length_leafMask, hdata]
  unfold ofRoots
  simp only [hdata]
  exact Bytes.xor_masks_cancel (hmask _) (hmask _)

theorem shifted_key (roots : Pair Block) (hn : n ≤ maxRangeBits)
    (hdata : data'.length = data.length) (correction : Option Tag) (party : Party) :
    let shares := ofRoots prg roots (path index n) data
    let shares' := ofRoots prg roots (path index n) data'
    (shares.key n data.length correction party).Shifted
      (Layout.pointTable n data.length correction.isSome) data data'
      (shares'.key n data.length correction party) := by
  intro shares shares'
  have hfits : (Layout.pointTable n data.length correction.isSome).Fits
      ((shares.parts (correction.getD Tag.zero) party).content n) :=
    (sized_parts hn correction party).fits
  have hfits' : (Layout.pointTable n data.length correction.isSome).Fits
      ((shares'.parts (correction.getD Tag.zero) party).content n) := by
    rw [← hdata]
    exact (sized_parts hn correction party).fits
  have hpayload : Field.payload ∈
      (Layout.pointTable n data.length correction.isSome).fields.map Prod.fst := by
    simp [Layout.pointTable]
  refine ⟨⟨?_, ?_, ?_⟩, rfl⟩
  · exact (Layout.length_build hfits').trans (Layout.length_build hfits).symm
  · refine Layout.agreeOutside_build (Layout.nodup_pointTable _ _ _) hfits hfits' ?_
    intro field _ hfield
    rw [List.mem_singleton] at hfield
    cases field with
    | payload => exact absurd rfl hfield
    | _ => rfl
  · simp only [key]
    rw [Layout.read_build hfits hpayload, Layout.read_build hfits' hpayload]
    exact xor_payload roots (path index n) hdata

theorem shifted (correction : Shares → Option Tag) (hdata : data'.length = data.length)
    (hcorrection : correction (ofTape prg index n data' tape)
      = correction (ofTape prg index n data tape))
    (h : Draws.runOn (do
      let shares ← draw prg index n d data
      shares.toKeys n d (correction shares)) tape = (.ok keys, rest)) :
    ∃ keys' layout, Draws.runOn (do
        let shares ← draw prg index n d data'
        shares.toKeys n d (correction shares)) tape = (.ok keys', rest) ∧
      Layout.point n d (correction (ofTape prg index n data tape)).isSome = .ok layout ∧
      ∀ party, (keys.get party).Shifted layout data data' (keys'.get party) := by
  obtain ⟨⟨hn, hd, hindex⟩, hsize, hkeys, hrest⟩ :=
    (runOn_draw_toKeys_eq_ok_iff correction).mp h
  subst hd hkeys
  have hsize' : (Layout.pointTable n data.length
      (correction (ofTape prg index n data' tape)).isSome).size ≤ maxSize := by
    rwa [hcorrection]
  refine ⟨_, _, (runOn_draw_toKeys_eq_ok_iff correction).mpr
    ⟨⟨hn, hdata, hindex⟩, hsize', rfl, hrest⟩, (Layout.point_eq _ _ _).trans (if_pos hsize), ?_⟩
  intro party
  rw [Pair.get_ofFn, Pair.get_ofFn, hcorrection]
  exact shifted_key _ hn hdata _ party

end Shares

end Point

/-! ### Several points -/

namespace MultiPoint

/-- Two keys have the same sizes and are shifted, each payload word by what the words of its point
differ by. -/
structure Key.Shifted (layout : Layout) (data data' : Bytes) (key key' : Key) : Prop
    extends PayloadShifted layout data data' key.bytes key'.bytes where
  declared : key' = { key with bytes := key'.bytes }
  words : List.zipWith Bytes.xor
      (Bytes.words key.dataSize key.points (layout.read key.bytes .payload))
      (Bytes.words key.dataSize key.points (layout.read key'.bytes .payload))
    = List.zipWith Bytes.xor (Bytes.words key.dataSize key.points data)
        (Bytes.words key.dataSize key.points data')

namespace Shares

variable {prg : Prg} {indices : List UInt64} {n points d : Nat} {data data' : Bytes}
  {tape rest : Tape} {keys : Pair Key}

/-- A word and another one in its place have the same masks. -/
theorem zipWith_xor_maskWord (prg : Prg) {ws vs : List Bytes}
    {leaves : List (Pair (Node SignVector))}
    (hws : ws.length = leaves.length) (hvs : vs.length = leaves.length)
    (hsize : ∀ w ∈ ws, w.length = d) (hsize' : ∀ v ∈ vs, v.length = d) :
    List.zipWith Bytes.xor (List.zipWith (maskWord prg) ws leaves)
      (List.zipWith (maskWord prg) vs leaves) = List.zipWith Bytes.xor ws vs := by
  induction leaves generalizing ws vs with
  | nil =>
      rw [List.length_nil] at hws
      rw [List.length_eq_zero_iff.mp hws]
      rfl
  | cons leaf leaves ih =>
      obtain ⟨w, ws, rfl⟩ := List.exists_cons_of_length_eq_add_one hws
      obtain ⟨v, vs, rfl⟩ := List.exists_cons_of_length_eq_add_one hvs
      have hlength : w.length = v.length := (hsize w (by simp)).trans (hsize' v (by simp)).symm
      have hmask : ∀ node : Node SignVector, (prg.leafMask node.seed v.length).length ≤ v.length :=
        fun node => Nat.le_of_eq (prg.length_leafMask _ _)
      have hword : Bytes.xor (maskWord prg w leaf) (maskWord prg v leaf) = Bytes.xor w v := by
        rw [maskWord, maskWord, hlength]
        exact Bytes.xor_masks_cancel (hmask leaf.a) (hmask leaf.b)
      have hrest := ih (by simpa using hws) (by simpa using hvs)
        (fun u hu => hsize u (by simp [hu])) (fun u hu => hsize' u (by simp [hu]))
      rw [List.zipWith_cons_cons, List.zipWith_cons_cons, List.zipWith_cons_cons,
        List.zipWith_cons_cons, hword, hrest]

section

variable {roots : Pair Block} {growth : Growth}
  (hgrowth : Separates prg points indices n roots n growth)
  (hspecial : SpecialIndices indices n points)

include hgrowth hspecial

theorem length_payload (data : Bytes) :
    (ofGrowth prg roots growth points d data).payload.length = points := by
  rw [ofGrowth, List.length_zipWith, Bytes.length_words, length_leaves hgrowth hspecial,
    Nat.min_self]

theorem words_flatten_payload (hdata : data.length = points * d) :
    Bytes.words d points (ofGrowth prg roots growth points d data).payload.flatten
      = (ofGrowth prg roots growth points d data).payload := by
  let payload := (ofGrowth prg roots growth points d data).payload
  have hwords : Bytes.words d payload.length payload.flatten = payload :=
    Bytes.words_flatten payload (length_of_mem_payload roots growth hdata)
  rwa [length_payload hgrowth hspecial data] at hwords

variable (hdata : data.length = points * d) (hdata' : data'.length = points * d)

include hdata hdata'

theorem zipWith_xor_payload :
    List.zipWith Bytes.xor (ofGrowth prg roots growth points d data).payload
      (ofGrowth prg roots growth points d data').payload
    = List.zipWith Bytes.xor (Bytes.words d points data) (Bytes.words d points data') := by
  have hleaves : points = growth.nodes.length := (length_leaves hgrowth hspecial).symm
  refine zipWith_xor_maskWord prg ?_ ?_ (fun w => Bytes.length_of_mem_words hdata)
    (fun w => Bytes.length_of_mem_words hdata')
  · rwa [Bytes.length_words]
  · rwa [Bytes.length_words]

theorem xor_flatten_payload :
    Bytes.xor (ofGrowth prg roots growth points d data).payload.flatten
      (ofGrowth prg roots growth points d data').payload.flatten = Bytes.xor data data' := by
  calc Bytes.xor (ofGrowth prg roots growth points d data).payload.flatten
        (ofGrowth prg roots growth points d data').payload.flatten
      = (List.zipWith Bytes.xor (ofGrowth prg roots growth points d data).payload
          (ofGrowth prg roots growth points d data').payload).flatten :=
        Bytes.xor_flatten ((length_payload hgrowth hspecial data).trans
            (length_payload hgrowth hspecial data').symm)
          (length_of_mem_payload roots growth hdata) (length_of_mem_payload roots growth hdata')
    _ = (List.zipWith Bytes.xor (Bytes.words d points data)
          (Bytes.words d points data')).flatten := by
        rw [zipWith_xor_payload hgrowth hspecial hdata hdata']
    _ = Bytes.xor (Bytes.words d points data).flatten (Bytes.words d points data').flatten := by
        refine (Bytes.xor_flatten ?_ (fun w => Bytes.length_of_mem_words hdata)
          (fun w => Bytes.length_of_mem_words hdata')).symm
        rw [Bytes.length_words, Bytes.length_words]
    _ = Bytes.xor data data' := by
        rw [Bytes.flatten_words hdata, Bytes.flatten_words hdata']

theorem shifted_key (hn : n ≤ maxRangeBits) {corrections : Option (List Tag)}
    (htags : ∀ tags ∈ corrections, tags.length = points) (party : Party) :
    let shares := ofGrowth prg roots growth points d data
    let shares' := ofGrowth prg roots growth points d data'
    (shares.key n points d corrections party).Shifted
      (Layout.multiPointTable n points d corrections.isSome) data data'
      (shares'.key n points d corrections party) := by
  intro shares shares'
  have hsized := sized_parts hgrowth hspecial hn hdata htags party
  have hsized' := sized_parts hgrowth hspecial hn hdata' htags party
  have hmem : Field.payload ∈
      (Layout.multiPointTable n points d corrections.isSome).fields.map Prod.fst := by
    simp [Layout.multiPointTable]
  have hread : (Layout.multiPointTable n points d corrections.isSome).read
      (shares.key n points d corrections party).bytes .payload = shares.payload.flatten :=
    Layout.read_build hsized.fits hmem
  have hread' : (Layout.multiPointTable n points d corrections.isSome).read
      (shares'.key n points d corrections party).bytes .payload = shares'.payload.flatten :=
    Layout.read_build hsized'.fits hmem
  refine ⟨⟨?_, ?_, ?_⟩, rfl, ?_⟩
  · exact (Layout.length_build hsized'.fits).trans (Layout.length_build hsized.fits).symm
  · refine Layout.agreeOutside_build (Layout.nodup_multiPointTable _ _ _ _) hsized.fits
      hsized'.fits ?_
    intro field _ hfield
    rw [List.mem_singleton] at hfield
    cases field with
    | payload => exact absurd rfl hfield
    | _ => rfl
  · rw [hread, hread']
    exact xor_flatten_payload hgrowth hspecial hdata hdata'
  · rw [hread, hread']
    show List.zipWith Bytes.xor (Bytes.words d points shares.payload.flatten)
      (Bytes.words d points shares'.payload.flatten) = _
    rw [words_flatten_payload hgrowth hspecial hdata, words_flatten_payload hgrowth hspecial hdata']
    exact zipWith_xor_payload hgrowth hspecial hdata hdata'

end

theorem shifted (corrections : Shares → Option (List Tag)) (hdata : data'.length = data.length)
    (hcorrections : corrections (ofTape prg indices n points d data' tape)
      = corrections (ofTape prg indices n points d data tape))
    (htags : ∀ tags ∈ corrections (ofTape prg indices n points d data tape),
      tags.length = points)
    (h : Draws.runOn (do
      let shares ← draw prg indices n points d data
      shares.toKeys n points d (corrections shares)) tape = (.ok keys, rest)) :
    ∃ keys' layout, Draws.runOn (do
        let shares ← draw prg indices n points d data'
        shares.toKeys n points d (corrections shares)) tape = (.ok keys', rest) ∧
      Layout.multiPoint n points d
        (corrections (ofTape prg indices n points d data tape)).isSome = .ok layout ∧
      ∀ party, (keys.get party).Shifted layout data data' (keys'.get party) := by
  obtain ⟨⟨hn, hspecial, hpayload, hd⟩, hsize, hkeys, hrest⟩ :=
    (runOn_draw_toKeys_eq_ok_iff corrections).mp h
  subst hkeys
  have hd' : data'.length = points * d := hdata.trans hd
  have hsize' : (Layout.multiPointTable n points d
      (corrections (ofTape prg indices n points d data' tape)).isSome).size ≤ maxSize := by
    rwa [hcorrections]
  refine ⟨_, _, (runOn_draw_toKeys_eq_ok_iff corrections).mpr
    ⟨⟨hn, hspecial, hpayload, hd'⟩, hsize', rfl, hrest⟩,
    (Layout.multiPoint_eq hspecial.positive _ _ _).trans (if_pos hsize), ?_⟩
  intro party
  rw [Pair.get_ofFn, Pair.get_ofFn, hcorrections]
  exact shifted_key (separates_growOn prg tape hspecial) hspecial hd hd' hn htags party

end Shares

end MultiPoint

/-! ### Both kinds -/

/-- **What the values of a function are shows in the payloads of its keys only**: with other values
the same blocks are drawn, every other byte of both keys is the same, and the payloads differ by
what the values differ by. -/
theorem payload_of_generate (setup : Setup) (tape : Tape) :
    (∀ (index : UInt64) (n d : Nat) (data data' : Bytes) (keys : Pair Point.Key) (rest : Tape),
      data'.length = data.length →
      (Point.generate setup.prg index n d data).runOn tape = (.ok keys, rest) →
      ∃ keys' layout, (Point.generate setup.prg index n d data').runOn tape = (.ok keys', rest) ∧
        Layout.point n d false = .ok layout ∧
        ∀ party, (keys.get party).Shifted layout data data' (keys'.get party)) ∧
    (∀ (index : UInt64) (n d : Nat) (data data' : Bytes) (keys : Pair Point.Key) (rest : Tape),
      data'.length = data.length →
      (Point.Verified.generate setup index n d data).runOn tape = (.ok keys, rest) →
      ∃ keys' layout,
        (Point.Verified.generate setup index n d data').runOn tape = (.ok keys', rest) ∧
        Layout.point n d true = .ok layout ∧
        ∀ party, (keys.get party).Shifted layout data data' (keys'.get party)) ∧
    (∀ (indices : List UInt64) (n points d : Nat) (data data' : Bytes)
      (keys : Pair MultiPoint.Key) (rest : Tape), data'.length = data.length →
      (MultiPoint.generate setup.prg indices n points d data).runOn tape = (.ok keys, rest) →
      ∃ keys' layout,
        (MultiPoint.generate setup.prg indices n points d data').runOn tape = (.ok keys', rest) ∧
        Layout.multiPoint n points d false = .ok layout ∧
        ∀ party, (keys.get party).Shifted layout data data' (keys'.get party)) ∧
    (∀ (indices : List UInt64) (n points d : Nat) (data data' : Bytes)
      (keys : Pair MultiPoint.Key) (rest : Tape), data'.length = data.length →
      (MultiPoint.Verified.generate setup indices n points d data).runOn tape = (.ok keys, rest) →
      ∃ keys' layout,
        (MultiPoint.Verified.generate setup indices n points d data').runOn tape
          = (.ok keys', rest) ∧
        Layout.multiPoint n points d true = .ok layout ∧
        ∀ party, (keys.get party).Shifted layout data data' (keys'.get party)) := by
  refine ⟨?_, ?_, ?_, ?_⟩
  · intro index n d data data' keys rest hdata h
    exact Point.Shares.shifted (fun _ => none) hdata rfl h
  · intro index n d data data' keys rest hdata h
    exact Point.Shares.shifted
      (fun shares => some (shares.proofCorrection setup.hashes index)) hdata rfl h
  · intro indices n points d data data' keys rest hdata h
    exact MultiPoint.Shares.shifted (fun _ => none) hdata rfl MultiPoint.Shares.noProofs h
  · intro indices n points d data data' keys rest hdata h
    let corrections : MultiPoint.Shares → Option (List Tag) := fun shares =>
      some (shares.proofCorrections setup.hashes indices)
    obtain ⟨⟨-, hspecial, -, -⟩, -, -, -⟩ :=
      (MultiPoint.Shares.runOn_draw_toKeys_eq_ok_iff corrections).mp h
    exact MultiPoint.Shares.shifted corrections hdata rfl
      (MultiPoint.Shares.length_of_mem_some_proofCorrections setup hspecial d data tape) h

/-- With two bits, and with one and two special points of which one keeps its value. -/
theorem payload_of_generate_two_bits :
    let setup : Setup := ⟨.ofBlock 0, ⟨1, 2⟩⟩
    (∃ keys keys' rest layout,
      (Point.generate setup.prg 1 2 3 [7, 8, 9]).runOn (.ofBytes []) = (.ok keys, rest) ∧
      (Point.generate setup.prg 1 2 3 [7, 8, 10]).runOn (.ofBytes []) = (.ok keys', rest) ∧
      Layout.point 2 3 false = .ok layout ∧
      layout.AgreeOutside [.payload] keys.a.bytes keys'.a.bytes ∧
      Bytes.xor (layout.read keys.a.bytes .payload) (layout.read keys'.a.bytes .payload)
        = [0, 0, 3]) ∧
    (∃ keys keys' rest layout,
      (Point.Verified.generate setup 1 2 3 [7, 8, 9]).runOn (.ofBytes []) = (.ok keys, rest) ∧
      (Point.Verified.generate setup 1 2 3 [7, 8, 10]).runOn (.ofBytes []) = (.ok keys', rest) ∧
      Layout.point 2 3 true = .ok layout ∧
      layout.AgreeOutside [.payload] keys.b.bytes keys'.b.bytes ∧
      Bytes.xor (layout.read keys.b.bytes .payload) (layout.read keys'.b.bytes .payload)
        = [0, 0, 3]) ∧
    (∃ keys keys' rest layout,
      (MultiPoint.generate setup.prg [1, 2] 2 2 1 [7, 9]).runOn (.ofBytes []) = (.ok keys, rest) ∧
      (MultiPoint.generate setup.prg [1, 2] 2 2 1 [7, 8]).runOn (.ofBytes []) = (.ok keys', rest) ∧
      Layout.multiPoint 2 2 1 false = .ok layout ∧
      layout.AgreeOutside [.payload] keys.a.bytes keys'.a.bytes ∧
      Bytes.xor (layout.read keys.a.bytes .payload) (layout.read keys'.a.bytes .payload)
        = [0, 1]) ∧
    ∃ keys keys' rest layout,
      (MultiPoint.Verified.generate setup [1, 2] 2 2 1 [7, 9]).runOn (.ofBytes [])
        = (.ok keys, rest) ∧
      (MultiPoint.Verified.generate setup [1, 2] 2 2 1 [7, 8]).runOn (.ofBytes [])
        = (.ok keys', rest) ∧
      Layout.multiPoint 2 2 1 true = .ok layout ∧
      layout.AgreeOutside [.payload] keys.b.bytes keys'.b.bytes ∧
      Bytes.xor (layout.read keys.b.bytes .payload) (layout.read keys'.b.bytes .payload)
        = [0, 1] := by
  intro setup
  have hd : ([7, 8, 9] : Bytes).length = 3 := rfl
  have hindex : (1 : UInt64).toNat < domainSize 2 := by decide
  have hwords : ([7, 9] : Bytes).length = 2 * 1 := rfl
  have hxor : Bytes.xor [7, 8, 9] [7, 8, 10] = [0, 0, 3] := by decide
  have hxorWords : Bytes.xor [7, 9] [7, 8] = [0, 1] := by decide
  have hspecial : MultiPoint.SpecialIndices [1, 2] 2 2 :=
    ⟨by simp [domainSize], by decide, rfl, by decide, by decide⟩
  obtain ⟨hpoint, hpointProved, hpoints, hpointsProved⟩ := payload_of_generate setup (.ofBytes [])
  refine ⟨?_, ?_, ?_, ?_⟩
  · have hrun : (Point.generate setup.prg 1 2 3 [7, 8, 9]).runOn (.ofBytes []) = (.ok _, _) :=
      (Point.Shares.runOn_draw_toKeys_eq_ok_iff fun _ => none).mpr
        ⟨⟨by decide, hd, hindex⟩, by decide, rfl, rfl⟩
    obtain ⟨keys', layout, hrun', hlayout, hshifted⟩ :=
      hpoint 1 2 3 [7, 8, 9] [7, 8, 10] _ _ rfl hrun
    exact ⟨_, keys', _, layout, hrun, hrun', hlayout, (hshifted .a).unchanged,
      (hshifted .a).changed.trans hxor⟩
  · obtain ⟨keys, rest, hrun⟩ := Point.Verified.exists_generate setup (.ofBytes []) (by decide) hd
      hindex (by decide)
    obtain ⟨keys', layout, hrun', hlayout, hshifted⟩ :=
      hpointProved 1 2 3 [7, 8, 9] [7, 8, 10] _ _ rfl hrun
    exact ⟨keys, keys', rest, layout, hrun, hrun', hlayout, (hshifted .b).unchanged,
      (hshifted .b).changed.trans hxor⟩
  · have hrun := (MultiPoint.runOn_generate setup.prg (.ofBytes []) (by decide) hspecial hwords
      (by decide)).2
    obtain ⟨keys', layout, hrun', hlayout, hshifted⟩ :=
      hpoints [1, 2] 2 2 1 [7, 9] [7, 8] _ _ rfl hrun
    exact ⟨_, keys', _, layout, hrun, hrun', hlayout, (hshifted .a).unchanged,
      (hshifted .a).changed.trans hxorWords⟩
  · obtain ⟨keys, rest, hrun⟩ := MultiPoint.Verified.exists_generate setup (.ofBytes [])
      (by decide) hspecial (by decide) hwords (by decide)
    obtain ⟨keys', layout, hrun', hlayout, hshifted⟩ :=
      hpointsProved [1, 2] 2 2 1 [7, 9] [7, 8] _ _ rfl hrun
    exact ⟨keys, keys', rest, layout, hrun, hrun', hlayout, (hshifted .b).unchanged,
      (hshifted .b).changed.trans hxorWords⟩

end PointSharing
