/-
What is written into a pair of keys, and that each party reads just that.

Generation computes its shares first and writes them into two keys afterwards, so what a key has
to hold is known before there is a key.  `WrittenTo` says all that a pair of keys has to satisfy
for it: the sizes, what the keys have in common, and what each of them is parsed to.  The keys
have in common whatever is not the party's own, which is the seed and the bit at its root.

The corrections of a key with several points are the only field with words in words.  Where a
correction lies is therefore stated on the bytes as well, as the place where a party that only
counts words finds it.
-/
import PointSharing.Proofs.Differences
import PointSharing.Proofs.MultiPoint.Verified
import PointSharing.Proofs.Point.Verified

namespace PointSharing

@[simp] theorem Pair.get_ofFn {α : Type} (f : Party → α) (party : Party) :
    (Pair.ofFn f).get party = f party := by
  cases party <;> rfl

/-! ### One point -/

namespace Point.Shares

variable {prg : Prg} {index : UInt64} {n d : Nat} {data : Bytes} {tape rest : Tape}
  {keys : Pair Key}

/-- The keys hold the shares and nothing else. -/
structure WrittenTo (shares : Shares) (correction : Option Tag) (n d : Nat) (layout : Layout)
    (keys : Pair Key) : Prop where
  table : Layout.point n d correction.isSome = .ok layout
  declared : ∀ party, (keys.get party).rangeSize = n ∧ (keys.get party).dataSize = d
  length : ∀ party, (keys.get party).bytes.length = layout.size
  common : layout.AgreeOutside [.rootSeed, .rootBit] keys.a.bytes keys.b.bytes
  bitA : layout.read keys.a.bytes .rootBit = [0]
  bitB : layout.read keys.b.bytes .rootBit = [1]
  levels : shares.corrections.length = n
  parse : ∀ party, (keys.get party).parse correction.isSome = .ok {
    rootSeed := shares.roots.get party
    party := party
    corrections := shares.corrections
    payload := shares.payload
    proofCorrection := correction.getD Tag.zero }

/-- Shares are drawn whenever the keys that they are written into are. -/
theorem runOn_draw (correction : Shares → Option Tag)
    (h : Draws.runOn (do
      let shares ← draw prg index n d data
      shares.toKeys n d (correction shares)) tape = (.ok keys, rest)) :
    (draw prg index n d data).runOn tape = (.ok (ofTape prg index n data tape), rest) := by
  obtain ⟨hargs, -, -, hrest⟩ := (runOn_draw_toKeys_eq_ok_iff correction).mp h
  unfold draw
  simp only [Draws.runOn_bind, Draws.runOn_liftExcept, checkArguments_eq_ok_iff.mpr hargs,
    Draws.runOn_liftState, Tape.run_draw, Draws.runOn_pure]
  rw [← hrest]
  rfl

theorem writtenTo (correction : Shares → Option Tag)
    (h : Draws.runOn (do
      let shares ← draw prg index n d data
      shares.toKeys n d (correction shares)) tape = (.ok keys, rest)) :
    let shares := ofTape prg index n data tape
    shares.WrittenTo (correction shares) n d
      (Layout.pointTable n d (correction shares).isSome) keys := by
  intro shares
  obtain ⟨⟨hn, hd, -⟩, hsize, hkeys, -⟩ := (runOn_draw_toKeys_eq_ok_iff correction).mp h
  subst hd hkeys
  have hsized : ∀ party, (shares.parts ((correction shares).getD Tag.zero) party).Sized n
      data.length (correction shares).isSome := sized_parts hn (correction shares)
  have hread : ∀ party, (Layout.pointTable n data.length (correction shares).isSome).read
      (shares.key n data.length (correction shares) party).bytes .rootBit = [party.toByte] := by
    intro party
    exact Layout.read_build (hsized party).fits (by simp [Layout.pointTable])
  refine ⟨?_, ?_, ?_, ?_, hread .a, hread .b, ?_, ?_⟩
  · rw [Layout.point_eq, if_pos hsize]
  · intro party
    rw [Pair.get_ofFn]
    exact ⟨rfl, rfl⟩
  · intro party
    rw [Pair.get_ofFn]
    exact Layout.length_build (hsized party).fits
  · refine Layout.agreeOutside_build (Layout.nodup_pointTable _ _ _) (hsized .a).fits
      (hsized .b).fits ?_
    intro field _ hfield
    rw [List.mem_cons, List.mem_singleton, not_or] at hfield
    cases field with
    | rootSeed => exact absurd rfl hfield.1
    | rootBit => exact absurd rfl hfield.2
    | _ => rfl
  · exact (hsized .a).corrections
  · intro party
    rw [Pair.get_ofFn]
    exact parse_key hn (correction shares) party hsize

end Point.Shares

/-! ### Several points -/

namespace MultiPoint

/-- The bytes of one correction: the one in a place of a level. -/
def correctionWord (layout : Layout) (points : Nat) (key : Bytes) (depth place : Nat) : Bytes :=
  ((layout.read key .levelCorrections).drop ((depth * points + place) * signCorrectionSize)).take
    signCorrectionSize

theorem word_encodeLevels {levels : List (List SignCorrection)} {points depth place : Nat}
    {corrections : List SignCorrection} {correction : SignCorrection}
    (hlength : ∀ level ∈ levels, level.length = points) (hlevel : levels[depth]? = some corrections)
    (hplace : corrections[place]? = some correction) :
    ((encodeLevels levels).drop ((depth * points + place) * signCorrectionSize)).take
      signCorrectionSize = correction.toBytes := by
  have hlt : place < points := by
    obtain ⟨hlt, -⟩ := List.getElem?_eq_some_iff.mp hplace
    rwa [hlength corrections (List.mem_of_getElem? hlevel)] at hlt
  have houter := Bytes.word_flatMap levels
    (fun level hlevel => length_encodeLevel (hlength level hlevel)) hlevel
  have hinner := Bytes.word_flatMap corrections
    (fun c _ => SignCorrection.length_toBytes c) hplace
  -- the word of the place lies in the word of its level
  rw [← houter, List.drop_take, List.drop_drop, List.take_take, Nat.min_eq_left] at hinner
  · rw [← hinner, encodeLevels, signCorrectionSize]
    congr 2
    rw [Nat.add_mul, Nat.mul_assoc, Nat.mul_comm points]
  · rw [signCorrectionSize]
    omega

namespace Shares

variable {prg : Prg} {indices : List UInt64} {n points d : Nat} {data : Bytes} {tape rest : Tape}
  {keys : Pair Key}

/-- There is a proof correction for each point. -/
theorem length_of_mem_some_proofCorrections (setup : Setup)
    (hspecial : SpecialIndices indices n points) (d : Nat) (data : Bytes) (tape : Tape) :
    ∀ tags ∈ some ((ofTape setup.prg indices n points d data tape).proofCorrections setup.hashes
      indices), tags.length = points := by
  intro tags htags
  rw [← Option.some.inj htags]
  exact length_proofCorrections (separates_growOn setup.prg tape hspecial) hspecial setup.hashes

/-- The keys hold the shares and nothing else. -/
structure WrittenTo (shares : Shares) (corrections : Option (List Tag)) (n points d : Nat)
    (layout : Layout) (keys : Pair Key) : Prop where
  table : Layout.multiPoint n points d corrections.isSome = .ok layout
  declared : ∀ party, (keys.get party).rangeSize = n ∧ (keys.get party).points = points ∧
    (keys.get party).dataSize = d
  length : ∀ party, (keys.get party).bytes.length = layout.size
  common : layout.AgreeOutside [.rootSeed, .party] keys.a.bytes keys.b.bytes
  partyA : layout.read keys.a.bytes .party = [0]
  partyB : layout.read keys.b.bytes .party = [1]
  levels : shares.levels.length = n
  level : ∀ corrections ∈ shares.levels, corrections.length = points
  tags : ∀ tags ∈ corrections, tags.length = points
  parse : ∀ party, (keys.get party).parse corrections.isSome = .ok {
    rootSeed := shares.roots.get party
    party := party
    levels := shares.levels
    payload := shares.payload
    proofCorrections := corrections.getD []
    points := points }
  word : ∀ party depth place level correction, shares.levels[depth]? = some level →
    level[place]? = some correction →
    correctionWord layout points (keys.get party).bytes depth place = correction.toBytes
  payload : ∀ party, layout.read (keys.get party).bytes .payload = shares.payload.flatten

/-- Shares are drawn whenever the arguments are accepted. -/
theorem runOn_draw_of_accepted (prg : Prg) (tape : Tape)
    (h : checkArguments indices n points d data = .ok ()) :
    (draw prg indices n points d data).runOn tape
      = (.ok (ofTape prg indices n points d data tape), (growOn prg indices n points tape).2) := by
  unfold draw
  simp only [Draws.runOn_bind, Draws.runOn_liftExcept, h, Draws.runOn_liftState, Tape.run_draw,
    Draws.runOn_pure]
  rfl

/-- Shares are drawn whenever the keys that they are written into are. -/
theorem runOn_draw (corrections : Shares → Option (List Tag))
    (h : Draws.runOn (do
      let shares ← draw prg indices n points d data
      shares.toKeys n points d (corrections shares)) tape = (.ok keys, rest)) :
    (draw prg indices n points d data).runOn tape
      = (.ok (ofTape prg indices n points d data tape), rest) := by
  obtain ⟨hargs, -, -, hrest⟩ := (runOn_draw_toKeys_eq_ok_iff corrections).mp h
  rw [runOn_draw_of_accepted prg tape (checkArguments_eq_ok_iff.mpr hargs), hrest]

theorem writtenTo (corrections : Shares → Option (List Tag))
    (htags : ∀ tags ∈ corrections (ofTape prg indices n points d data tape),
      tags.length = points)
    (h : Draws.runOn (do
      let shares ← draw prg indices n points d data
      shares.toKeys n points d (corrections shares)) tape = (.ok keys, rest)) :
    let shares := ofTape prg indices n points d data tape
    shares.WrittenTo (corrections shares) n points d
      (Layout.multiPointTable n points d (corrections shares).isSome) keys := by
  intro shares
  obtain ⟨⟨hn, hspecial, -, hd⟩, hsize, hkeys, -⟩ :=
    (runOn_draw_toKeys_eq_ok_iff corrections).mp h
  subst hkeys
  have hgrowth := separates_growOn prg tape hspecial
  have hsized : ∀ party, (shares.parts points ((corrections shares).getD []) party).Sized n d
      (corrections shares).isSome := sized_parts hgrowth hspecial hn hd htags
  have hread : ∀ party, ∀ field ∈ [Field.party, .levelCorrections, .payload],
      (Layout.multiPointTable n points d (corrections shares).isSome).read
        (shares.key n points d (corrections shares) party).bytes field
      = (shares.parts points ((corrections shares).getD []) party).content n field := by
    intro party field hfield
    refine Layout.read_build (hsized party).fits ?_
    simp only [List.mem_cons, List.not_mem_nil, or_false] at hfield
    rcases hfield with rfl | rfl | rfl <;> simp [Layout.multiPointTable]
  refine ⟨?_, ?_, ?_, ?_, hread .a .party (by simp), hread .b .party (by simp), hgrowth.length,
    hgrowth.corrections, htags, ?_, ?_, ?_⟩
  · rw [Layout.multiPoint_eq hspecial.positive, if_pos hsize]
  · intro party
    rw [Pair.get_ofFn]
    exact ⟨rfl, rfl, rfl⟩
  · intro party
    rw [Pair.get_ofFn]
    exact Layout.length_build (hsized party).fits
  · refine Layout.agreeOutside_build (Layout.nodup_multiPointTable _ _ _ _) (hsized .a).fits
      (hsized .b).fits ?_
    intro field _ hfield
    rw [List.mem_cons, List.mem_singleton, not_or] at hfield
    cases field with
    | rootSeed => exact absurd rfl hfield.1
    | party => exact absurd rfl hfield.2
    | _ => rfl
  · intro party
    rw [Pair.get_ofFn]
    exact parse_key hgrowth hspecial hn hd htags party hsize
  · intro party depth place level correction hlevel hplace
    rw [Pair.get_ofFn, correctionWord, hread party .levelCorrections (by simp)]
    exact word_encodeLevels hgrowth.corrections hlevel hplace
  · intro party
    rw [Pair.get_ofFn, hread party .payload (by simp)]
    rfl

end Shares

end MultiPoint

/-! ### Both kinds -/

/-- **Whatever is generated, each party reads from its key just what was computed for it**: its own
root, and the level corrections, the payload and the proof corrections that both keys have. -/
theorem shares_of_generate (setup : Setup) (tape : Tape) :
    (∀ (index : UInt64) (n d : Nat) (data : Bytes) (keys : Pair Point.Key) (rest : Tape),
      (Point.generate setup.prg index n d data).runOn tape = (.ok keys, rest) →
      ∃ shares layout,
        (Point.Shares.draw setup.prg index n d data).runOn tape = (.ok shares, rest) ∧
        shares.WrittenTo none n d layout keys) ∧
    (∀ (index : UInt64) (n d : Nat) (data : Bytes) (keys : Pair Point.Key) (rest : Tape),
      (Point.Verified.generate setup index n d data).runOn tape = (.ok keys, rest) →
      ∃ shares layout,
        (Point.Shares.draw setup.prg index n d data).runOn tape = (.ok shares, rest) ∧
        shares.WrittenTo (some (shares.proofCorrection setup.hashes index)) n d layout keys) ∧
    (∀ (indices : List UInt64) (n points d : Nat) (data : Bytes) (keys : Pair MultiPoint.Key)
      (rest : Tape),
      (MultiPoint.generate setup.prg indices n points d data).runOn tape = (.ok keys, rest) →
      ∃ shares layout,
        (MultiPoint.Shares.draw setup.prg indices n points d data).runOn tape
          = (.ok shares, rest) ∧
        shares.WrittenTo none n points d layout keys) ∧
    (∀ (indices : List UInt64) (n points d : Nat) (data : Bytes) (keys : Pair MultiPoint.Key)
      (rest : Tape),
      (MultiPoint.Verified.generate setup indices n points d data).runOn tape = (.ok keys, rest) →
      ∃ shares layout,
        (MultiPoint.Shares.draw setup.prg indices n points d data).runOn tape
          = (.ok shares, rest) ∧
        shares.WrittenTo (some (shares.proofCorrections setup.hashes indices)) n points d layout
          keys) := by
  refine ⟨?_, ?_, ?_, ?_⟩
  · intro index n d data keys rest h
    let correction : Point.Shares → Option Tag := fun _ => none
    exact ⟨_, _, Point.Shares.runOn_draw correction h, Point.Shares.writtenTo correction h⟩
  · intro index n d data keys rest h
    let correction : Point.Shares → Option Tag := fun shares =>
      some (shares.proofCorrection setup.hashes index)
    exact ⟨_, _, Point.Shares.runOn_draw correction h, Point.Shares.writtenTo correction h⟩
  · intro indices n points d data keys rest h
    let corrections : MultiPoint.Shares → Option (List Tag) := fun _ => none
    exact ⟨_, _, MultiPoint.Shares.runOn_draw corrections h,
      MultiPoint.Shares.writtenTo corrections MultiPoint.Shares.noProofs h⟩
  · intro indices n points d data keys rest h
    let corrections : MultiPoint.Shares → Option (List Tag) := fun shares =>
      some (shares.proofCorrections setup.hashes indices)
    obtain ⟨⟨-, hspecial, -, -⟩, -, -, -⟩ :=
      (MultiPoint.Shares.runOn_draw_toKeys_eq_ok_iff corrections).mp h
    exact ⟨_, _, MultiPoint.Shares.runOn_draw corrections h, MultiPoint.Shares.writtenTo corrections
      (MultiPoint.Shares.length_of_mem_some_proofCorrections setup hspecial d data tape) h⟩

/-- With two bits, and with one and two special points. -/
theorem shares_of_generate_two_bits :
    let setup : Setup := ⟨.ofBlock 0, ⟨1, 2⟩⟩
    (∃ keys rest layout, ∃ shares : Point.Shares,
      (Point.generate setup.prg 1 2 3 [7, 8, 9]).runOn (.ofBytes []) = (.ok keys, rest) ∧
      shares.WrittenTo none 2 3 layout keys ∧ keys.a.bytes.length = 57) ∧
    (∃ keys rest layout, ∃ shares : Point.Shares,
      (Point.Verified.generate setup 1 2 3 [7, 8, 9]).runOn (.ofBytes []) = (.ok keys, rest) ∧
      shares.WrittenTo (some (shares.proofCorrection setup.hashes 1)) 2 3 layout keys ∧
      keys.b.bytes.length = 121) ∧
    (∃ keys rest layout, ∃ shares : MultiPoint.Shares,
      (MultiPoint.generate setup.prg [1, 2] 2 2 1 [7, 9]).runOn (.ofBytes []) = (.ok keys, rest) ∧
      shares.WrittenTo none 2 2 1 layout keys ∧ keys.a.bytes.length = 117) ∧
    ∃ keys rest layout, ∃ shares : MultiPoint.Shares,
      (MultiPoint.Verified.generate setup [1, 2] 2 2 1 [7, 9]).runOn (.ofBytes [])
        = (.ok keys, rest) ∧
      shares.WrittenTo (some (shares.proofCorrections setup.hashes [1, 2])) 2 2 1 layout keys ∧
      keys.b.bytes.length = 245 := by
  intro setup
  have hspecial : MultiPoint.SpecialIndices [1, 2] 2 2 :=
    ⟨by simp [domainSize], by decide, rfl, by decide, by decide⟩
  obtain ⟨hpoint, hpointProved, hpoints, hpointsProved⟩ := shares_of_generate setup (.ofBytes [])
  refine ⟨?_, ?_, ?_, ?_⟩
  · have hrun : (Point.generate setup.prg 1 2 3 [7, 8, 9]).runOn (.ofBytes []) = (.ok _, _) :=
      (Point.Shares.runOn_draw_toKeys_eq_ok_iff fun _ => none).mpr
        ⟨⟨by decide, rfl, by decide⟩, by decide, rfl, rfl⟩
    obtain ⟨shares, layout, -, hwritten⟩ := hpoint 1 2 3 [7, 8, 9] _ _ hrun
    have hlayout : Layout.pointTable 2 3 false = layout := Except.ok.inj hwritten.table
    refine ⟨_, _, layout, shares, hrun, hwritten, (hwritten.length .a).trans ?_⟩
    rw [← hlayout]
    rfl
  · have hd : ([7, 8, 9] : Bytes).length = 3 := rfl
    have hindex : (1 : UInt64).toNat < domainSize 2 := by decide
    obtain ⟨keys, rest, hrun⟩ := Point.Verified.exists_generate setup (.ofBytes []) (by decide) hd
      hindex (by decide)
    obtain ⟨shares, layout, -, hwritten⟩ := hpointProved 1 2 3 [7, 8, 9] _ _ hrun
    have hlayout : Layout.pointTable 2 3 true = layout := Except.ok.inj hwritten.table
    refine ⟨_, _, layout, shares, hrun, hwritten, (hwritten.length .b).trans ?_⟩
    rw [← hlayout]
    rfl
  · have hrun := (MultiPoint.runOn_generate setup.prg (.ofBytes []) (by decide) hspecial
      (show ([7, 9] : Bytes).length = 2 * 1 from rfl) (by decide)).2
    obtain ⟨shares, layout, -, hwritten⟩ := hpoints [1, 2] 2 2 1 [7, 9] _ _ hrun
    have hlayout : Layout.multiPointTable 2 2 1 false = layout := Except.ok.inj hwritten.table
    refine ⟨_, _, layout, shares, hrun, hwritten, (hwritten.length .a).trans ?_⟩
    rw [← hlayout]
    rfl
  · obtain ⟨keys, rest, hrun⟩ := MultiPoint.Verified.exists_generate setup (.ofBytes [])
      (by decide) hspecial (by decide) (show ([7, 9] : Bytes).length = 2 * 1 from rfl) (by decide)
    obtain ⟨shares, layout, -, hwritten⟩ := hpointsProved [1, 2] 2 2 1 [7, 9] _ _ hrun
    have hlayout : Layout.multiPointTable 2 2 1 true = layout := Except.ok.inj hwritten.table
    refine ⟨_, _, layout, shares, hrun, hwritten, (hwritten.length .b).trans ?_⟩
    rw [← hlayout]
    rfl

end PointSharing
