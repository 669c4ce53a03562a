/-
Tags are added blockwise and read back from their bytes.
-/
import PointSharing.Proofs.Xor
import PointSharing.Verification.Tag

namespace PointSharing.Tag

theorem blocks_xor (s t : Tag) :
    (s ^^^ t).blocks = Vector.zipWith (· ^^^ ·) s.blocks t.blocks := rfl

theorem ext_blocks {s t : Tag} (h : ∀ i, (hi : i < tagBlocks) → s.blocks[i] = t.blocks[i]) :
    s = t := by
  obtain ⟨s⟩ := s
  obtain ⟨t⟩ := t
  exact congrArg Tag.mk (Vector.ext h)

instance : LawfulXor Tag where
  comm s t := by
    refine ext_blocks fun i hi => ?_
    simp only [blocks_xor, Vector.getElem_zipWith]
    exact LawfulXor.comm _ _
  assoc s t u := by
    refine ext_blocks fun i hi => ?_
    simp only [blocks_xor, Vector.getElem_zipWith]
    exact LawfulXor.assoc _ _ _
  cancel s t := by
    refine ext_blocks fun i hi => ?_
    simp only [blocks_xor, Vector.getElem_zipWith]
    exact LawfulXor.cancel _ _

theorem xor_self (tag : Tag) : tag ^^^ tag = zero := by
  refine ext_blocks fun i hi => ?_
  simp [blocks_xor, zero]

@[simp] theorem ofBytes_nil : ofBytes [] = zero := by
  refine ext_blocks fun i hi => ?_
  simp [ofBytes, zero, blockSize]

@[simp] theorem ofBytes_toBytes (tag : Tag) : ofBytes tag.toBytes = tag := by
  refine ext_blocks fun i hi => ?_
  have hlen : tag.toList.length = tagBlocks := by simp [toList]
  have hdrop : tag.toBytes.drop (blockSize * i)
      = tag.blocks[i].toBytes ++ Block.listToBytes (tag.toList.drop (i + 1)) := by
    rw [toBytes, Block.listToBytes, blockSize,
      Bytes.drop_flatMap _ fun block _ => Block.length_toBytes block,
      List.drop_eq_getElem_cons (by omega), List.flatMap_cons]
    simp [toList, Block.listToBytes]
  simp only [ofBytes, Vector.getElem_ofFn, hdrop]
  rw [if_pos (by simp [blockSize]), Block.ofBytes_toBytes_append]

end PointSharing.Tag
