import CS330.ObjStore.Impl.Mount
import CS330.ObjStore.Lemmas.Codec

/-!
This module contains that the block bitmap and the object array survive the way to their disk blocks
and back.
-/

namespace ObjStore

theorem toNat_bmpBlockNo (i : Fin blkBmpBlocks) : (bmpBlockNo i).toNat = i := by
  have hi := i.isLt
  simp only [blkBmpBlocks] at hi
  simp only [bmpBlockNo, BitVec.toNat_ofNat]
  omega

theorem toNat_objBlockNo (i : Fin objBlocks) : (objBlockNo i).toNat = i + blkBmpBlocks := by
  have hi := i.isLt
  simp only [objBlocks] at hi
  simp only [objBlockNo, BitVec.toNat_ofNat, blkBmpBlocks]
  omega

def objBlock (o : Slot) : Fin objBlocks :=
  ⟨o / objPerBlock, by
    have := o.isLt
    simp only [maxObjs] at this
    simp only [objBlocks, objPerBlock]
    omega⟩

def diskObj (disk : BlockNo → Block) (o : Slot) : Obj :=
  Obj.ofBytes (fun k => (disk (objBlockNo (objBlock o))).get (Obj.sizeof * (o % objPerBlock) + k))

def diskBmp (disk : BlockNo → Block) : Bitmap blkBmpLn :=
  markReserved (decodeBmp (fun i => disk (bmpBlockNo i)))

theorem decodeBmp_encodeBmp (m : Bitmap blkBmpLn) : decodeBmp (encodeBmp m) = m := by
  funext k
  have hk := k.isLt
  simp only [blkBmpLn] at hk
  unfold decodeBmp Buf.word
  rw [LE.word_congr _ (LE.byte (m k))]
  . exact LE.word_byte _ _ rfl
  . intro t ht
    have hlt : 8 * (k.val % 512) + t < blockSize := by
      simp only [blockSize]
      omega
    have h1 : 512 * (k.val / 512) + (8 * (k.val % 512) + t) / 8 = k := by omega
    have h2 : (8 * (k.val % 512) + t) % 8 = t := by omega
    rw [Buf.get_lt _ _ hlt]
    simp only [encodeBmp, bmpBlock, h1, h2]

theorem getLsbD_lowMask (j : Fin 64) : ((1#64 <<< 32) - 1).getLsbD j = decide (j.val < 32) := by
  revert j
  decide

theorem bit_markReserved (m : Bitmap blkBmpLn) (n : Nat)
    : (markReserved m).bit n = (decide (n < resBlocks) || m.bit n) := by
  unfold Bitmap.bit
  by_cases h : n / 64 < blkBmpLn
  . simp only [h, ↓reduceDIte, markReserved]
    simp only [resBlocks, blkBmpBlocks, objBlocks]
    have hj : n % 64 < 64 := by omega
    by_cases h1 : n / 64 * 64 < 256 + 20000
    . rw [if_pos h1]
      by_cases h2 : (n / 64 + 1) * 64 < 256 + 20000
      . rw [if_pos h2]
        have : n < 256 + 20000 := by omega
        rw [BitVec.getLsbD_allOnes]
        simp [this, hj]
      . -- the word that is reserved in part
        rw [if_neg h2]
        have hsub : 256 + 20000 - n / 64 * 64 = 32 := by omega
        have hiff : n % 64 < 32 ↔ n < 256 + 20000 := by omega
        have hmask := getLsbD_lowMask ⟨n % 64, hj⟩
        simp only at hmask
        rw [hsub, BitVec.getLsbD_or, hmask, Bool.or_comm]
        simp only [hiff]
    . rw [if_neg h1]
      have : ¬ n < 256 + 20000 := by omega
      simp [this]
  . have hn : ¬ n < resBlocks := by
      simp only [blkBmpLn] at h
      simp only [resBlocks, blkBmpBlocks, objBlocks]
      omega
    simp [h, hn]

theorem markReserved_eq (m : Bitmap blkBmpLn) (h : ∀ (n : Nat), n < resBlocks → m.bit n = true)
    : markReserved m = m := by
  apply Bitmap.ext_bit
  intro n
  rw [bit_markReserved]
  by_cases hn : n < resBlocks
  . simp [hn, h n hn]
  . simp [hn]

theorem diskObj_encodeObjs (disk : BlockNo → Block) (o : Slot) (objects : Slot → Obj) (buf : Block)
    (h : disk (objBlockNo (objBlock o)) = encodeObjs (objBlock o) objects buf)
    : diskObj disk o = objects o := by
  unfold diskObj
  rw [h]
  apply Obj.ofBytes_eq
  intro k hk
  simp only [Obj.sizeof] at hk
  have hlt : Obj.sizeof * (o.val % objPerBlock) + k < blockSize := by
    simp only [Obj.sizeof, objPerBlock, blockSize]
    omega
  have h1 : (Obj.sizeof * (o.val % objPerBlock) + k) / Obj.sizeof = o.val % objPerBlock := by
    simp only [Obj.sizeof]
    omega
  have h2 : (Obj.sizeof * (o.val % objPerBlock) + k) % Obj.sizeof = k := by
    simp only [Obj.sizeof]
    omega
  have h3 : o.val % objPerBlock < objPerBlock := Nat.mod_lt _ (by decide)
  rw [Buf.get_lt _ _ hlt]
  unfold encodeObjs
  simp only [h1, h2, h3, ↓reduceDIte]
  congr 2
  apply Fin.ext
  exact Nat.div_add_mod o.val objPerBlock

theorem dirty_eq_false (w : World) (i : Fin objBlocks)
    (h : objstoreDestroy.dirty w i = false) (o : Slot) (ho : objBlock o = i)
    : w.objBmp.bit o = false := by
  subst ho
  unfold objstoreDestroy.dirty at h
  rw [List.any_eq_false] at h
  have hlt : o.val % objPerBlock < objPerBlock := Nat.mod_lt _ (by decide)
  have hself : objInBlock (objBlock o) ⟨o % objPerBlock, hlt⟩ = o := by
    apply Fin.ext
    exact Nat.div_add_mod o.val objPerBlock
  have hbit := h ⟨o % objPerBlock, hlt⟩ (Loop.mem_range _)
  simp only [hself, decide_eq_true_eq, Decidable.not_not, Bitmap.and_one_eq_zero] at hbit
  have hword := Bitmap.bit_word w.objBmp (dirtyWord o) (o % 64) (by omega)
  have hidx : 64 * (dirtyWord o).val + o.val % 64 = o := by
    simp only [dirtyWord]
    omega
  rw [hidx] at hword
  rw [hword]
  exact hbit

end ObjStore
