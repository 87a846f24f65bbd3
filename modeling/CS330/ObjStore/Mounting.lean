import CS330.ObjStore.Lemmas.Fields
import CS330.ObjStore.Lemmas.Objfs
import CS330.ObjStore.Ownership

/-!
This module contains what a mount with nothing done in it leaves on the disk. `objfs.c` goes on when a block
could not be read, and the unmount then stores what there is in memory.
-/

namespace ObjStore

open View

variable {env env' : Env} {w w' : World}

-- Some block of the bitmap was not read, or there was no page to read it to.
def World.Unread (w : World) : Prop :=
  Event.cmalloc false ∈ w.log ∨ ∃ (i : Fin blkBmpBlocks), Event.readBlock (bmpBlockNo i) false ∈ w.log

/-- What a mount makes of the disk of `w`, whichever of its blocks can be read. -/
structure World.MountedPartly (w w' : World) : Prop where
  disk_eq : w'.disk = w.disk
  objBmp_eq : w'.objBmp = Bitmap.zero objBmpLn
  lost : w'.Unread → w'.blkBmp = Bitmap.zero blkBmpLn
  kept : ¬ w'.Unread → w'.blkBmp = diskBmp w.disk

namespace objstoreInit

theorem readBlock_cases (env : Env) (b : BlockNo) (w : World)
    : (∃ (buf : Block), readBlock env b w = (false, buf, w.emit (.readBlock b false)))
      ∨ readBlock env b w = (true, w.disk b, w.emit (.readBlock b true)) := by
  unfold readBlock
  split
  . exact .inl ⟨_, rfl⟩
  . exact .inr rfl

theorem bitmap_partly (env : Env) (bufs : Fin blkBmpBlocks → Block) (w : World) (hw : ¬ w.Unread)
    : (∃ (bufs' : Fin blkBmpBlocks → Block) (log : List Event),
        Loop.run (bitmap env) (Loop.range blkBmpBlocks) (bufs, w) = .ok (.ret (-1) (bufs', { w with log := log }))
        ∧ World.Unread { w with log := log })
      ∨ ∃ (log : List Event), Loop.run (bitmap env) (Loop.range blkBmpBlocks) (bufs, w)
          = .ok (.next (fun i => w.disk (bmpBlockNo i), { w with log := log }))
        ∧ ¬ World.Unread { w with log := log } := by
  let P (k : Nat) (s : (Fin blkBmpBlocks → Block) × World) : Prop :=
    (∀ (i : Fin blkBmpBlocks), i.val < k → s.1 i = w.disk (bmpBlockNo i))
      ∧ ∃ (log : List Event), s.2 = { w with log := log } ∧ ¬ World.Unread { w with log := log }
  let Q (res : Except Fault (Loop.Flow Int ((Fin blkBmpBlocks → Block) × World))) : Prop :=
    (∃ (bufs' : Fin blkBmpBlocks → Block) (log : List Event), res = .ok (.ret (-1) (bufs', { w with log := log }))
        ∧ World.Unread { w with log := log })
      ∨ ∃ (log : List Event), res = .ok (.next (fun i => w.disk (bmpBlockNo i), { w with log := log }))
        ∧ ¬ World.Unread { w with log := log }
  have hrun : Q (Loop.run (bitmap env) (Loop.range blkBmpBlocks) (bufs, w)) := by
    apply Loop.run_inv (P := P)
    . rintro i ⟨bufs, u⟩ ⟨hbufs, log, rfl, hlog⟩
      simp only [bitmap]
      rcases readBlock_cases env (bmpBlockNo i) { w with log := log } with ⟨buf, heq⟩ | heq
      . rw [heq]
        exact .inl ⟨_, _, rfl, .inr ⟨i, List.mem_cons_self⟩⟩
      . rw [heq]
        refine ⟨?_, .readBlock (bmpBlockNo i) true :: log, rfl, ?_⟩
        . intro k hk
          by_cases hki : k = i
          . subst hki
            simp
          . have : k.val ≠ i.val := fun h => hki (Fin.ext h)
            simp only [Function.update_of_ne hki]
            exact hbufs k (by omega)
        . simpa [World.Unread] using hlog
    . rintro ⟨bufs, u⟩ ⟨hbufs, log, rfl, hlog⟩
      right
      refine ⟨log, ?_, hlog⟩
      rw [show bufs = fun i => w.disk (bmpBlockNo i) from funext fun i => hbufs i i.isLt]
    . refine ⟨?_, w.log, rfl, hw⟩
      intro i hi
      omega
  exact hrun

theorem objBlockNo_ne_bmpBlockNo (i : Fin objBlocks) (k : Fin blkBmpBlocks) : objBlockNo i ≠ bmpBlockNo k := by
  intro heq
  have hnat := congrArg BitVec.toNat heq
  rw [toNat_objBlockNo, toNat_bmpBlockNo] at hnat
  have := k.isLt
  omega

-- Whichever inodes are read, nothing but the object array and the events change.
theorem objects_partly (env : Env) (w : World) (hw : ¬ w.Unread)
    : Loop.Ends (fun u => ∃ (objects : Slot → Obj) (log : List Event), u = { w with objects := objects, log := log }
        ∧ ¬ World.Unread { w with objects := objects, log := log })
      (Loop.run (objects env) (Loop.range objBlocks) w) := by
  apply Loop.run_ends
  . rintro i u ⟨objects, log, rfl, hlog⟩
    have hread : ∀ (ok : Bool) (objects' : Slot → Obj),
        ¬ World.Unread { w with objects := objects', log := .readBlock (objBlockNo i) ok :: log } := by
      rintro ok objects' (hpage | ⟨k, hk⟩)
      . exact hlog (.inl (by simpa using hpage))
      . refine hlog (.inr ⟨k, ?_⟩)
        simpa [objBlockNo_ne_bmpBlockNo i k, Ne.symm (objBlockNo_ne_bmpBlockNo i k)] using hk
    simp only [objstoreInit.objects]
    rcases readBlock_cases env (objBlockNo i) { w with objects := objects, log := log } with ⟨buf, heq⟩ | heq
    . rw [heq]
      exact ⟨_, _, rfl, hread _ _⟩
    . rw [heq]
      exact ⟨_, _, rfl, hread _ _⟩
  . exact ⟨w.objects, w.log, rfl, hw⟩

end objstoreInit

theorem objstoreInit_partly {r : Int} (hw : ¬ w.Unread) (h : objstoreInit env w = .ok (r, w'))
    : w.MountedPartly w' := by
  unfold objstoreInit at h
  unfold cmalloc at h
  by_cases hpage : env.fails w.log.length = true
  . rw [if_pos hpage] at h
    cases h
  . rw [if_neg hpage] at h
    simp only at h
    split at h
    . next w₁ heq =>
      split at heq
      . cases h
        cases heq
        exact ⟨rfl, rfl, fun _ => rfl, fun hread => absurd (.inl List.mem_cons_self) hread⟩
      . cases heq
    . next zero w₁ heq =>
      split at heq
      . cases heq
      . cases heq
        have hw₁ : ∀ (objects : Slot → Obj) (cacheInfo : Fin cacheLen → BlockNo),
            ¬ World.Unread { w with
              objects := objects
              objBmp := Bitmap.zero objBmpLn
              blkBmp := Bitmap.zero blkBmpLn
              cacheInfo := cacheInfo
              log := .cmalloc true :: .cmalloc true :: w.log } := by
          intro objects cacheInfo hunread
          exact hw (by simpa [World.Unread] using hunread)
        rcases objstoreInit.bitmap_partly env (fun _ => Buf.zero blockSize) _
          (hw₁ (fun _ => Obj.zero) (fun _ => 0#32)) with
          ⟨bufs, log, hrun, hlog⟩ | ⟨log, hrun, hlog⟩
        . simp only [World.emit, hrun, bind, Except.bind] at h
          cases h
          exact ⟨rfl, rfl, fun _ => rfl, fun hread => absurd hlog hread⟩
        . simp only [World.emit, hrun, bind, Except.bind] at h
          have hends := objstoreInit.objects_partly env { w with
            objects := fun _ => Obj.zero
            objBmp := Bitmap.zero objBmpLn
            blkBmp := markReserved (decodeBmp fun i => w.disk (bmpBlockNo i))
            cacheInfo := fun _ => 0#32
            log := log } hlog
          split at h
          . cases h
          . next flow heq =>
            rw [heq] at hends
            split at h
            . cases h
              obtain ⟨objects, log', rfl, hlog'⟩ := hends
              exact ⟨rfl, rfl, fun hlost => absurd hlost hlog', fun _ => rfl⟩
            . obtain ⟨objects, log', rfl, hlog'⟩ := hends
              split at h
              . cases h
                exact ⟨rfl, rfl, fun hlost => absurd hlost hlog', fun _ => rfl⟩
              . cases h
                exact ⟨rfl, rfl, fun hlost => absurd hlost hlog', fun _ => rfl⟩
            . exact hends.elim

-- With no object marked, only the bitmap is stored.
theorem objstoreDestroy_unmarked (hr : env.Reliable) (hclean : w.objBmp = Bitmap.zero objBmpLn)
    : ∃ (w' : World), objstoreDestroy env w = .ok (0, w')
        ∧ (∀ (i : Fin blkBmpBlocks), w'.disk (bmpBlockNo i) = encodeBmp w.blkBmp i)
        ∧ ∀ (b : BlockNo), blkBmpBlocks ≤ b.toNat → w'.disk b = w.disk b := by
  obtain ⟨w₀, hrun₀, hsame₀, hdisk₀⟩ := objstoreDestroy.flushAll_spec hr w
  obtain ⟨w₁, hrun₁, hsame₁, hbmp₁, hdisk₁⟩ := objstoreDestroy.bitmap_spec hr (w₀.emit (.cmalloc true))
  have hobjBmp : w₁.objBmp = Bitmap.zero objBmpLn :=
    hsame₁.objBmp_eq.trans (hsame₀.objBmp_eq.trans hclean)
  have hrun₂ : Loop.run (objstoreDestroy.objects env) (Loop.range objBlocks) (encodeBmp w₁.blkBmp 0, w₁)
      = .ok (.next (encodeBmp w₁.blkBmp 0, w₁)) := by
    apply Loop.run_idle
    intro i
    have hdirty : objstoreDestroy.dirty w₁ i = false := by
      rw [dirty_eq_false_iff]
      intro o _
      rw [hobjBmp, Bitmap.bit_zero]
    simp only [objstoreDestroy.objects, hdirty, Bool.false_eq_true, ↓reduceIte]
    rfl
  refine ⟨w₁, ?_, ?_, ?_⟩
  . unfold objstoreDestroy
    simp only [hrun₀, bind, Except.bind, cmalloc_eq hr, hrun₁, hrun₂]
    rfl
  . intro i
    rw [hbmp₁ i]
    exact congrArg (fun m => encodeBmp m i) hsame₀.blkBmp_eq
  . intro b hb
    have hne : b ≠ 0#32 := by
      rintro rfl
      simp at hb
    rw [hdisk₁ b hb]
    exact hdisk₀ b hne

-- The first block of the bitmap cannot be read.
def blind : Env where
  cached := false
  fails := fun n => n = 2
  junk := fun _ => Buf.zero blockSize

def fullDisk : BlockNo → Block :=
  fun _ _ => 255#8

theorem objfsInit_blind : ∃ (w : World), objfsInit blind (World.ofDisk fullDisk) = .ok w ∧ w.Unread :=
  ⟨_, rfl, .inr ⟨0, List.mem_cons_self⟩⟩

end ObjStore
