import CS330.ObjStore.Impl.Callers
import CS330.ObjStore.Lemmas.Object
import CS330.ObjStore.Lemmas.Rules

/-!
This module contains what the block layer and the release of pointers leave alone, whether block I/O works
or not.
-/

namespace ObjStore

-- sizes and keys are the same in both worlds
def World.SameNames (w w' : World) : Prop :=
  ∀ (o : Slot), (w'.objects o).size = (w.objects o).size ∧ (w'.objects o).key = (w.objects o).key

variable {env : Env} {w w' w'' : World}

namespace World.SameNames

theorem of_objects (h : w'.objects = w.objects) : w.SameNames w' := by
  intro o
  rw [h]
  exact ⟨rfl, rfl⟩

theorem trans (h : w.SameNames w') (h' : w'.SameNames w'') : w.SameNames w'' := by
  intro o
  exact ⟨(h' o).1.trans (h o).1, (h' o).2.trans (h o).2⟩

theorem setObj (h : w.SameNames w') (o : Slot) (obj : Obj) (hsize : obj.size = (w'.objects o).size)
    (hkey : obj.key = (w'.objects o).key)
    : w.SameNames (w'.setObj o obj) := by
  apply h.trans
  intro o'
  by_cases ho : o' = o
  . subst ho
    simp only [World.setObj, Function.update_self]
    exact ⟨hsize, hkey⟩
  . simp only [World.setObj, Function.update_of_ne ho]
    exact ⟨trivial, trivial⟩

theorem name_eq (h : w.SameNames w') (o : Slot) : (w'.objects o).name = (w.objects o).name := by
  unfold Obj.name
  rw [(h o).2]

end World.SameNames

theorem cmalloc_objects (env : Env) (w : World) : (cmalloc env w).2.objects = w.objects := by
  unfold cmalloc
  split
  . rfl
  . rfl

section

-- What does not depend on the blocks, the cache and the log is the same after a block access.
variable {α : Type} (f : World → α)
variable (hf : ∀ (u : World) (cacheInfo : Fin cacheLen → BlockNo) (cache : Fin cacheLen → Block)
  (disk : BlockNo → Block) (log : List Event),
  f { u with cacheInfo := cacheInfo, cache := cache, disk := disk, log := log } = f u)

include hf

theorem readBlock_frame (env : Env) (b : BlockNo) (w : World) : f (readBlock env b w).2.2 = f w := by
  unfold readBlock
  split
  . exact hf w _ _ _ _
  . exact hf w _ _ _ _

theorem flushChBlk_frame (env : Env) (i : Fin cacheLen) (w : World) : f (flushChBlk env i w).2 = f w := by
  unfold flushChBlk writeBlock
  by_cases hfail : env.fails w.log.length = true
  . simp only [hfail, ↓reduceIte]
    exact hf w _ _ _ _
  . simp only [hfail, Bool.false_eq_true, ↓reduceIte]
    exact hf w _ _ _ _

theorem readChBlk_frame (env : Env) (b : BlockNo) (buf : Block) (w : World)
    : f (readChBlk env b buf w).2.2 = f w := by
  unfold readChBlk
  split
  . have hlock : f (w.lock .ch) = f w := hf w _ _ _ _
    by_cases hmiss : (w.lock .ch).cacheInfo (cacheIndex b) ≠ b
    . rw [if_pos hmiss]
      have hflush := flushChBlk_frame f hf env (cacheIndex b) (w.lock .ch)
      generalize flushChBlk env (cacheIndex b) (w.lock .ch) = res at hflush ⊢
      obtain ⟨ok, u⟩ := res
      cases ok with
      | false => exact (hf u _ _ _ _).trans (hflush.trans hlock)
      | true =>
        simp only at hflush ⊢
        have htag : f { u with cacheInfo := Function.update u.cacheInfo (cacheIndex b) b } = f u := hf u _ _ _ _
        have hread := readBlock_frame f hf env b
          { u with cacheInfo := Function.update u.cacheInfo (cacheIndex b) b }
        generalize readBlock env b _ = res at hread ⊢
        obtain ⟨ok, line, u'⟩ := res
        have hbefore : f u' = f w := hread.trans (htag.trans (hflush.trans hlock))
        cases ok with
        | false => exact (hf u' _ _ _ _).trans hbefore
        | true => exact (hf u' _ _ _ _).trans hbefore
    . rw [if_neg hmiss]
      exact hf w _ _ _ _
  . exact readBlock_frame f hf env b w

end

theorem flushChBlk_objects (env : Env) (i : Fin cacheLen) (w : World)
    : (flushChBlk env i w).2.objects = w.objects :=
  flushChBlk_frame World.objects (fun _ _ _ _ _ => rfl) env i w

theorem readChBlk_objects (env : Env) (b : BlockNo) (buf : Block) (w : World)
    : (readChBlk env b buf w).2.2.objects = w.objects :=
  readChBlk_frame World.objects (fun _ _ _ _ _ => rfl) env b buf w

theorem readChBlk_blkBmp (env : Env) (b : BlockNo) (buf : Block) (w : World)
    : (readChBlk env b buf w).2.2.blkBmp = w.blkBmp :=
  readChBlk_frame World.blkBmp (fun _ _ _ _ _ => rfl) env b buf w

theorem writeChBlk_objects (env : Env) (b : BlockNo) (buf : Block) (w : World)
    : (writeChBlk env b buf w).2.objects = w.objects := by
  unfold writeChBlk
  split
  . by_cases hmiss : (w.lock .ch).cacheInfo (cacheIndex b) ≠ b
    . rw [if_pos hmiss]
      have hflush := flushChBlk_objects env (cacheIndex b) (w.lock .ch)
      generalize flushChBlk env (cacheIndex b) (w.lock .ch) = res at hflush ⊢
      obtain ⟨ok, u⟩ := res
      cases ok with
      | false => exact hflush
      | true => exact hflush
    . rw [if_neg hmiss]
      rfl
  . unfold writeBlock
    split
    . rfl
    . rfl

theorem allocBlock_objects (w : World) : (allocBlock w).2.objects = w.objects := by
  cases allocBlock_cases w with
  | inl h =>
    obtain ⟨b, log, -, -, -, -, heq, -⟩ := h
    rw [heq]
  | inr h =>
    obtain ⟨log, -, heq, -⟩ := h
    rw [heq]

theorem freeBlock_objects {b : BlockNo} (h : freeBlock b w = .ok w') : w'.objects = w.objects := by
  unfold freeBlock at h
  split at h
  . cases h
    rfl
  . cases h

theorem freePointerBlock_objects {b : BlockNo} {r : Int} (h : freePointerBlock env b w = .ok (r, w'))
    : w'.objects = w.objects := by
  refine freePointerBlock_inv (I := fun u => u.objects = w.objects) ?_ ?_ ?_ h rfl
  . intro u hu
    rw [cmalloc_objects, hu]
  . intro u buf hu
    rw [readChBlk_objects, hu]
  . intro u u' b' hu hfree
    rw [freeBlock_objects hfree, hu]

namespace destroyObject

theorem direct_sameNames (o : Slot) (i : Fin 4) (hw : w.SameNames w')
    : Loop.Leaves (fun u => w.SameNames u) (direct o i w') := by
  unfold direct
  split
  . cases hfree : freeBlock ((w'.objects o).direct i) w' with
    | error e => trivial
    | ok u =>
      have hu : w.SameNames u := hw.trans (.of_objects (freeBlock_objects hfree))
      exact hu.setObj o _ rfl rfl
  . exact hw

theorem indirect_sameNames (o : Slot) (i : Fin 4) (hw : w.SameNames w')
    : Loop.Leaves (fun u => w.SameNames u) (indirect env o i w') := by
  unfold indirect
  split
  . cases hfree : freePointerBlock env ((w'.objects o).indirect i) w' with
    | error e => trivial
    | ok res =>
      obtain ⟨r, u⟩ := res
      have hu : w.SameNames u := hw.trans (.of_objects (freePointerBlock_objects hfree))
      simp only [bind, Except.bind]
      split
      . exact hu
      . exact hu.setObj o _ rfl rfl
  . exact hw

theorem release_sameNames (env : Env) (o : Slot) (w : World)
    : Loop.Leaves (fun u => w.SameNames u) (release env o w) := by
  have hdirect : Loop.Ends (fun u => w.SameNames u) (Loop.run (direct o) (Loop.range 4) w) := by
    apply Loop.run_ends _ _ w (.of_objects rfl)
    intro i u hu
    exact direct_sameNames o i hu
  have hindirect : ∀ (u : World), w.SameNames u
      → Loop.Leaves (fun u => w.SameNames u) (Loop.run (indirect env o) (Loop.range 4) u) := by
    intro u hu
    apply Loop.Ends.leaves
    apply Loop.run_ends _ _ u hu
    intro i v hv
    exact indirect_sameNames o i hv
  unfold release
  generalize Loop.run (direct o) (Loop.range 4) w = flow at hdirect
  cases flow with
  | error e => trivial
  | ok flow =>
    cases flow with
    | next u => exact hindirect u hdirect
    | stop u => exact hdirect.elim
    | ret r u => exact hdirect

end destroyObject

theorem readChBlk_sameNames (b : BlockNo) (buf : Block) (h : w.SameNames w')
    : w.SameNames (readChBlk env b buf w').2.2 :=
  h.trans (.of_objects (readChBlk_objects env b buf w'))

theorem readChBlkNull_sameNames {w'' : World} {b : BlockNo} (h : readChBlkNull env b w' = .ok w'')
    (hw : w.SameNames w')
    : w.SameNames w'' := by
  rcases readChBlkNull_cases h with ⟨-, buf, hread⟩ | ⟨-, rfl⟩
  . have hsame : w.SameNames (readChBlk env b (Buf.zero blockSize) w').2.2 := readChBlk_sameNames b _ hw
    rw [hread] at hsame
    exact hsame
  . exact hw

theorem cmalloc_sameNames (h : w.SameNames w') : w.SameNames (cmalloc env w').2 :=
  h.trans (.of_objects (cmalloc_objects env w'))

theorem objstoreRead_sameNames {objid : Int} {buf buf' : Mem} {size offset : Nat} {r : Int}
    (h : objstoreRead env objid buf size offset w = .ok (r, buf', w'))
    : w.SameNames w' := by
  apply objstoreRead_inv (I := w.SameNames) _ _ _ _ _ h (.of_objects rfl)
  . intro u hu
    exact hu
  . intro u hu
    exact hu
  . intro u hu
    exact cmalloc_sameNames hu
  . intro u b buf hu
    exact readChBlk_sameNames b buf hu
  . intro u u' b hread hu
    exact readChBlkNull_sameNames hread hu

theorem objstoreWrite_sameNames {o : Slot} {buf : Mem} {size offset : Nat} {r : Int}
    (h : objstoreWrite env o.id buf size offset w = .ok (r, w'))
    : (r = -1 ∧ w.SameNames w') ∨ ∃ (u : World), w.SameNames u ∧ r = size ∧ size ≤ maxSize
        ∧ w' = markObjDirty o (u.setObj o { u.objects o with size := BitVec.ofNat 64 (offset + size) }) := by
  apply objstoreWrite_inv (I := w.SameNames) _ _ _ _ _ _ h (.of_objects rfl)
  . intro u hu
    exact cmalloc_sameNames hu
  . intro u b buf hu
    exact readChBlk_sameNames b buf hu
  . intro u u' b hread hu
    exact readChBlkNull_sameNames hread hu
  . intro u b buf hu
    exact hu.trans (.of_objects (writeChBlk_objects env b buf u))
  . intro u hu
    exact hu.trans (.of_objects (allocBlock_objects u))
  . intro u direct indirect hu
    exact hu.setObj o _ rfl rfl

end ObjStore
