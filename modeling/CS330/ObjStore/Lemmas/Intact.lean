import CS330.ObjStore.Lemmas.Reach
import CS330.ObjStore.Lemmas.Rules

/-!
This module contains which functions write no block of the two tables. Without the cache that is all but
those that are handed such a block; with it, those that need no block at all.
-/

namespace ObjStore

open View

-- No block of the two tables was written between the two worlds.
structure World.Intact (w w' : World) : Prop where
  log : ∃ (es : List Event), w'.log = es ++ w.log
    ∧ ∀ (b : BlockNo) (ok : Bool), Event.writeBlock b ok ∈ es → ¬ Reserved b
  disk : ∀ (b : BlockNo), Reserved b → w'.disk b = w.disk b

variable {env : Env} {w w' w'' : World}

namespace World.Intact

theorem of_eq (hlog : w'.log = w.log) (hdisk : w'.disk = w.disk) : w.Intact w' where
  log := ⟨[], by rw [hlog, List.nil_append], by simp⟩
  disk := by
    intro b _
    rw [hdisk]

theorem refl (w : World) : w.Intact w :=
  of_eq rfl rfl

theorem trans (h : w.Intact w') (h' : w'.Intact w'') : w.Intact w'' where
  log := by
    obtain ⟨es, heq, hes⟩ := h.log
    obtain ⟨es', heq', hes'⟩ := h'.log
    refine ⟨es' ++ es, by rw [heq', heq, List.append_assoc], ?_⟩
    intro b ok hmem
    cases List.mem_append.mp hmem with
    | inl hmem => exact hes' b ok hmem
    | inr hmem => exact hes b ok hmem
  disk := by
    intro b hb
    rw [h'.disk b hb, h.disk b hb]

theorem emit (w : World) (e : Event) (he : ∀ (b : BlockNo) (ok : Bool), e ≠ .writeBlock b ok)
    : w.Intact (w.emit e) where
  log := by
    refine ⟨[e], rfl, ?_⟩
    intro b ok hmem
    exact absurd (List.mem_singleton.mp hmem).symm (he b ok)
  disk := fun _ _ => rfl

theorem lock (w : World) (m : Mutex) : w.Intact (w.lock m) :=
  emit w (.lock m) (by simp)

theorem unlock (w : World) (m : Mutex) : w.Intact (w.unlock m) :=
  emit w (.unlock m) (by simp)

theorem setObj (w : World) (o : Slot) (obj : Obj) : w.Intact (w.setObj o obj) :=
  of_eq rfl rfl

theorem exhausted (h : w.Intact w') (hfull : w.Exhausted) : w'.Exhausted := by
  obtain ⟨es, heq, -⟩ := h.log
  unfold World.Exhausted
  rw [heq]
  exact List.mem_append_right es hfull

end World.Intact

/-! The block layer. -/

theorem cmalloc_intact (env : Env) (w : World) : w.Intact (cmalloc env w).2 := by
  unfold cmalloc
  split
  . exact .emit w _ (by simp)
  . exact .emit w _ (by simp)

theorem readBlock_intact (env : Env) (b : BlockNo) (w : World) : w.Intact (readBlock env b w).2.2 := by
  unfold readBlock
  split
  . exact .emit w _ (by simp)
  . exact .emit w _ (by simp)

theorem writeBlock_intact (env : Env) (b : BlockNo) (hb : ¬ Reserved b) (buf : Block) (w : World)
    : w.Intact (writeBlock env b buf w).2 := by
  have hlog : ∀ (ok : Bool), ∃ (es : List Event), .writeBlock b ok :: w.log = es ++ w.log
      ∧ ∀ (b' : BlockNo) (ok' : Bool), Event.writeBlock b' ok' ∈ es → ¬ Reserved b' := by
    intro ok
    refine ⟨[.writeBlock b ok], rfl, ?_⟩
    intro b' ok' hmem
    cases List.mem_singleton.mp hmem
    exact hb
  unfold writeBlock
  split
  . exact ⟨hlog false, fun _ _ => rfl⟩
  . refine ⟨hlog true, ?_⟩
    intro b' hb'
    have hne : b' ≠ b := by
      rintro rfl
      exact hb hb'
    exact Function.update_of_ne hne _ _

theorem readChBlk_intact (hc : env.cached = false) (b : BlockNo) (buf : Block) (w : World)
    : w.Intact (readChBlk env b buf w).2.2 := by
  simp only [readChBlk, hc, Bool.false_eq_true, ↓reduceIte]
  exact readBlock_intact env b w

theorem writeChBlk_intact (hc : env.cached = false) (b : BlockNo) (hb : ¬ Reserved b) (buf : Block)
    (w : World)
    : w.Intact (writeChBlk env b buf w).2 := by
  simp only [writeChBlk, hc, Bool.false_eq_true, ↓reduceIte]
  exact writeBlock_intact env b hb buf w

/-! The bitmaps. -/

theorem allocBlock.bits_intact (i : Fin blkBmpLn) (n j : Nat) (temp : BitVec 64) (w : World)
    : w.Intact (allocBlock.bits i n j temp w).2 := by
  induction n generalizing j temp w with
  | zero => exact .refl w
  | succ n ih =>
    simp only [allocBlock.bits]
    split
    . have h1 := World.Intact.lock w .blkBmp
      have h2 : (w.lock .blkBmp).Intact
          { (w.lock .blkBmp) with blkBmp := (w.lock .blkBmp).blkBmp.orBit i j } := .of_eq rfl rfl
      exact (h1.trans h2).trans (.unlock _ .blkBmp)
    . exact ((World.Intact.lock w .blkBmp).trans (.unlock _ .blkBmp)).trans (ih _ _ _)

theorem allocBlock.words_intact (is : List (Fin blkBmpLn)) (w : World)
    : w.Intact (allocBlock.words is w).2 := by
  induction is generalizing w with
  | nil => exact .emit w .noSpace (by simp)
  | cons i is ih =>
    have hbits := allocBlock.bits_intact i 64 0 (w.blkBmp i) w
    rw [allocBlock.words]
    split
    . next b w' heq =>
      rw [heq] at hbits
      exact hbits
    . next w' heq =>
      rw [heq] at hbits
      exact hbits.trans (ih w')

theorem allocBlock_intact (w : World) : w.Intact (allocBlock w).2 :=
  allocBlock.words_intact _ w

theorem freeBlock_intact {b : BlockNo} (h : freeBlock b w = .ok w') : w.Intact w' := by
  unfold freeBlock at h
  split at h
  . next hlt =>
    cases h
    have h1 := World.Intact.lock w .blkBmp
    have h2 : (w.lock .blkBmp).Intact
        { (w.lock .blkBmp) with
          blkBmp := (w.lock .blkBmp).blkBmp.andNotBit ⟨b.toNat / 64, hlt⟩ (b.toNat % 64) } := .of_eq rfl rfl
    exact (h1.trans h2).trans (.unlock _ .blkBmp)
  . cases h

theorem markObjDirty_intact (o : Slot) (w : World) : w.Intact (markObjDirty o w) := by
  have h1 := World.Intact.lock w .objBmp
  have h2 : (w.lock .objBmp).Intact
      { (w.lock .objBmp) with objBmp := (w.lock .objBmp).objBmp.orBit (dirtyWord o) (o % 64) } := .of_eq rfl rfl
  exact (h1.trans h2).trans (.unlock _ .objBmp)

/-! The object table. -/

theorem createObject_intact {key : CStr} {r : Int} (h : createObject key w = .ok (r, w')) : w.Intact w' := by
  rcases createObject_ends h with rfl | ⟨o, objects, rfl⟩
  . exact (World.Intact.lock w .objCl).trans (.unlock _ .objCl)
  . have hset : (w.lock .objCl).Intact (({ (w.lock .objCl) with objects := objects } : World).setObj o
        { objects o with size := 1#64 }) := .of_eq rfl rfl
    exact (((World.Intact.lock w .objCl).trans hset).trans (.unlock _ .objCl)).trans (markObjDirty_intact o _)

theorem renameObject_intact (key newname : CStr) (w : World) : w.Intact (renameObject key newname w).2 := by
  rcases renameObject_ends key newname w with heq | ⟨o, heq⟩
  . rw [heq]
    exact (World.Intact.lock w .objCl).trans (.unlock _ .objCl)
  . rw [heq]
    have hset : (w.lock .objCl).Intact ((w.lock .objCl).setObj o
        { w.objects o with key := fun i => newname.mem i }) := .of_eq rfl rfl
    exact (((World.Intact.lock w .objCl).trans hset).trans (.unlock _ .objCl)).trans (markObjDirty_intact o _)

namespace destroyObject

theorem direct_intact (o : Slot) (i : Fin 4) (hw : w.Intact w')
    : Loop.Leaves (fun u => w.Intact u ∧ (u.objects o).indirect = (w'.objects o).indirect)
        (direct o i w') := by
  unfold direct
  split
  . cases hfree : freeBlock ((w'.objects o).direct i) w' with
    | error e => trivial
    | ok u =>
      have hobj : u.objects = w'.objects := by
        unfold freeBlock at hfree
        split at hfree
        . cases hfree
          rfl
        . cases hfree
      refine ⟨(hw.trans (freeBlock_intact hfree)).trans (.of_eq rfl rfl), ?_⟩
      simp only [World.setObj, Function.update_self, hobj]
  . exact ⟨hw, rfl⟩

theorem indirect_intact (o : Slot) (i : Fin 4) (hw : w.Intact w')
    (hquiet : env.cached = false ∨ (w'.objects o).indirect i = 0#32)
    : Loop.Leaves (fun u => w.Intact u ∧ (env.cached = true → u = w')) (indirect env o i w') := by
  unfold indirect
  split
  . next hne =>
    have hc : env.cached = false := hquiet.resolve_right hne
    cases hfree : freePointerBlock env ((w'.objects o).indirect i) w' with
    | error e => trivial
    | ok res =>
      obtain ⟨r, u⟩ := res
      have hu : w.Intact u := by
        refine freePointerBlock_inv (I := fun u => w.Intact u) ?_ ?_ ?_ hfree hw
        . intro u hu
          exact hu.trans (cmalloc_intact env u)
        . intro u buf hu
          exact hu.trans (readChBlk_intact hc _ buf u)
        . intro u u' b hu heq
          exact hu.trans (freeBlock_intact heq)
      simp only [bind, Except.bind]
      split
      . exact ⟨hu, by simp [hc]⟩
      . exact ⟨hu.trans (.of_eq rfl rfl), by simp [hc]⟩
  . exact ⟨hw, fun _ => rfl⟩

end destroyObject

theorem destroyObject_intact {key : CStr} {r : Int} (h : destroyObject env key w = .ok (r, w'))
    (hquiet : env.cached = false ∨ ∀ (o : Slot), findObject key w = some o → (w.objects o).size ≠ 0#64
      → ∀ (i : Fin 4), (w.objects o).indirect i = 0#32)
    : w.Intact w' := by
  rcases destroyObject_finish h with ⟨-, rfl⟩ | ⟨o, hfind, hsize, h⟩
  . exact .refl w'
  . let I (u : World) : Prop := w.Intact u
      ∧ (env.cached = false ∨ ∀ (i : Fin 4), (u.objects o).indirect i = 0#32)
    have hend : ∀ (u : World), I u → w.Intact (markObjDirty o
        (u.setObj o { u.objects o with size := 0#64, key := Buf.zero keySize })) := by
      intro u hu
      exact (hu.1.trans (.setObj u o _)).trans (markObjDirty_intact o _)
    have hcases := destroyObject.finish_inv (I := I) ?_ ?_ h hsize
      ⟨.refl w, hquiet.imp_right (fun hq => hq o hfind hsize)⟩
    . cases hcases with
      | inl hw => exact hw.1
      | inr hdone =>
        obtain ⟨u, hu, -, rfl⟩ := hdone
        exact hend u hu
    . rintro i u ⟨hu, hq⟩
      apply (destroyObject.direct_intact o i hu).imp
      rintro v ⟨hv, heq⟩
      refine ⟨hv, ?_⟩
      rw [heq]
      exact hq
    . rintro i u ⟨hu, hq⟩
      apply (destroyObject.indirect_intact o i hu (hq.imp_right (fun hq => hq i))).imp
      rintro v ⟨hv, heq⟩
      refine ⟨hv, ?_⟩
      by_cases hc : env.cached = true
      . rw [heq hc]
        exact hq
      . exact Or.inl (by simpa using hc)

/-! Reading. -/

theorem objstoreRead_intact {objid : Int} {buf buf' : Mem} {size offset : Nat} {r : Int}
    (hc : env.cached = false) (h : objstoreRead env objid buf size offset w = .ok (r, buf', w'))
    : w.Intact w' := by
  refine objstoreRead_inv (I := fun u => w.Intact u) ?_ ?_ ?_ ?_ ?_ h (.refl w)
  . intro u hu
    exact hu.trans (.lock u .rd)
  . intro u hu
    exact hu.trans (.unlock u .rd)
  . intro u hu
    exact hu.trans (cmalloc_intact env u)
  . intro u b buf hu
    exact hu.trans (readChBlk_intact hc b buf u)
  . intro u u' b hread hu
    rw [readChBlkNull_eq hc hread]
    exact hu.trans (.emit u _ (by simp))

/-! Mounting. -/

namespace objstoreInit

theorem bitmap_intact (i : Fin blkBmpBlocks) (s : (Fin blkBmpBlocks → Block) × World) (hs : w.Intact s.2)
    : Loop.Leaves (fun s => w.Intact s.2) (bitmap env i s) := by
  obtain ⟨bufs, u⟩ := s
  have hread := hs.trans (readBlock_intact env (bmpBlockNo i) u)
  simp only [bitmap]
  generalize readBlock env (bmpBlockNo i) u = res at hread
  obtain ⟨ok, buf, u'⟩ := res
  cases ok with
  | false => exact hread
  | true => exact hread

theorem objects_intact (i : Fin objBlocks) (u : World) (hu : w.Intact u)
    : Loop.Leaves (fun u => w.Intact u) (objects env i u) := by
  have hread := hu.trans (readBlock_intact env (objBlockNo i) u)
  simp only [objects]
  generalize readBlock env (objBlockNo i) u = res at hread
  obtain ⟨ok, buf, u'⟩ := res
  cases ok with
  | false => exact hread
  | true => exact hread.trans (.of_eq rfl rfl)

end objstoreInit

theorem objstoreInit_intact {r : Int} (h : objstoreInit env w = .ok (r, w')) : w.Intact w' := by
  unfold objstoreInit at h
  have hw₁ := cmalloc_intact env w
  generalize cmalloc env w = res at h hw₁
  obtain ⟨page, w₁⟩ := res
  cases page with
  | none => cases h
  | some page =>
    simp only at h hw₁
    have hfresh : w₁.Intact { w₁ with
        objects := fun _ => Obj.zero
        objBmp := Bitmap.zero objBmpLn
        blkBmp := Bitmap.zero blkBmpLn
        cacheInfo := fun _ => 0#32 } := .of_eq rfl rfl
    have hw₂ := (hw₁.trans hfresh).trans (cmalloc_intact env _)
    generalize cmalloc env _ = res at h hw₂
    obtain ⟨page, w₂⟩ := res
    cases page with
    | none =>
      cases h
      exact hw₂
    | some zero =>
      simp only [bind, Except.bind] at h hw₂
      have hloop₁ := Loop.run_ends (@objstoreInit.bitmap_intact env w) (Loop.range blkBmpBlocks)
        ((fun _ => zero), w₂) hw₂
      cases hrun₁ : Loop.run (objstoreInit.bitmap env) (Loop.range blkBmpBlocks) ((fun _ => zero), w₂) with
      | error e =>
        rw [hrun₁] at h
        cases h
      | ok flow =>
        rw [hrun₁] at h hloop₁
        cases flow with
        | ret r' s =>
          cases h
          exact hloop₁
        | stop s => exact hloop₁.elim
        | next s =>
          obtain ⟨bufs, w₃⟩ := s
          have hmark : w₃.Intact { w₃ with blkBmp := markReserved (decodeBmp bufs) } := .of_eq rfl rfl
          have hloop₂ := Loop.run_ends (@objstoreInit.objects_intact env w) (Loop.range objBlocks) _
            (hloop₁.trans hmark)
          cases hrun₂ : Loop.run (objstoreInit.objects env) (Loop.range objBlocks)
            { w₃ with blkBmp := markReserved (decodeBmp bufs) } with
          | error e =>
            simp only [hrun₂] at h
            cases h
          | ok flow =>
            simp only [hrun₂] at h hloop₂
            cases flow with
            | ret r' u =>
              cases h
              exact hloop₂
            | stop u => exact hloop₂.elim
            | next u =>
              simp only at h
              split at h
              . cases h
                exact hloop₂.trans (.of_eq rfl rfl)
              . cases h
                exact hloop₂

end ObjStore
