import CS330.ObjStore.Contents
import CS330.ObjStore.Lemmas.Intact

/-!
This module contains when the blocks of the two tables are left alone between a mount and the next
unmount: always without the cache, and with it as long as no call needs a block. The first block that is
needed evicts an empty cache slot, and an empty slot is written back to block 0.
-/

namespace ObjStore

open View

variable {env : Env} {w w' w₀ : World}

theorem allocBlock_not_reserved (hres : ∀ (b : BlockNo), Reserved b → w.blkBmp.bit b.toNat = true)
    : ¬ Reserved (allocBlock w).1 := by
  intro hb
  cases allocBlock_cases w with
  | inl h =>
    obtain ⟨b, log, -, -, hclear, -, heq, -⟩ := h
    rw [heq] at hb
    rw [hres b hb] at hclear
    cases hclear
  | inr h =>
    obtain ⟨log, -, heq, -⟩ := h
    rw [heq] at hb
    have hlast : ¬ (-1 : BlockNo).toNat < resBlocks := by decide
    exact hlast hb

theorem updateBlock_intact (hc : env.cached = false) {buf : Mem} {size : Nat} {p : BlockNo} {x : Xfer}
    {res : Int × BlockNo × Xfer × World}
    (hres : ∀ (b : BlockNo), Reserved b → w.blkBmp.bit b.toNat = true) (hp : p ≠ 0#32 → ¬ Reserved p)
    (h : updateBlock env buf size p x w = .ok res)
    : w.Intact res.2.2.2 := by
  obtain ⟨r, q, x', w'⟩ := res
  rcases updateBlock_cases h with ⟨-, -, rfl⟩ | ⟨w₁, hplace, htransfers⟩
  . exact .refl w'
  . -- the block that is written to, and the world after it was allocated
    have hblock : ¬ Reserved (if p = 0#32 then allocBlock w else (p, w)).1
        ∧ w.Intact (if p = 0#32 then allocBlock w else (p, w)).2 := by
      split
      . exact ⟨allocBlock_not_reserved hres, allocBlock_intact w⟩
      . next hne => exact ⟨hp hne, .refl w⟩
    rw [hplace] at hblock
    obtain ⟨hq, hw₁⟩ := hblock
    cases htransfers with
    | null hread =>
      simp only
      rw [readChBlkNull_eq hc hread]
      exact hw₁.trans (.emit w₁ _ (by simp))
    | unread temp hread =>
      have h₁ := readChBlk_intact hc q temp w₁
      rw [hread] at h₁
      exact hw₁.trans h₁
    | written new hwrite =>
      have h₁ := writeChBlk_intact hc q hq new w₁
      rw [hwrite] at h₁
      exact hw₁.trans h₁
    | updated temp new w₂ hread hwrite =>
      have h₁ := readChBlk_intact hc q temp w₁
      rw [hread] at h₁
      have h₂ := writeChBlk_intact hc q hq new w₂
      rw [hwrite] at h₂
      exact hw₁.trans (h₁.trans h₂)

namespace Job

variable {job : Job} {v₀ v : View} {t : Nat} {x x' : Xfer}

-- as long as free blocks remain, the bitmap knows the reserved blocks
theorem Inv.reserved (h : job.Inv v₀ t x w v) (hv : v.blkBmp = w.blkBmp) (hfree : ¬ w.Exhausted)
    (b : BlockNo) (hb : Reserved b)
    : w.blkBmp.bit b.toNat = true := by
  have := (h.progress hfree).own.reserved_used b hb
  unfold Used at this
  rwa [hv] at this

theorem intact_direct (hr : env.Reliable) (hc : env.cached = false) (i : Fin 4)
    (h : job.Inv v₀ i x w (w.view env)) (hw : w.Exhausted ∨ w₀.Intact w)
    (heq : objstoreWrite.direct env job.o job.buf job.size job.start i (x, w) = .ok (.next (x', w')))
    : w'.Exhausted ∨ w₀.Intact w' := by
  unfold objstoreWrite.direct at heq
  by_cases hbefore : x.blocksDone < job.start
  . simp only [hbefore, ↓reduceIte] at heq
    cases heq
    exact hw
  . simp only [hbefore, ↓reduceIte] at heq
    by_cases hrem : 0 < x.remaining
    . obtain ⟨temp, htemp⟩ := h.temp
      obtain ⟨q, c, w₁, hupdate, -, -, hmono, -⟩ :=
        updateBlock_spec hr h.tagged job.buf job.size ((w.objects job.o).direct i) x hrem temp htemp
          (h.fit hrem)
      rw [hupdate] at heq
      cases heq
      by_cases hfull : w.Exhausted
      . exact Or.inl (hmono hfull)
      . right
        have hprog := h.progress hfull
        have hstep := updateBlock_intact hc (h.reserved rfl hfull)
          (hprog.own.ptr_not_reserved (.direct job.o i)) hupdate
        exact ((hw.resolve_left hfull).trans hstep).trans (.setObj w₁ job.o _)
    . rw [updateBlock_zero _ _ _ _ (by omega)] at heq
      cases heq
      exact hw.imp id (fun hw => hw.trans (.setObj w job.o _))

theorem intact_entry (hr : env.Reliable) (hc : env.cached = false) (i : Fin 4) (j : Fin 1024)
    (bb bb' : Block) (ind : BlockNo) (hind : ind ≠ 0#32) (hobj : (w.objects job.o).indirect i = ind)
    (h : job.Inv v₀ (4 + 1024 * i + j) x w ((w.view env).setData ind bb))
    (hw : w.Exhausted ∨ w₀.Intact w)
    (heq : objstoreWrite.entry env job.buf job.size job.start j (x, w, bb) = .ok (.next (x', w', bb')))
    : w'.Exhausted ∨ w₀.Intact w' := by
  unfold objstoreWrite.entry at heq
  by_cases hbefore : x.blocksDone < job.start
  . simp only [hbefore, ↓reduceIte] at heq
    cases heq
    exact hw
  . simp only [hbefore, ↓reduceIte] at heq
    by_cases hrem : 0 < x.remaining
    . obtain ⟨temp, htemp⟩ := h.temp
      obtain ⟨q, c, w₁, hupdate, -, -, hmono, -⟩ :=
        updateBlock_spec hr h.tagged job.buf job.size (ptrAt bb j) x hrem temp htemp (h.fit hrem)
      rw [hupdate] at heq
      cases heq
      by_cases hfull : w.Exhausted
      . exact Or.inl (hmono hfull)
      . right
        have hprog := h.progress hfull
        have hptr : ((w.view env).setData ind bb).ptr (.entry job.o i j) = ptrAt bb j := by
          subst hobj
          simp [ptr, setData, World.view, hind]
        have hsafe := hprog.own.ptr_not_reserved (.entry job.o i j)
        rw [hptr] at hsafe
        exact (hw.resolve_left hfull).trans (updateBlock_intact hc (h.reserved rfl hfull) hsafe hupdate)
    . rw [updateBlock_zero _ _ _ _ (by omega)] at heq
      cases heq
      exact hw

theorem intact_entries (hr : env.Reliable) (hc : env.cached = false) (i : Fin 4) (bb bb' : Block)
    (ind : BlockNo) (hind : ind ≠ 0#32) (hobj : (w.objects job.o).indirect i = ind)
    (h : job.Inv v₀ (4 + 1024 * i) x w ((w.view env).setData ind bb)) (hw : w.Exhausted ∨ w₀.Intact w)
    (heq : Loop.run (objstoreWrite.entry env job.buf job.size job.start) (Loop.range 1024) (x, w, bb)
      = .ok (.next (x', w', bb')))
    : w'.Exhausted ∨ w₀.Intact w' := by
  let P (k : Nat) (s : Xfer × World × Block) : Prop :=
    (s.2.1.objects job.o).indirect i = ind
      ∧ job.Inv v₀ (4 + 1024 * i + k) s.1 s.2.1 ((s.2.1.view env).setData ind s.2.2)
      ∧ (s.2.1.Exhausted ∨ w₀.Intact s.2.1)
  let Q (r : Except Fault (Loop.Flow Int (Xfer × World × Block))) : Prop :=
    ∀ (x' : Xfer) (w' : World) (bb' : Block), r = .ok (.next (x', w', bb')) → w'.Exhausted ∨ w₀.Intact w'
  have hrun : Q (Loop.run (objstoreWrite.entry env job.buf job.size job.start)
      (Loop.range 1024) (x, w, bb)) := by
    apply Loop.run_inv (P := P)
    . rintro j ⟨x, w, bb⟩ ⟨hobj, h, hw⟩
      obtain ⟨x', w', bb', heq, hobj', h'⟩ := inv_entry hr i j bb ind hind hobj h
      have hw' := intact_entry hr hc i j bb bb' ind hind hobj h hw heq
      rw [heq]
      exact ⟨hobj', h', hw'⟩
    . rintro ⟨x, w, bb⟩ ⟨-, -, hw⟩ x' w' bb' heq
      cases heq
      exact hw
    . exact ⟨hobj, h, hw⟩
  exact hrun x' w' bb' heq

theorem pointerBlock_intact (hc : env.cached = false) (o : Slot) (i : Fin 4) (buf : Block) (w : World)
    : w.Intact (objstoreWrite.pointerBlock env o i buf w).2.2 := by
  unfold objstoreWrite.pointerBlock
  split
  . exact (allocBlock_intact w).trans (.setObj _ o _)
  . exact readChBlk_intact hc _ buf w

theorem intact_indirect (hr : env.Reliable) (hc : env.cached = false) (i : Fin 4)
    (h : job.Inv v₀ (4 + 1024 * i) x w (w.view env)) (hw : w.Exhausted ∨ w₀.Intact w)
    (heq : objstoreWrite.indirect env job.o job.buf job.size job.start i (x, w) = .ok (.next (x', w')))
    : w'.Exhausted ∨ w₀.Intact w' := by
  unfold objstoreWrite.indirect at heq
  by_cases hrem : 0 < x.remaining
  . simp only [hrem, ↓reduceIte, cmalloc_eq hr] at heq
    have hmalloc : w.Intact (w.emit (.cmalloc true)) := .emit w _ (by simp)
    obtain ⟨w₁, bb, ind, hptr, hind, hobj, h₁⟩ := inv_pointerBlock hr i (Buf.zero blockSize) hrem h.malloc
    have hstep₁ := hmalloc.trans (pointerBlock_intact hc job.o i (Buf.zero blockSize) _)
    rw [hptr] at hstep₁
    have hw₁ : w₁.Exhausted ∨ w₀.Intact w₁ := hw.imp hstep₁.exhausted (fun hw => hw.trans hstep₁)
    obtain ⟨x₂, w₂, bb₂, hrun, hobj₂, h₂⟩ := inv_entries hr i bb ind hind hobj h₁
    have hw₂ := intact_entries hr hc i bb bb₂ ind hind hobj h₁ hw₁ hrun
    obtain ⟨w₃, hwrite, -, hkeeps⟩ := writeChBlk_spec hr h₂.tagged ind hind bb₂
    simp only [hptr, hrun, bind, Except.bind, hobj₂, hwrite] at heq
    cases heq
    by_cases hfull : w₂.Exhausted
    . exact Or.inl (hkeeps.exhausted.mpr hfull)
    . right
      have hprog := h₂.progress hfull
      have hp : ((w₂.view env).setData ind bb₂).ptr (.indirect job.o i) = ind := hobj₂
      have hsafe := hprog.own.ptr_not_reserved (.indirect job.o i) (by rw [hp]; exact hind)
      rw [hp] at hsafe
      have hstep₃ := writeChBlk_intact hc ind hsafe bb₂ w₂
      rw [hwrite] at hstep₃
      exact (hw₂.resolve_left hfull).trans hstep₃
  . simp only [hrem, ↓reduceIte] at heq
    cases heq
    exact hw

theorem intact_directs (hr : env.Reliable) (hc : env.cached = false)
    (h : job.Inv v₀ 0 x w (w.view env)) (hw : w.Exhausted ∨ w₀.Intact w)
    (heq : Loop.run (objstoreWrite.direct env job.o job.buf job.size job.start) (Loop.range 4) (x, w)
      = .ok (.next (x', w')))
    : w'.Exhausted ∨ w₀.Intact w' := by
  let P (k : Nat) (s : Xfer × World) : Prop :=
    job.Inv v₀ k s.1 s.2 (s.2.view env) ∧ (s.2.Exhausted ∨ w₀.Intact s.2)
  let Q (r : Except Fault (Loop.Flow Int (Xfer × World))) : Prop :=
    ∀ (x' : Xfer) (w' : World), r = .ok (.next (x', w')) → w'.Exhausted ∨ w₀.Intact w'
  have hrun : Q (Loop.run (objstoreWrite.direct env job.o job.buf job.size job.start)
      (Loop.range 4) (x, w)) := by
    apply Loop.run_inv (P := P)
    . rintro i ⟨x, w⟩ ⟨h, hw⟩
      obtain ⟨x', w', heq, h'⟩ := inv_direct hr i h
      have hw' := intact_direct hr hc i h hw heq
      rw [heq]
      exact ⟨h', hw'⟩
    . rintro ⟨x, w⟩ ⟨-, hw⟩ x' w' heq
      cases heq
      exact hw
    . exact ⟨h, hw⟩
  exact hrun x' w' heq

theorem intact_indirects (hr : env.Reliable) (hc : env.cached = false)
    (h : job.Inv v₀ 4 x w (w.view env)) (hw : w.Exhausted ∨ w₀.Intact w)
    (heq : Loop.run (objstoreWrite.indirect env job.o job.buf job.size job.start) (Loop.range 4) (x, w)
      = .ok (.next (x', w')))
    : w'.Exhausted ∨ w₀.Intact w' := by
  let P (k : Nat) (s : Xfer × World) : Prop :=
    job.Inv v₀ (4 + 1024 * k) s.1 s.2 (s.2.view env) ∧ (s.2.Exhausted ∨ w₀.Intact s.2)
  let Q (r : Except Fault (Loop.Flow Int (Xfer × World))) : Prop :=
    ∀ (x' : Xfer) (w' : World), r = .ok (.next (x', w')) → w'.Exhausted ∨ w₀.Intact w'
  have hrun : Q (Loop.run (objstoreWrite.indirect env job.o job.buf job.size job.start)
      (Loop.range 4) (x, w)) := by
    apply Loop.run_inv (P := P)
    . rintro i ⟨x, w⟩ ⟨h, hw⟩
      obtain ⟨x', w', heq, h'⟩ := inv_indirect hr i h
      have hw' := intact_indirect hr hc i h hw heq
      rw [heq]
      exact ⟨h', hw'⟩
    . rintro ⟨x, w⟩ ⟨-, hw⟩ x' w' heq
      cases heq
      exact hw
    . exact ⟨h, hw⟩
  exact hrun x' w' heq

end Job

theorem objstoreWrite_intact (hr : env.Reliable) (hc : env.cached = false) (hok : w.Ok env) (o : Slot)
    (buf : Mem) (size offset : Nat) (hsize : size ≤ maxSize) (hfit : InBlock size offset) {r : Int}
    (h : objstoreWrite env o.id buf size offset w = .ok (r, w')) (hfree : ¬ w'.Exhausted)
    : w.Intact w' := by
  let job := Job.ofWrite o buf size offset hfit
  obtain ⟨u, v, hloop₁, hends⟩ := objstoreWrite_loops hsize h
  simp only [cmalloc_eq hr] at hloop₁
  have hinit := Job.Inv.init hok o buf size offset hfit
  have hw₀ : (w.emit (.cmalloc true)).Exhausted ∨ w.Intact (w.emit (.cmalloc true)) :=
    Or.inr (.emit w _ (by simp))
  obtain ⟨x₁, w₁, hrun₁, h₁⟩ := Job.inv_directs hr hinit
  have hw₁ := Job.intact_directs hr hc hinit hw₀ hrun₁
  obtain ⟨x₂, w₂, hrun₂, h₂⟩ := Job.inv_indirects hr h₁
  have hw₂ := Job.intact_indirects hr hc h₁ hw₁ hrun₂
  have hu : Except.ok (Loop.Flow.next (x₁, w₁)) = .ok (.next u) := hrun₁.symm.trans hloop₁
  cases hu
  rcases hends with ⟨hloop₂, -⟩ | ⟨hloop₂, -, rfl⟩
  . cases hrun₂.symm.trans hloop₂
  . cases hrun₂.symm.trans hloop₂
    have hend : w₂.Intact (markObjDirty o (w₂.setObj o
        { w₂.objects o with size := BitVec.ofNat 64 (offset + size) })) :=
      (World.Intact.setObj w₂ o _).trans (markObjDirty_intact o _)
    cases hw₂ with
    | inl hfull => exact absurd (hend.exhausted hfull) hfree
    | inr hw₂ => exact hw₂.trans hend

/-! Calls that need no block. -/

-- The call reads or writes a block, be it of an object's contents or one with pointers.
def Op.Touches (w : World) : Op → Prop
  | .create _ => False
  | .find _ => False
  | .rename _ _ => False
  | .destroy key => ∃ (o : Slot) (i : Fin 4),
      findObject key w = some o ∧ (w.objects o).size ≠ 0#64 ∧ (w.objects o).indirect i ≠ 0#32
  | .write _ _ size _ => 0 < size ∧ size ≤ maxSize
  | .read objid _ size offset => 0 < size ∧ size ≤ maxSize ∧ ∃ (o : Slot), objid = o.id
      ∧ ((w.objects o).indirect 0 ≠ 0#32
        ∨ ∃ (i : Fin 4), i.val = startBlock offset ∧ (w.objects o).direct i ≠ 0#32)

-- A step of a build without the cache, or one that needs no block.
def QuietStep (env : Env) (w : World) (c : Op × Reply) (w' : World) : Prop :=
  Step env w c w' ∧ (env.cached = true → ¬ c.1.Touches w)

namespace objstoreRead

-- the loop over the direct pointers gets past the blocks before the first one, and no further
theorem directs_quiet (o : Slot) (size start : Nat) (x : Xfer) (buf : Mem) (w : World)
    (hdone : x.blocksDone = 0)
    (hquiet : x.remaining = 0 ∨ ∀ (i : Fin 4), i.val = start → (w.objects o).direct i = 0#32)
    : ∃ (x' : Xfer), Loop.run (direct env o size start) (Loop.range 4) (x, buf, w)
        = .ok (.next (x', buf, w)) ∧ x'.remaining = x.remaining := by
  let P (k : Nat) (s : Xfer × Mem × World) : Prop :=
    ∃ (x' : Xfer), s = (x', buf, w) ∧ x'.remaining = x.remaining
      ∧ (x.remaining = 0 ∨ (x'.blocksDone = k ∧ k ≤ start))
  let Q (r : Except Fault (Loop.Flow Int (Xfer × Mem × World))) : Prop :=
    ∃ (x' : Xfer), r = .ok (.next (x', buf, w)) ∧ x'.remaining = x.remaining
  have hrun : Q (Loop.run (direct env o size start) (Loop.range 4) (x, buf, w)) := by
    apply Loop.run_inv (P := P)
    . rintro i s ⟨x', rfl, hrem, hpos⟩
      simp only [direct]
      by_cases hbefore : x'.blocksDone < start
      . rw [if_pos hbefore]
        refine ⟨_, rfl, hrem, ?_⟩
        cases hpos with
        | inl hzero => exact Or.inl hzero
        | inr hpos =>
          refine Or.inr ⟨?_, ?_⟩
          . simp only
            omega
          . omega
      . rw [if_neg hbefore]
        by_cases hnull : (w.objects o).direct i = 0#32
        . simp only [hnull, ne_eq, not_true_eq_false, ↓reduceIte]
          exact ⟨x', rfl, hrem⟩
        . -- there is a block, so that nothing is left to read
          have hzero : x.remaining = 0 := by
            cases hpos with
            | inl hzero => exact hzero
            | inr hpos =>
              cases hquiet with
              | inl hzero => exact hzero
              | inr hquiet => exact absurd (hquiet i (by omega)) hnull
          simp only [ne_eq, hnull, not_false_eq_true, ↓reduceIte,
            getBlockData_zero size _ x' (hrem.trans hzero), bind, Except.bind]
          exact ⟨x', rfl, hrem, Or.inl hzero⟩
    . rintro s ⟨x', rfl, hrem, -⟩
      exact ⟨x', rfl, hrem⟩
    . exact ⟨x, rfl, rfl, Or.inr ⟨hdone, by omega⟩⟩
  exact hrun

theorem indirects_quiet (o : Slot) (size start : Nat) (x : Xfer) (buf : Mem) (w : World)
    (hquiet : x.remaining = 0 ∨ (w.objects o).indirect 0 = 0#32)
    : Loop.run (indirect env o size start) (Loop.range 4) (x, buf, w) = .ok (.next (x, buf, w)) := by
  rw [show Loop.range 4 = 0 :: (Loop.range 4).drop 1 from rfl, Loop.run_cons]
  have hnot : ¬ ((w.objects o).indirect 0 ≠ 0#32 ∧ 0 < x.remaining) := by
    rintro ⟨hne, hpos⟩
    cases hquiet with
    | inl hzero => omega
    | inr hnull => exact hne hnull
  simp only [indirect, hnot, ↓reduceIte]
  rfl

end objstoreRead

theorem objstoreRead_quiet (hr : env.Reliable) {objid : Int} {buf buf' : Mem} {size offset : Nat} {r : Int}
    (hquiet : ¬ (Op.read objid buf size offset).Touches w)
    (h : objstoreRead env objid buf size offset w = .ok (r, buf', w'))
    : w.Intact w' := by
  have hlock := World.Intact.lock w .rd
  rcases objstoreRead_slot h with ⟨-, rfl, -⟩ | ⟨o, rfl, hsize⟩
  . exact hlock.trans (.unlock _ .rd)
  . obtain ⟨u, v, hrun₁, hends⟩ := objstoreRead_loops hsize h
    simp only [cmalloc_eq hr] at hrun₁
    have hdirect : size = 0 ∨ ∀ (i : Fin 4), i.val = startBlock offset → (w.objects o).direct i = 0#32 := by
      by_cases hzero : size = 0
      . exact .inl hzero
      . right
        intro i hi
        apply Classical.byContradiction
        intro hne
        exact hquiet ⟨by omega, hsize, o, rfl, .inr ⟨i, hi, hne⟩⟩
    obtain ⟨x, hquiet₁, hrem⟩ := @objstoreRead.directs_quiet env o size (startBlock offset)
      (Xfer.start size offset (some (Buf.zero blockSize))) buf ((w.lock .rd).emit (.cmalloc true)) rfl hdirect
    rw [hquiet₁] at hrun₁
    cases hrun₁
    have hindirect : x.remaining = 0 ∨ (w.objects o).indirect 0 = 0#32 := by
      rw [hrem]
      by_cases hzero : size = 0
      . exact .inl hzero
      . right
        apply Classical.byContradiction
        intro hne
        exact hquiet ⟨by omega, hsize, o, rfl, .inl hne⟩
    have hquiet₂ := @objstoreRead.indirects_quiet env o size (startBlock offset) x buf
      ((w.lock .rd).emit (.cmalloc true)) hindirect
    rw [hquiet₂] at hends
    rcases hends with ⟨hrun₂, -⟩ | ⟨hrun₂, -, rfl⟩
    . cases hrun₂
    . cases hrun₂
      exact (hlock.trans (.emit _ _ (by simp))).trans (.unlock _ .rd)

theorem QuietStep.intact (hr : env.Reliable) (hok : w.Ok env) {op : Op} {r : Reply}
    (h : QuietStep env w (op, r) w')
    : w.Intact w' := by
  obtain ⟨⟨haccepts, hexec, hfree⟩, hquiet⟩ := h
  simp only at haccepts hexec hquiet
  have hbuild : env.cached = false ∨ ¬ op.Touches w := by
    by_cases hc : env.cached = true
    . exact Or.inr (hquiet hc)
    . exact Or.inl (by simpa using hc)
  cases op with
  | create key => exact createObject_intact (Op.create_of_exec hexec)
  | find key =>
    cases hexec
    exact .refl w
  | rename key newname =>
    cases hexec
    exact renameObject_intact key newname w
  | destroy key =>
    apply destroyObject_intact (Op.destroy_of_exec hexec)
    apply hbuild.imp_right
    intro hno o hfind hsize i
    apply Classical.byContradiction
    intro hne
    exact hno ⟨o, i, hfind, hsize, hne⟩
  | write objid buf size offset =>
    obtain ⟨⟨o, rfl, -⟩, hpos, hfit, -⟩ := haccepts
    have hwrite := Op.write_of_exec hexec
    by_cases hsize : size ≤ maxSize
    . have hc : env.cached = false := by
        apply hbuild.resolve_right
        intro hno
        exact hno ⟨by omega, hsize⟩
      exact objstoreWrite_intact hr hc hok o buf size offset hsize hfit hwrite hfree
    . rw [objstoreWrite_tooBig o buf size offset (by omega)] at hwrite
      rw [← (Prod.mk.inj (Except.ok.inj hwrite)).2]
      exact .refl w
  | read objid buf size offset =>
    obtain ⟨buf', -, hread⟩ := Op.read_of_exec hexec
    cases hbuild with
    | inl hc => exact objstoreRead_intact hc hread
    | inr hno => exact objstoreRead_quiet hr hno hread

end ObjStore
