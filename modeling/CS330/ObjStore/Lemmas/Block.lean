import CS330.ObjStore.View

/-!
This module contains the correctness of the block layer: with or without the cache, reading a block
returns what the view holds for it and writing a block changes the view there and nowhere else.
-/

namespace ObjStore

@[simp]
theorem World.view_emit (env : Env) (w : World) (e : Event) : (w.emit e).view env = w.view env := rfl

@[simp]
theorem World.view_lock (env : Env) (w : World) (m : Mutex) : (w.lock m).view env = w.view env := rfl

@[simp]
theorem World.view_unlock (env : Env) (w : World) (m : Mutex)
    : (w.unlock m).view env = w.view env := rfl

@[simp]
theorem World.view_setObj (env : Env) (w : World) (o : Slot) (obj : Obj)
    : (w.setObj o obj).view env = (w.view env).setObj o obj := rfl

theorem World.view_data (env : Env) (w : World) (b : BlockNo) (hb : b ≠ 0#32)
    : (w.view env).data b = w.look env b := by
  simp [World.view, hb]

/--
What an operation of the block layer leaves alone: the cache stays well tagged, free of table blocks
where `b` is none, and no allocation fails.
-/
structure World.Keeps (b : BlockNo) (w w' : World) : Prop where
  tagged : w'.Tagged
  noTable : resBlocks ≤ b.toNat → w.NoTable → w'.NoTable
  exhausted : w'.Exhausted ↔ w.Exhausted

def World.Logged (w : World) (log : List Event) : Prop :=
  Event.noSpace ∈ log ↔ Event.noSpace ∈ w.log

variable {env : Env} {w : World}

theorem World.Logged.cons {log : List Event} (h : w.Logged log) (e : Event) (he : e ≠ .noSpace)
    : w.Logged (e :: log) := by
  unfold World.Logged at h ⊢
  rw [← h]
  simp [he.symm]

theorem World.NoTable.set (h : w.NoTable) (i : Fin cacheLen) (b : BlockNo)
    (hb : b ≠ 0#32 → resBlocks ≤ b.toNat)
    : ∀ (j : Fin cacheLen), Function.update w.cacheInfo i b j ≠ 0#32
        → resBlocks ≤ (Function.update w.cacheInfo i b j).toNat := by
  intro j hj
  by_cases heq : j = i
  . subst heq
    simp only [Function.update_self] at hj ⊢
    exact hb hj
  . simp only [Function.update_of_ne heq] at hj ⊢
    exact h j hj

theorem readBlock_eq (hr : env.Reliable) (b : BlockNo)
    : readBlock env b w = (true, w.disk b, w.emit (.readBlock b true)) := by
  simp [readBlock, hr w.log.length]

theorem writeBlock_eq (hr : env.Reliable) (b : BlockNo) (buf : Block)
    : writeBlock env b buf w
        =
      (true, { w with disk := Function.update w.disk b buf }.emit (.writeBlock b true)) := by
  simp [writeBlock, hr w.log.length]

theorem cmalloc_eq (hr : env.Reliable)
    : cmalloc env w = (some (Buf.zero blockSize), w.emit (.cmalloc true)) := by
  simp [cmalloc, hr w.log.length]

theorem flushChBlk_eq (hr : env.Reliable) (i : Fin cacheLen)
    : flushChBlk env i w
        =
      (true, { w with
        disk := Function.update w.disk (w.cacheInfo i) (w.cache i)
        cacheInfo := Function.update w.cacheInfo i 0#32
        log := .writeBlock (w.cacheInfo i) true :: w.log }) := by
  simp [flushChBlk, writeBlock_eq hr, World.emit]

theorem World.view_eq {w' : World} (h1 : w'.objects = w.objects) (h2 : w'.objBmp = w.objBmp)
    (h3 : w'.blkBmp = w.blkBmp) (h4 : ∀ (k : BlockNo), k ≠ 0#32 → w'.look env k = w.look env k)
    : w'.view env = w.view env := by
  apply View.ext h1 h2 h3
  funext k
  by_cases hk : k = 0#32
  . simp [World.view, hk]
  . rw [World.view_data _ _ _ hk, World.view_data _ _ _ hk]
    exact h4 k hk

theorem World.view_setData {w' : World} (b : BlockNo) (hb : b ≠ 0#32) (buf : Block)
    (h1 : w'.objects = w.objects) (h2 : w'.objBmp = w.objBmp) (h3 : w'.blkBmp = w.blkBmp)
    (h4 : ∀ (k : BlockNo), k ≠ 0#32 → w'.look env k = if k = b then buf else w.look env k)
    : w'.view env = (w.view env).setData b buf := by
  apply View.ext h1 h2 h3
  funext k
  simp only [View.setData, Function.update_apply]
  by_cases hk : k = 0#32
  . subst hk
    simp [World.view, hb.symm]
  . rw [World.view_data _ _ _ hk, World.view_data _ _ _ hk]
    exact h4 k hk

theorem World.look_cached (hc : env.cached = true)
    : w.look env = DirectMapped.look cacheIndex w.cacheInfo w.cache w.disk := by
  funext b
  simp [World.look, hc]

def World.evictFor (w : World) (b : BlockNo) : World :=
  let i := cacheIndex b
  { w with
    disk := Function.update w.disk (w.cacheInfo i) (w.cache i)
    cacheInfo := Function.update w.cacheInfo i 0#32
    log := .writeBlock (w.cacheInfo i) true :: .lock .ch :: w.log }

theorem World.look_evictFor (hc : env.cached = true) (htag : w.Tagged) (b k : BlockNo)
    (hk : k ≠ 0#32)
    : (w.evictFor b).look env k = w.look env k := by
  rw [World.look_cached hc, World.look_cached hc]
  exact DirectMapped.look_evict htag (cacheIndex b) k hk

-- The tags after the slot of `b` was flushed and taken for `b`.
theorem World.Keeps.evictFor {w' : World} {b : BlockNo} (htag : w.Tagged)
    (hinfo : w'.cacheInfo = Function.update (w.evictFor b).cacheInfo (cacheIndex b) b)
    (hlog : Event.noSpace ∈ w'.log ↔ Event.noSpace ∈ w.log)
    : w.Keeps b w' where
  tagged := by
    unfold World.Tagged
    rw [hinfo]
    apply DirectMapped.Tagged.set
    . apply DirectMapped.Tagged.set htag
      intro h
      exact absurd rfl h
    . intro _
      rfl
  noTable := by
    intro hb h i hi
    rw [hinfo] at hi ⊢
    simp only [World.evictFor, Function.update_idem] at hi ⊢
    exact World.NoTable.set h (cacheIndex b) b (fun _ => hb) i hi
  exhausted := hlog

theorem readChBlk_spec (hr : env.Reliable) (htag : w.Tagged) (b : BlockNo) (hb : b ≠ 0#32)
    (buf : Block)
    : ∃ (w' : World),
        readChBlk env b buf w = (true, (w.view env).data b, w')
          ∧ w'.view env = w.view env ∧ w.Keeps b w' := by
  rw [World.view_data _ _ _ hb]
  unfold readChBlk
  by_cases hc : env.cached = true
  . simp only [hc, ↓reduceIte]
    by_cases hhit : w.cacheInfo (cacheIndex b) = b
    . refine ⟨(w.lock .ch).unlock .ch, ?_, rfl, htag, fun _ h => h, ?_⟩
      . simp [World.lock, World.emit, World.unlock, hhit, World.look, hc, DirectMapped.look]
      . simp [World.Exhausted, World.lock, World.emit, World.unlock]
    . -- the old line is written back, then the block is loaded into the empty slot
      have hmiss : w.look env b = (w.evictFor b).disk b := by
        rw [← World.look_evictFor hc htag b b hb, World.look_cached hc]
        simp [DirectMapped.look, World.evictFor, hb.symm]
      rw [hmiss]
      simp only [World.lock, World.emit, flushChBlk_eq hr, readBlock_eq hr, ne_eq, hhit,
        not_false_eq_true, ↓reduceIte]
      refine ⟨_, rfl, ?_, ?_⟩
      . refine World.view_eq rfl rfl rfl ?_
        intro k hk
        rw [← World.look_evictFor hc htag b k hk, World.look_cached hc, World.look_cached hc]
        have hempty : (w.evictFor b).cacheInfo (cacheIndex b) = 0#32 := by simp [World.evictFor]
        exact DirectMapped.look_fill b hempty k hk
      . apply World.Keeps.evictFor htag rfl
        simp [World.unlock, World.emit]
  . simp only [hc, Bool.false_eq_true, ↓reduceIte, readBlock_eq hr, World.look]
    refine ⟨_, rfl, rfl, htag, fun _ h => h, ?_⟩
    simp [World.Exhausted, World.emit]

theorem writeChBlk_spec (hr : env.Reliable) (htag : w.Tagged) (b : BlockNo) (hb : b ≠ 0#32)
    (buf : Block)
    : ∃ (w' : World),
        writeChBlk env b buf w = (true, w')
          ∧ w'.view env = (w.view env).setData b buf ∧ w.Keeps b w' := by
  unfold writeChBlk
  by_cases hc : env.cached = true
  . simp only [hc, ↓reduceIte]
    by_cases hhit : w.cacheInfo (cacheIndex b) = b
    . simp only [World.lock, World.emit, hhit, ne_eq, not_true_eq_false, ↓reduceIte]
      refine ⟨_, rfl, ?_, htag, fun _ h => h, ?_⟩
      . refine World.view_setData b hb buf rfl rfl rfl ?_
        intro k _
        rw [World.look_cached hc, World.look_cached hc]
        exact DirectMapped.look_store_hit b buf hhit k
      . simp [World.Exhausted, World.unlock, World.emit]
    . simp only [World.lock, World.emit, flushChBlk_eq hr, ne_eq, hhit, not_false_eq_true,
        ↓reduceIte]
      refine ⟨_, rfl, ?_, ?_⟩
      . refine World.view_setData b hb buf rfl rfl rfl ?_
        intro k hk
        rw [← World.look_evictFor hc htag b k hk, World.look_cached hc, World.look_cached hc]
        have hempty : (w.evictFor b).cacheInfo (cacheIndex b) = 0#32 := by simp [World.evictFor]
        exact DirectMapped.look_store_empty b buf hempty k hk
      . apply World.Keeps.evictFor htag rfl
        simp [World.unlock, World.emit]
  . simp only [hc, Bool.false_eq_true, ↓reduceIte, writeBlock_eq hr]
    refine ⟨_, rfl, ?_, htag, fun _ h => h, ?_⟩
    . refine World.view_setData b hb buf rfl rfl rfl ?_
      intro k _
      simp [World.look, hc, World.emit, Function.update_apply]
    . simp [World.Exhausted, World.emit]

end ObjStore
