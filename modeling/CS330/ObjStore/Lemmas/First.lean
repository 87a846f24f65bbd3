import CS330.ObjStore.Lemmas.Write

/-!
This module contains writes that end in the first block of an object. The first of them, in a store with an empty
cache: where it takes its block from, and that block 0 of the disk is the only one it writes.
-/

namespace ObjStore

variable {env : Env} {w : World}

def World.Spare (w : World) : Prop :=
  ∃ (m : Nat), 64 * (resBlocks / 64 - 1) ≤ m ∧ m < 64 * blkBmpLn ∧ w.blkBmp.bit m = false

theorem allocBlock_spare (h : w.Spare)
    : ∃ (b : BlockNo) (log : List Event), b ≠ 0#32
        ∧ allocBlock w = (b, { w with blkBmp := w.blkBmp.set b.toNat, log := log }) ∧ w.Logged log := by
  have hne := allocBlock_ne_zero w
  cases allocBlock_cases w with
  | inl hsome =>
    obtain ⟨b, log, -, -, -, -, heq, hlog⟩ := hsome
    rw [heq] at hne
    exact ⟨b, log, hne, heq, hlog⟩
  | inr hnone =>
    obtain ⟨log, hfull, -⟩ := hnone
    obtain ⟨m, h1, h2, h3⟩ := h
    rw [hfull m h1 h2] at h3
    cases h3

theorem writeChBlk_empty (hr : env.Reliable) (hc : env.cached = true) (b : BlockNo) (hb : b ≠ 0#32)
    (buf : Block) (hempty : ∀ (i : Fin cacheLen), w.cacheInfo i = 0#32)
    : ∃ (w' : World), writeChBlk env b buf w = (true, w') ∧ (w'.Exhausted ↔ w.Exhausted)
        ∧ (∀ (k : BlockNo), k ≠ 0#32 → w'.disk k = w.disk k)
        ∧ Event.writeBlock 0#32 true ∈ w'.log := by
  unfold writeChBlk
  simp only [hc, ↓reduceIte, World.lock, World.emit, flushChBlk_eq hr, hempty, ne_eq, hb.symm,
    not_false_eq_true]
  refine ⟨_, rfl, ?_, ?_, ?_⟩
  . simp [World.Exhausted, World.unlock, World.emit]
  . intro k hk
    exact Function.update_of_ne hk _ _
  . simp [World.unlock, World.emit]

theorem objstoreWrite.direct_idle (o : Slot) (buf : Mem) (size start : Nat) (i : Fin 4) (x : Xfer) (w : World)
    (hx : x.remaining = 0)
    (hdone : start ≤ x.blocksDone)
    : objstoreWrite.direct env o buf size start i (x, w) = .ok (.next (x, w)) := by
  have hnot : ¬ x.blocksDone < start := by omega
  simp only [objstoreWrite.direct, hnot, ↓reduceIte, updateBlock_zero buf size _ x hx, bind, Except.bind,
    Function.update_eq_self, World.setObj]
  rfl

-- A write that is over with the first block: one call of `update_block` that does something.
theorem objstoreWrite_single (hr : env.Reliable) (o : Slot) (buf : Mem) (size offset : Nat) (hsize : size ≤ maxSize)
    (hstart : startBlock offset = 0) {b : BlockNo} {x : Xfer} {w₁ : World}
    (hupdate : updateBlock env buf size ((w.objects o).direct 0)
      (Xfer.start size offset (some (Buf.zero blockSize))) (w.emit (.cmalloc true)) = .ok (0, b, x, w₁))
    (hrem : x.remaining = 0)
    : objstoreWrite env o.id buf size offset w
        =
      .ok (size, { w₁ with
        objects := Function.update w₁.objects o
          { w₁.objects o with
            size := BitVec.ofNat 64 (offset + size)
            direct := Function.update (w₁.objects o).direct 0 b }
        objBmp := w₁.objBmp.set o
        log := .unlock .objBmp :: .lock .objBmp :: w₁.log }) := by
  let w₀ : World := w.emit (.cmalloc true)
  let w₂ : World := w₁.setObj o
    { w₁.objects o with direct := Function.update (w₁.objects o).direct 0 b }
  have hrun₁ : Loop.run (objstoreWrite.direct env o buf size (startBlock offset)) (Loop.range 4)
      (Xfer.start size offset (some (Buf.zero blockSize)), w₀) = .ok (.next (x, w₂)) := by
    let P (k : Nat) (s : Xfer × World) : Prop :=
      s = if k = 0 then (Xfer.start size offset (some (Buf.zero blockSize)), w₀) else (x, w₂)
    let Q (r : Except Fault (Loop.Flow Int (Xfer × World))) : Prop := r = .ok (.next (x, w₂))
    apply Loop.run_inv (P := P) (Q := Q)
    . rintro i s hs
      by_cases hi : i = 0
      . subst hi
        have hs' : s = (Xfer.start size offset (some (Buf.zero blockSize)), w₀) := hs
        have hnot : ¬ (Xfer.start size offset (some (Buf.zero blockSize))).blocksDone < startBlock offset := by
          rw [hstart]
          omega
        have hupdate' : updateBlock env buf size ((w₀.objects o).direct 0)
            (Xfer.start size offset (some (Buf.zero blockSize))) w₀ = .ok (0, b, x, w₁) := hupdate
        rw [hs', objstoreWrite.direct]
        simp only [hnot, ↓reduceIte, hupdate', bind, Except.bind]
        rfl
      . have hi' : i.val ≠ 0 := fun heq => hi (Fin.ext heq)
        have hs' : s = (x, w₂) := by
          simpa only [P, hi', ↓reduceIte] using hs
        rw [hs', objstoreWrite.direct_idle o buf size _ i x w₂ hrem (by omega)]
        rfl
    . rintro s rfl
      rfl
    . rfl
  have hrun₂ : Loop.run (objstoreWrite.indirect env o buf size (startBlock offset)) (Loop.range 4) (x, w₂)
      = .ok (.next (x, w₂)) := by
    let P (_ : Nat) (s : Xfer × World) : Prop := s = (x, w₂)
    let Q (r : Except Fault (Loop.Flow Int (Xfer × World))) : Prop := r = .ok (.next (x, w₂))
    apply Loop.run_inv (P := P) (Q := Q)
    . rintro i s rfl
      simp only [objstoreWrite.indirect, hrem, Nat.lt_irrefl, ↓reduceIte]
      rfl
    . rintro s rfl
      rfl
    . rfl
  unfold objstoreWrite
  rw [if_neg o.id_ge, if_neg (by omega), dif_pos o.id_lt, o.of_id]
  simp only [cmalloc_eq hr]
  simp only [w₀] at hrun₁
  simp only [hrun₁, hrun₂, bind, Except.bind, markObjDirty_eq]
  simp only [w₂, World.setObj, Function.update_self, Function.update_idem]
  rfl

section

variable (hr : env.Reliable) (hc : env.cached = true) (o : Slot) (buf : Mem) (size : Nat)
include hr hc

theorem updateBlock_first (hpos : 0 < size) (hsize : size ≤ 4096) (temp : Block) (hspare : w.Spare)
    (hempty : ∀ (i : Fin cacheLen), w.cacheInfo i = 0#32)
    : ∃ (b : BlockNo) (x : Xfer) (w' : World),
        updateBlock env buf size 0#32 (Xfer.start size 0 (some temp)) w = .ok (0, b, x, w')
        ∧ x.remaining = 0 ∧ (w'.Exhausted ↔ w.Exhausted)
        ∧ (∀ (k : BlockNo), k ≠ 0#32 → w'.disk k = w.disk k)
        ∧ Event.writeBlock 0#32 true ∈ w'.log := by
  obtain ⟨b, log, hb, halloc, hlog⟩ := allocBlock_spare hspare
  have hcur : curSize size = size := by
    rw [curSize_eq]
    omega
  have hfit : ¬ blockSize < 0 + curSize size := by
    rw [hcur]
    simp only [blockSize]
    omega
  let chunk := temp.copy 0 (fun i => buf (size - size + i)) (curSize size)
  obtain ⟨w', hwrite, hfree, hdisk, hevent⟩ := writeChBlk_empty hr hc b hb chunk
    (w := { w with blkBmp := w.blkBmp.set b.toNat, log := log }) hempty
  refine ⟨b, (Xfer.start size 0 (some temp)).advance chunk, w', ?_, ?_, hfree.trans hlog, hdisk, hevent⟩
  . unfold updateBlock
    simp only [Xfer.start, hpos, ↓reduceIte, halloc, Nat.zero_mod, Nat.lt_irrefl, hfit]
    rw [hwrite]
    rfl
  . simp [Xfer.advance, Xfer.start, hcur]

theorem objstoreWrite_first (hpos : 0 < size) (hsize : size ≤ 4096)
    (hnull : (w.objects o).direct 0 = 0#32) (hspare : w.Spare) (hfree : ¬ w.Exhausted)
    (hempty : ∀ (i : Fin cacheLen), w.cacheInfo i = 0#32)
    : ∃ (w' : World), objstoreWrite env o.id buf size 0 w = .ok (size, w') ∧ ¬ w'.Exhausted
        ∧ (∀ (k : BlockNo), k ≠ 0#32 → w'.disk k = w.disk k)
        ∧ Event.writeBlock 0#32 true ∈ w'.log := by
  let w₀ : World := w.emit (.cmalloc true)
  obtain ⟨b, x, w₁, hupdate, hrem, hfree₁, hdisk₁, hevent₁⟩ := updateBlock_first hr hc buf size hpos hsize
    (Buf.zero blockSize) (w := w₀) hspare hempty
  have hwrite := objstoreWrite_single hr o buf size 0 (by simp only [maxSize, blockSize]; omega) rfl (w := w)
    (by rw [hnull]; exact hupdate) hrem
  refine ⟨_, hwrite, ?_, hdisk₁, ?_⟩
  . intro hfull
    apply hfree
    have hfull₁ : w₁.Exhausted := by
      simpa [World.Exhausted] using hfull
    simpa [World.Exhausted, World.emit, w₀] using hfree₁.mp hfull₁
  . simpa using hevent₁

end

end ObjStore
