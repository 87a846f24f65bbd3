import CS330.ObjStore.Lemmas.Update

/-!
This module contains what `objstore_write` does when its first chunk crosses the end of a block: the
blocks before it are passed over, then `memcpy` runs over the end of `temp`.
-/

namespace ObjStore

variable {env : Env} {w : World}

def Xfer.skipped (size shift : Nat) (temp : Block) (t : Nat) : Xfer where
  remaining := size
  shift := shift
  blocksDone := t
  temp := some temp

namespace objstoreWrite

section

variable (hr : env.Reliable) (o : Slot) (buf : Mem) (size start shift : Nat) (temp : Block)
variable (hsize : 0 < size) (hover : blockSize < shift + curSize size)

include hr hsize hover

theorem overrun_direct (htag : w.Tagged) (i : Fin 4)
    : direct env o buf size start i (Xfer.skipped size shift temp i, w)
        =
      if i.val < start then .ok (.next (Xfer.skipped size shift temp (i + 1), w))
      else .error .tempOverrun := by
  unfold direct
  by_cases hlt : i.val < start
  . simp only [Xfer.skipped, hlt, ↓reduceIte]
    rfl
  . simp only [Xfer.skipped, hlt, ↓reduceIte]
    rw [updateBlock_overrun hr htag _ _ _ _ hsize temp rfl hover]
    rfl

theorem overrun_directs (htag : w.Tagged)
    : Loop.run (direct env o buf size start) (Loop.range 4) (Xfer.skipped size shift temp 0, w)
        =
      if 4 ≤ start then .ok (.next (Xfer.skipped size shift temp 4, w))
      else .error .tempOverrun := by
  let P (k : Nat) (s : Xfer × World) : Prop := s = (Xfer.skipped size shift temp k, w) ∧ k ≤ start
  let Q (r : Except Fault (Loop.Flow Int (Xfer × World))) : Prop :=
    r = if 4 ≤ start then .ok (.next (Xfer.skipped size shift temp 4, w)) else .error .tempOverrun
  apply Loop.run_inv (P := P) (Q := Q)
  . rintro i s ⟨rfl, hi⟩
    rw [overrun_direct hr o buf size start shift temp hsize hover htag i]
    by_cases hlt : i.val < start
    . rw [if_pos hlt]
      exact ⟨rfl, hlt⟩
    . rw [if_neg hlt]
      have : ¬ 4 ≤ start := by omega
      simp [Loop.StepPost, Q, this]
  . rintro s ⟨rfl, hi⟩
    simp [Q, hi]
  . exact ⟨rfl, by omega⟩

theorem overrun_entry (htag : w.Tagged) (bb : Block) (t : Nat) (j : Fin 1024)
    : entry env buf size start j (Xfer.skipped size shift temp t, w, bb)
        =
      if t < start then .ok (.next (Xfer.skipped size shift temp (t + 1), w, bb))
      else .error .tempOverrun := by
  unfold entry
  by_cases hlt : t < start
  . simp only [Xfer.skipped, hlt, ↓reduceIte]
    rfl
  . simp only [Xfer.skipped, hlt, ↓reduceIte]
    rw [updateBlock_overrun hr htag _ _ _ _ hsize temp rfl hover]
    rfl

theorem overrun_entries (htag : w.Tagged) (bb : Block) (t : Nat) (ht : t ≤ start)
    : Loop.run (entry env buf size start) (Loop.range 1024) (Xfer.skipped size shift temp t, w, bb)
        =
      if t + 1024 ≤ start then .ok (.next (Xfer.skipped size shift temp (t + 1024), w, bb))
      else .error .tempOverrun := by
  let P (k : Nat) (s : Xfer × World × Block) : Prop :=
    s = (Xfer.skipped size shift temp (t + k), w, bb) ∧ t + k ≤ start
  let Q (r : Except Fault (Loop.Flow Int (Xfer × World × Block))) : Prop :=
    r = if t + 1024 ≤ start then .ok (.next (Xfer.skipped size shift temp (t + 1024), w, bb))
      else .error .tempOverrun
  apply Loop.run_inv (P := P) (Q := Q)
  . rintro j s ⟨rfl, hj⟩
    rw [overrun_entry hr buf size start shift temp hsize hover htag bb]
    by_cases hlt : t + j.val < start
    . rw [if_pos hlt]
      exact ⟨rfl, hlt⟩
    . rw [if_neg hlt]
      have : ¬ t + 1024 ≤ start := by omega
      simp [Loop.StepPost, Q, this]
  . rintro s ⟨rfl, hj⟩
    simp [Q, hj]
  . exact ⟨rfl, ht⟩

omit hsize hover in
theorem pointerBlock_tagged (htag : w.Tagged) (i : Fin 4) (bb : Block)
    : ∃ (bb' : Block) (w' : World),
        pointerBlock env o i bb w = (true, bb', w') ∧ w'.Tagged
        ∧ (w'.objects o).indirect i ≠ 0#32 := by
  unfold pointerBlock
  by_cases hnull : (w.objects o).indirect i = 0#32
  . obtain ⟨b, w₁, halloc, hb, hinfo, -⟩ := allocBlock_spec env w
    rw [if_pos hnull, halloc]
    refine ⟨_, _, rfl, ?_, by simpa [World.setObj] using hb⟩
    unfold World.Tagged
    simp only [World.setObj, hinfo]
    exact htag
  . obtain ⟨w', hread, hview, hkeeps⟩ := readChBlk_spec hr htag _ hnull bb
    rw [if_neg hnull, hread]
    refine ⟨_, _, rfl, hkeeps.tagged, ?_⟩
    have : w'.objects = w.objects := congrArg View.objects hview
    rw [this]
    exact hnull

theorem overrun_indirect (htag : w.Tagged) (t : Nat) (ht : t ≤ start) (i : Fin 4)
    : (t + 1024 ≤ start
        ∧ ∃ (w' : World), w'.Tagged
          ∧ indirect env o buf size start i (Xfer.skipped size shift temp t, w)
            = .ok (.next (Xfer.skipped size shift temp (t + 1024), w')))
      ∨
      (start < t + 1024
        ∧ indirect env o buf size start i (Xfer.skipped size shift temp t, w)
          = .error .tempOverrun) := by
  unfold indirect
  have hrem : 0 < (Xfer.skipped size shift temp t).remaining := hsize
  have htag' : (w.emit (.cmalloc true)).Tagged := htag
  obtain ⟨bb, w₁, hptr, htag₁, hind⟩ := pointerBlock_tagged hr o htag' i (Buf.zero blockSize)
  simp only [hrem, ↓reduceIte, cmalloc_eq hr, hptr]
  rw [overrun_entries hr buf size start shift temp hsize hover htag₁ bb t ht]
  by_cases hle : t + 1024 ≤ start
  . left
    refine ⟨hle, ?_⟩
    obtain ⟨w₂, hwrite, -, hkeeps⟩ := writeChBlk_spec hr htag₁ _ hind bb
    refine ⟨w₂, hkeeps.tagged, ?_⟩
    simp only [hle, ↓reduceIte, bind, Except.bind, hwrite]
    rfl
  . right
    refine ⟨by omega, ?_⟩
    simp only [hle, ↓reduceIte, bind, Except.bind]

theorem overrun_indirects (htag : w.Tagged) (hstart : 4 ≤ start)
    : (start < 4100
        ∧ Loop.run (indirect env o buf size start) (Loop.range 4) (Xfer.skipped size shift temp 4, w)
          = .error .tempOverrun)
      ∨
      (4100 ≤ start
        ∧ ∃ (w' : World),
          Loop.run (indirect env o buf size start) (Loop.range 4) (Xfer.skipped size shift temp 4, w)
          = .ok (.next (Xfer.skipped size shift temp 4100, w'))) := by
  let P (k : Nat) (s : Xfer × World) : Prop :=
    s.1 = Xfer.skipped size shift temp (4 + 1024 * k) ∧ s.2.Tagged ∧ 4 + 1024 * k ≤ start
  let Q (r : Except Fault (Loop.Flow Int (Xfer × World))) : Prop :=
    (start < 4100 ∧ r = .error .tempOverrun)
      ∨ (4100 ≤ start ∧ ∃ (w' : World), r = .ok (.next (Xfer.skipped size shift temp 4100, w')))
  apply Loop.run_inv (P := P) (Q := Q)
  . rintro i ⟨x, w⟩ ⟨rfl, htag, hi⟩
    have hnext : 4 + 1024 * (i.val + 1) = 4 + 1024 * i.val + 1024 := by
      rw [Nat.mul_add, Nat.add_assoc]
    cases overrun_indirect hr o buf size start shift temp hsize hover htag _ hi i with
    | inl h =>
      obtain ⟨hle, w', htag', heq⟩ := h
      rw [heq]
      refine ⟨?_, htag', ?_⟩
      . rw [hnext]
      . rw [hnext]
        exact hle
    | inr h =>
      rw [h.2]
      exact .inl ⟨by omega, rfl⟩
  . rintro ⟨x, w⟩ ⟨rfl, -, hi⟩
    exact .inr ⟨hi, w, rfl⟩
  . exact ⟨rfl, htag, hstart⟩

end

end objstoreWrite

-- A first chunk that crosses the end of its block is copied past the end of `temp`.
theorem objstoreWrite_overrun (hr : env.Reliable) (htag : w.Tagged) (o : Slot) (buf : Mem)
    (size offset : Nat) (hpos : 0 < size) (hsize : size ≤ maxSize) (hstart : startBlock offset < 4100)
    (hover : blockSize < offset % blockSize + curSize size)
    : objstoreWrite env o.id buf size offset w = .error .tempOverrun := by
  unfold objstoreWrite
  rw [if_neg o.id_ge, if_neg (by omega), dif_pos o.id_lt, o.of_id]
  simp only [cmalloc_eq hr]
  have htag' : (w.emit (.cmalloc true)).Tagged := htag
  have hx : Xfer.start size offset (some (Buf.zero blockSize))
      = Xfer.skipped size (offset % blockSize) (Buf.zero blockSize) 0 := rfl
  rw [hx, objstoreWrite.overrun_directs hr o buf size _ _ _ hpos hover htag']
  by_cases h4 : 4 ≤ startBlock offset
  . simp only [h4, ↓reduceIte, bind, Except.bind]
    rcases objstoreWrite.overrun_indirects hr o buf size _ _ _ hpos hover htag' h4 with ⟨-, hrun⟩ | ⟨hpast, -⟩
    . rw [hrun]
    . omega
  . simp only [h4, ↓reduceIte, bind, Except.bind]

theorem objstoreWrite_past (hr : env.Reliable) (htag : w.Tagged) (o : Slot) (buf : Mem)
    (size offset : Nat) (hpos : 0 < size) (hsize : size ≤ maxSize) (hstart : 4100 ≤ startBlock offset)
    (hover : blockSize < offset % blockSize + curSize size)
    : ∃ (w' : World), objstoreWrite env o.id buf size offset w = .ok (size, w') := by
  unfold objstoreWrite
  rw [if_neg o.id_ge, if_neg (by omega), dif_pos o.id_lt, o.of_id]
  simp only [cmalloc_eq hr]
  have htag' : (w.emit (.cmalloc true)).Tagged := htag
  have hx : Xfer.start size offset (some (Buf.zero blockSize))
      = Xfer.skipped size (offset % blockSize) (Buf.zero blockSize) 0 := rfl
  rw [hx, objstoreWrite.overrun_directs hr o buf size _ _ _ hpos hover htag']
  have h4 : 4 ≤ startBlock offset := by omega
  simp only [h4, ↓reduceIte, bind, Except.bind]
  rcases objstoreWrite.overrun_indirects hr o buf size _ _ _ hpos hover htag' h4 with ⟨hlt, -⟩ | ⟨-, w', hrun⟩
  . omega
  . rw [hrun]
    exact ⟨_, rfl⟩

end ObjStore
