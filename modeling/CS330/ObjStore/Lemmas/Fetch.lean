import CS330.ObjStore.Lemmas.Read

/-!
This module contains which bytes `objstore_read` delivers: as long as every block on the way is there,
those of the object at the positions asked for.
-/

namespace ObjStore

open View

def View.byteAt (v : View) (o : Slot) (p : Nat) : Option Byte :=
  (v.cell (dataRef o (p / 4096))).map (fun blk => blk.get (p % 4096))

theorem View.byteAt_eq {v : View} {o : Slot} {t : Nat} {blk : Block}
    (h : v.cell (dataRef o t) = some blk) (q : Nat) (hq : q < 4096)
    : v.byteAt o (4096 * t + q) = some (blk.get q) := by
  have h1 : (4096 * t + q) / 4096 = t := by omega
  have h2 : (4096 * t + q) % 4096 = q := by omega
  simp [byteAt, h1, h2, h]

theorem Mem.copy_in (dst : Mem) (pos : Nat) (src : Nat → Byte) (len i : Nat) (h1 : pos ≤ i)
    (h2 : i < pos + len)
    : dst.copy pos src len i = src (i - pos) := by
  simp [Mem.copy, h1, h2]

theorem Mem.copy_before (dst : Mem) (pos : Nat) (src : Nat → Byte) (len i : Nat) (h : i < pos)
    : dst.copy pos src len i = dst i := by
  have : ¬ pos ≤ i := by omega
  simp [Mem.copy, this]

/--
A read of `size` bytes of object `o`, `shift` bytes into block `start`, that is known to find `blocks`
blocks there.
-/
structure Fetch where
  o : Slot
  size : Nat
  start : Nat
  shift : Nat
  blocks : Nat
  fit : shift + min size 4096 ≤ 4096
  blocks_le : 0 < blocks → start + blocks ≤ 4100

namespace Fetch

structure Present (job : Fetch) (v : View) : Prop where
  cells : ∀ (t : Nat), job.start ≤ t → t < job.start + job.blocks → v.ptr (dataRef job.o t) ≠ 0#32
  indirects : ∀ (i : Fin 4), 0 < job.blocks → 4 + 1024 * i.val < job.start + job.blocks
    → (v.objects job.o).indirect i ≠ 0#32

def lim (job : Fetch) : Nat := min job.size (4096 * job.blocks - job.shift)

def Delivered (job : Fetch) (v : View) (buf : Mem) (n : Nat) : Prop :=
  ∀ (p : Nat), p < n → v.byteAt job.o (4096 * job.start + job.shift + p) = some (buf p)

-- The read is before block `t` and has not stopped.
structure Exact (job : Fetch) (v : View) (t : Nat) (x : Xfer) (buf : Mem) : Prop where
  pos : 0 < job.blocks
  le : t ≤ job.start + job.blocks
  rem : x.remaining = job.size - 4096 * (t - job.start)
  done : 0 < x.remaining → x.blocksDone = min t job.start
  shift_eq : 0 < x.remaining → x.shift = if t ≤ job.start then job.shift else 0
  bytes : job.Delivered v buf (job.size - x.remaining)

structure Finished (job : Fetch) (v : View) (x : Xfer) (buf : Mem) : Prop where
  rem : x.remaining ≤ job.size - job.lim
  bytes : job.Delivered v buf job.lim

structure Inv (job : Fetch) (env : Env) (w₀ : World) (t : Nat) (s : Xfer × Mem × World) : Prop where
  reads : w₀.Reads env s.2.2
  temp : ∃ (temp : Block), s.1.temp = some temp
  le : s.1.remaining ≤ job.size
  fits : s.1.shift + curSize s.1.remaining ≤ blockSize
  good : job.Exact (w₀.view env) t s.1 s.2.1 ∨ job.Finished (w₀.view env) s.1 s.2.1

variable {job : Fetch} {v : View} {t : Nat} {x : Xfer} {buf : Mem} {env : Env} {w w₀ : World}

theorem Exact.finished_end (h : job.Exact v t x buf) (ht : job.start + job.blocks ≤ t)
    : job.Finished v x buf := by
  have hrem := h.rem
  have hle := h.le
  refine ⟨?_, ?_⟩
  . unfold lim
    omega
  . intro p hp
    apply h.bytes
    unfold lim at hp
    omega

theorem Exact.finished_zero (h : job.Exact v t x buf) (hx : x.remaining = 0) : job.Finished v x buf := by
  refine ⟨by omega, ?_⟩
  intro p hp
  apply h.bytes
  unfold lim at hp
  omega

theorem Inv.of_finished {s : Xfer × Mem × World} (h : job.Inv env w₀ t s)
    (hfin : job.Finished (w₀.view env) s.1 s.2.1) (t' : Nat)
    : job.Inv env w₀ t' s :=
  ⟨h.reads, h.temp, h.le, h.fits, Or.inr hfin⟩

theorem Inv.skip (h : job.Inv env w₀ t (x, buf, w))
    (hgood : job.Finished (w₀.view env) x buf ∨ (job.Exact (w₀.view env) t x buf ∧ t < job.start))
    : job.Inv env w₀ (t + 1) ({ x with blocksDone := x.blocksDone + 1 }, buf, w) := by
  refine ⟨h.reads, h.temp, h.le, h.fits, ?_⟩
  cases hgood with
  | inl hfin => exact Or.inr ⟨hfin.rem, hfin.bytes⟩
  | inr hex =>
    obtain ⟨hex, hlt⟩ := hex
    refine Or.inl ⟨hex.pos, by omega, ?_, ?_, ?_, hex.bytes⟩
    . have := hex.rem
      simp only
      omega
    . intro hrem
      have := hex.done hrem
      simp only
      omega
    . intro hrem
      have := hex.shift_eq hrem
      simp only
      rw [this, if_pos (by omega), if_pos (by omega)]

theorem Exact.get (h : job.Exact v t x buf) (hrem : 0 < x.remaining) (hstart : job.start ≤ t)
    (hlt : t < job.start + job.blocks) (blk : Block) (hcell : v.cell (dataRef job.o t) = some blk)
    : job.Exact v (t + 1) (x.advance blk)
        (buf.copy (job.size - x.remaining) (fun i => blk.get (x.shift + i)) (curSize x.remaining)) := by
  have hx := h.rem
  have hs := h.shift_eq hrem
  have hfit := job.fit
  refine ⟨h.pos, by omega, ?_, ?_, ?_, ?_⟩
  . simp only [Xfer.advance, curSize_eq]
    omega
  . intro _
    have := h.done hrem
    simp only [Xfer.advance]
    omega
  . intro _
    rw [if_neg (by omega)]
    rfl
  . intro p hp
    simp only [Xfer.advance, curSize_eq] at hp
    by_cases hold : p < job.size - x.remaining
    . rw [Mem.copy_before _ _ _ _ _ hold]
      exact h.bytes p hold
    . rw [Mem.copy_in _ _ _ _ _ (by omega) (by rw [curSize_eq]; omega)]
      have hpos : 4096 * job.start + job.shift + p
          = 4096 * t + (x.shift + (p - (job.size - x.remaining))) := by
        rw [hs]
        split
        . omega
        . omega
      rw [hpos, byteAt_eq hcell]
      rw [hs]
      split
      . omega
      . omega

theorem Finished.get (h : job.Finished v x buf) (hle : x.remaining ≤ job.size) (blk : Block)
    (src : Nat → Byte) (len : Nat)
    : job.Finished v (x.advance blk) (buf.copy (job.size - x.remaining) src len) := by
  have hrem := h.rem
  have hlim : job.lim ≤ job.size := by
    unfold lim
    omega
  refine ⟨?_, ?_⟩
  . simp only [Xfer.advance]
    omega
  . intro p hp
    rw [Mem.copy_before _ _ _ _ _ (by omega)]
    exact h.bytes p hp

theorem Inv.get (hr : env.Reliable) (h : job.Inv env w₀ t (x, buf, w)) (r : Ref)
    (hp : (w₀.view env).ptr r ≠ 0#32)
    (hgood : job.Finished (w₀.view env) x buf
      ∨ (job.Exact (w₀.view env) t x buf ∧ 0 < x.remaining ∧ job.start ≤ t
        ∧ t < job.start + job.blocks ∧ r = dataRef job.o t))
    : ∃ (x' : Xfer) (buf' : Mem) (w' : World),
        getBlockData env job.size ((w₀.view env).ptr r) x buf w = .ok (0, x', buf', w')
        ∧ job.Inv env w₀ (t + 1) (x', buf', w') := by
  by_cases hrem : 0 < x.remaining
  . obtain ⟨temp, htemp⟩ := h.temp
    obtain ⟨w', heq, hview, hkeeps⟩ :=
      getBlockData_eq hr h.reads.tagged job.size _ hp x hrem temp htemp buf
    have hfits := h.fits
    simp only at hfits
    rw [if_neg (by omega)] at heq
    refine ⟨_, _, w', heq, h.reads.keeps r hp hview hkeeps, ⟨_, rfl⟩, ?_, ?_, ?_⟩
    . have := h.le
      simp only [Xfer.advance] at this ⊢
      omega
    . simp only [Xfer.advance, curSize_eq, blockSize]
      omega
    . cases hgood with
      | inl hfin =>
        right
        dsimp only
        exact hfin.get h.le _ _ _
      | inr hex =>
        obtain ⟨hex, -, hstart, hlt, rfl⟩ := hex
        left
        apply hex.get hrem hstart hlt
        rw [h.reads.view_eq]
        exact cell_eq _ _ hp
  . refine ⟨x, buf, w, getBlockData_zero _ _ _ (by omega) _, ?_⟩
    refine h.of_finished ?_ (t + 1)
    cases hgood with
    | inl hfin => exact hfin
    | inr hex => exact absurd hex.2.1 hrem

theorem Inv.place (hr : env.Reliable) (hpres : job.Present (w₀.view env))
    (h : job.Inv env w₀ t (x, buf, w)) (r : Ref) (hdata : r = dataRef job.o t) (p : BlockNo)
    (hp : p = (w₀.view env).ptr r)
    : Loop.StepPost (job.Inv env w₀ (t + 1))
        (fun res => ∃ (s : Xfer × Mem × World), res = .ok (.next s)
          ∧ ∀ (t' : Nat), job.Inv env w₀ t' s)
        (if x.blocksDone < job.start then
          return .next ({ x with blocksDone := x.blocksDone + 1 }, buf, w)
        else if p ≠ 0#32 then do
          let (_, x, buf, w) ← getBlockData env job.size p x buf w
          return (.next (x, buf, w) : Loop.Flow Int (Xfer × Mem × World))
        else
          return .stop (x, buf, w) : Except Fault (Loop.Flow Int (Xfer × Mem × World))) := by
  subst hp
  -- either the bytes that count are there, or block `t` is one of the blocks to skip or to read
  have hcases : job.Finished (w₀.view env) x buf
      ∨ (job.Exact (w₀.view env) t x buf ∧ 0 < x.remaining ∧ t < job.start + job.blocks) := by
    cases h.good with
    | inr hfin => exact Or.inl hfin
    | inl hex =>
      by_cases hrem : 0 < x.remaining
      . by_cases hlt : t < job.start + job.blocks
        . exact Or.inr ⟨hex, hrem, hlt⟩
        . exact Or.inl (hex.finished_end (by omega))
      . exact Or.inl (hex.finished_zero (by simp only; omega))
  by_cases hskip : x.blocksDone < job.start
  . rw [if_pos hskip]
    apply h.skip
    cases hcases with
    | inl hfin => exact Or.inl hfin
    | inr hex =>
      right
      have := hex.1.done hex.2.1
      exact ⟨hex.1, by omega⟩
  . rw [if_neg hskip]
    by_cases hnull : (w₀.view env).ptr r = 0#32
    . rw [if_neg (by simp [hnull])]
      refine ⟨_, rfl, ?_⟩
      apply h.of_finished
      cases hcases with
      | inl hfin => exact hfin
      | inr hex =>
        have := hex.1.done hex.2.1
        rw [hdata] at hnull
        exact absurd hnull (hpres.cells t (by omega) hex.2.2)
    . rw [if_pos hnull]
      have hgood : job.Finished (w₀.view env) x buf
          ∨ (job.Exact (w₀.view env) t x buf ∧ 0 < x.remaining ∧ job.start ≤ t
            ∧ t < job.start + job.blocks ∧ r = dataRef job.o t) := by
        cases hcases with
        | inl hfin => exact Or.inl hfin
        | inr hex =>
          have := hex.1.done hex.2.1
          exact Or.inr ⟨hex.1, hex.2.1, by omega, hex.2.2, hdata⟩
      obtain ⟨x', buf', w', heq, h'⟩ := h.get hr r hnull hgood
      rw [heq]
      exact h'

def Ends (job : Fetch) (env : Env) (w₀ : World) (t : Nat)
    (res : Except Fault (Loop.Flow Int (Xfer × Mem × World))) : Prop :=
  ∃ (s : Xfer × Mem × World), res = .ok (.next s) ∧ job.Inv env w₀ t s

theorem stepPost_ends {res : Except Fault (Loop.Flow Int (Xfer × Mem × World))} {t' : Nat}
    (h : Loop.StepPost (job.Inv env w₀ t)
      (fun res => ∃ (s : Xfer × Mem × World), res = .ok (.next s)
        ∧ ∀ (t' : Nat), job.Inv env w₀ t' s) res)
    : Loop.StepPost (job.Inv env w₀ t) (job.Ends env w₀ t') res := by
  unfold Loop.StepPost at h ⊢
  split
  . exact h
  . obtain ⟨s, heq, hinv⟩ := h
    exact ⟨s, heq, hinv t'⟩
  . obtain ⟨s, heq, -⟩ := h
    cases heq
  . obtain ⟨s, heq, -⟩ := h
    cases heq

section

variable (hr : env.Reliable) (hpres : job.Present (w₀.view env))

include hr hpres

theorem inv_directs (s : Xfer × Mem × World) (h : job.Inv env w₀ 0 s)
    : job.Ends env w₀ 4
        (Loop.run (objstoreRead.direct env job.o job.size job.start) (Loop.range 4) s) := by
  refine Loop.run_inv (P := fun k s => job.Inv env w₀ k s) ?_ ?_ s h
  . rintro i ⟨x, buf, w⟩ h
    apply stepPost_ends
    apply h.place hr hpres (.direct job.o i) (dataRef_direct job.o i).symm
    exact congrArg (fun f => (f job.o).direct i) h.reads.objects_eq
  . intro s h
    exact ⟨s, rfl, h⟩

theorem inv_entries (i : Fin 4) (t : Nat) (ht : t = 4 + 1024 * i)
    (hind : (w₀.objects job.o).indirect i ≠ 0#32) (s : Xfer × Mem × World) (h : job.Inv env w₀ t s)
    : job.Ends env w₀ (t + 1024)
        (Loop.run (objstoreRead.entry env job.size job.start
          ((w₀.view env).data ((w₀.objects job.o).indirect i))) (Loop.range 1024) s) := by
  refine Loop.run_inv (P := fun k s => job.Inv env w₀ (t + k) s) ?_ ?_ s h
  . rintro j ⟨x, buf, w⟩ h
    apply stepPost_ends
    apply h.place hr hpres (.entry job.o i j)
    . rw [ht, dataRef_entry]
    . exact (if_neg hind).symm
  . intro s h
    exact ⟨s, rfl, h⟩

theorem inv_indirect (i : Fin 4) (t : Nat) (ht : t = 4 + 1024 * i)
    (h : job.Inv env w₀ t (x, buf, w))
    : Loop.StepPost (job.Inv env w₀ (t + 1024)) (job.Ends env w₀ 4100)
        (objstoreRead.indirect env job.o job.size job.start i (x, buf, w)) := by
  have hobj : w.objects = w₀.objects := h.reads.objects_eq
  unfold objstoreRead.indirect
  simp only [hobj]
  by_cases hgo : (w₀.objects job.o).indirect i ≠ 0#32 ∧ 0 < x.remaining
  . rw [if_pos hgo, cmalloc_eq hr]
    have hreads := h.reads.emit (.cmalloc true) (by simp)
    have hp : (w₀.view env).ptr (.indirect job.o i) ≠ 0#32 := hgo.1
    obtain ⟨w₁, hread, hview, hkeeps⟩ := readChBlk_spec hr hreads.tagged _ hp (Buf.zero blockSize)
    have hread₀ : readChBlk env ((w₀.objects job.o).indirect i) (Buf.zero blockSize)
        (w.emit (.cmalloc true)) = (true, (w₀.view env).data ((w₀.objects job.o).indirect i), w₁) := by
      rw [← hreads.view_eq]
      exact hread
    have hobj₁ : (w.emit (.cmalloc true)).objects = w₀.objects := hobj
    simp only [hobj₁, hread₀]
    have h₁ : job.Inv env w₀ t (x, buf, w₁) :=
      ⟨hreads.keeps _ hp hview hkeeps, h.temp, h.le, h.fits, h.good⟩
    cases inv_entries hr hpres i t ht hgo.1 _ h₁ with
    | intro s h =>
      rw [h.1]
      exact h.2
  . rw [if_neg hgo]
    refine ⟨_, rfl, h.of_finished ?_ 4100⟩
    cases h.good with
    | inr hfin => exact hfin
    | inl hex =>
      by_cases hrem : 0 < x.remaining
      . apply hex.finished_end
        have := hpres.indirects i hex.pos
        rw [← ht] at this
        apply Nat.le_of_not_lt
        intro hlt
        exact hgo ⟨this hlt, hrem⟩
      . exact hex.finished_zero (by simp only; omega)

theorem inv_indirects (s : Xfer × Mem × World) (h : job.Inv env w₀ 4 s)
    : job.Ends env w₀ 4100
        (Loop.run (objstoreRead.indirect env job.o job.size job.start) (Loop.range 4) s) := by
  let P (k : Nat) (s : Xfer × Mem × World) : Prop := job.Inv env w₀ (4 + 1024 * k) s
  apply Loop.run_inv (P := P)
  . rintro i ⟨x, buf, w⟩ h
    have hnext : 4 + 1024 * (i.val + 1) = 4 + 1024 * i.val + 1024 := by
      rw [Nat.mul_add, Nat.add_assoc]
    simp only [P, hnext]
    exact inv_indirect hr hpres i _ rfl h
  . intro s h
    exact ⟨s, rfl, h⟩
  . exact h

end

theorem Inv.finished (h : job.Inv env w₀ 4100 (x, buf, w)) : job.Finished (w₀.view env) x buf := by
  cases h.good with
  | inr hfin => exact hfin
  | inl hex =>
    apply hex.finished_end
    exact job.blocks_le hex.pos

end Fetch

-- A read whose first chunk lies in one block returns its size, and delivers the bytes of as many blocks as
-- are known to be there.
theorem objstoreRead_bytes {env : Env} {w : World} (hr : env.Reliable) (htag : w.Tagged) (buf : Mem)
    (offset : Nat) (job : Fetch) (hsize : job.size ≤ maxSize) (hstart : job.start = startBlock offset)
    (hshift : job.shift = offset % 4096) (hpres : job.Present (w.view env))
    : ∃ (buf' : Mem) (w' : World),
        objstoreRead env job.o.id buf job.size offset w = .ok (job.size, buf', w')
        ∧ w.Reads env w' ∧ job.Delivered (w.view env) buf' job.lim := by
  unfold objstoreRead
  rw [if_neg job.o.id_ge, if_neg (by omega), dif_pos job.o.id_lt, job.o.of_id]
  simp only [cmalloc_eq hr]
  have hreads : w.Reads env ((w.lock .rd).emit (.cmalloc true)) :=
    ((World.Reads.refl htag).emit (.lock .rd) (by simp)).emit (.cmalloc true) (by simp)
  have hinit : job.Inv env w 0 (Xfer.start job.size offset (some (Buf.zero blockSize)), buf,
      (w.lock .rd).emit (.cmalloc true)) := by
    refine ⟨hreads, ⟨_, rfl⟩, Nat.le_refl _, ?_, ?_⟩
    . have := job.fit
      rw [curSize_eq]
      simp only [Xfer.start, blockSize]
      omega
    . by_cases hblocks : 0 < job.blocks
      . refine Or.inl ⟨hblocks, by omega, ?_, ?_, ?_, ?_⟩
        . simp [Xfer.start]
        . simp [Xfer.start]
        . simp [Xfer.start, hshift, blockSize]
        . intro p hp
          simp only [Xfer.start] at hp
          omega
      . right
        have hlim : job.lim = 0 := by
          unfold Fetch.lim
          omega
        refine ⟨?_, ?_⟩
        . rw [hlim]
          exact Nat.le_refl _
        . intro p hp
          omega
  obtain ⟨s₁, hrun₁, h₁⟩ := Fetch.inv_directs hr hpres _ hinit
  obtain ⟨⟨x₂, buf₂, w₂⟩, hrun₂, h₂⟩ := Fetch.inv_indirects hr hpres s₁ h₁
  rw [hstart] at hrun₁ hrun₂
  simp only [hrun₁, hrun₂, bind, Except.bind]
  refine ⟨_, _, rfl, h₂.reads.emit _ (by simp), ?_⟩
  have hfin := h₂.finished
  have hrem := hfin.rem
  have hle : job.lim ≤ job.size := by
    unfold Fetch.lim
    omega
  intro p hp
  have hlt : p < job.size - x₂.remaining := by
    have := h₂.le
    simp only at this
    omega
  rw [Mem.copy_before _ _ _ _ _ hlt]
  exact hfin.bytes p hp

end ObjStore
