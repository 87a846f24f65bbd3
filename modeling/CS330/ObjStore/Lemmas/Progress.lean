import CS330.ObjStore.Lemmas.Update
import Mathlib.Data.Fintype.Basic

/-!
This module contains the invariant of `objstore_write` in terms of views: how far a write has got, block
after block, and that one more block carries it on.
-/

namespace ObjStore

namespace View

-- The place of block `t` of an object: four direct pointers, then four times 1024 entries.
def dataRef (o : Slot) (t : Nat) : Ref :=
  if h : t < 4 then
    .direct o ⟨t, h⟩
  else
    .entry o ⟨(t - 4) / 1024 % 4, by omega⟩ ⟨(t - 4) % 1024, by omega⟩

theorem dataRef_isData (o : Slot) (t : Nat) : (dataRef o t).isData = true := by
  unfold dataRef
  split <;> rfl

theorem dataRef_slot (o : Slot) (t : Nat) : (dataRef o t).slot = o := by
  unfold dataRef
  split <;> rfl

theorem dataRef_direct (o : Slot) (i : Fin 4) : dataRef o i = .direct o i := by
  simp [dataRef]

theorem dataRef_entry (o : Slot) (i : Fin 4) (j : Fin 1024)
    : dataRef o (4 + 1024 * i + j) = .entry o i j := by
  have h1 : ¬ 4 + 1024 * i.val + j.val < 4 := by omega
  have h2 : (4 + 1024 * i.val + j.val - 4) / 1024 % 4 = i := by omega
  have h3 : (4 + 1024 * i.val + j.val - 4) % 1024 = j := by omega
  simp [dataRef, h1, h2, h3]

theorem dataRef_inj {o : Slot} {t t' : Nat} (ht : t < 4100) (ht' : t' < 4100)
    (h : dataRef o t = dataRef o t')
    : t = t' := by
  unfold dataRef at h
  split at h
  . split at h
    . simpa using h
    . simp at h
  . split at h
    . simp at h
    . simp only [Ref.entry.injEq, Fin.mk.injEq, true_and] at h
      omega

theorem indirect_of_ptr {v : View} {o : Slot} {t : Nat} (h4 : 4 ≤ t) (ht : t < 4100) (hptr : v.ptr (dataRef o t) ≠ 0#32)
    : (v.objects o).indirect ⟨(t - 4) / 1024, by omega⟩ ≠ 0#32 := by
  intro hnull
  have hsum : 4 + 1024 * ((t - 4) / 1024) + (t - 4) % 1024 = t := by omega
  have href := dataRef_entry o ⟨(t - 4) / 1024, by omega⟩ ⟨(t - 4) % 1024, Nat.mod_lt _ (by decide)⟩
  simp only [hsum] at href
  rw [href] at hptr
  exact hptr (if_pos hnull)

end View

open View

/-- A write of `size` bytes of `buf` to object `o`, `shift` bytes into block `start`. -/
structure Job where
  o : Slot
  buf : Mem
  size : Nat
  start : Nat
  shift : Nat
  shift_lt : shift < 4096
  fit : shift + min size 4096 ≤ 4096

namespace Job

variable (job : Job)

def pos : Nat := 4096 * job.start + job.shift

def Touched (t : Nat) : Prop :=
  job.start ≤ t ∧ 4096 * (t - job.start) < job.size

instance (t : Nat) : Decidable (job.Touched t) :=
  inferInstanceAs (Decidable (_ ∧ _))

-- `temp` before block `t` of a job without a shift: zeros, then the block before
def temp (t : Nat) : Block :=
  fun q => if t ≤ job.start then 0#8 else job.buf (4096 * (t - 1 - job.start) + q)

-- the blocks before `t` that the job has to allocate
def fresh (v₀ : View) (t : Nat) : Finset Nat :=
  (Finset.range t).filter (fun s => job.Touched s ∧ v₀.ptr (dataRef job.o s) = 0#32)

-- the pointer blocks that it has to allocate, and those of them that `v` has already
def missing (v₀ : View) : Finset (Fin 4) :=
  Finset.univ.filter (fun i =>
    4096 * (4 + 1024 * i.val - job.start) < job.size ∧ (v₀.objects job.o).indirect i = 0#32)

def taken (v₀ v : View) : Finset (Fin 4) :=
  Finset.univ.filter (fun i =>
    (v₀.objects job.o).indirect i = 0#32 ∧ (v.objects job.o).indirect i ≠ 0#32)

def need (v₀ : View) : Nat :=
  (job.fresh v₀ 4100).card + (job.missing v₀).card

-- What the job wants of the contents of block `t`.
structure Written (v₀ : View) (t : Nat) (blk : Block) : Prop where
  new : ∀ (q : Fin blockSize), job.pos ≤ 4096 * t + q → 4096 * t + q < job.pos + job.size
    → blk q = job.buf (4096 * t + q - job.pos)
  old : 0 < job.shift → ∀ (q : Fin blockSize),
    ¬ (job.pos ≤ 4096 * t + q ∧ 4096 * t + q < job.pos + job.size)
    → ∀ (blk₀ : Block), v₀.cell (dataRef job.o t) = some blk₀ → blk q = blk₀ q
  tail : job.shift = 0 → ∀ (q : Fin blockSize),
    ¬ (job.pos ≤ 4096 * t + q ∧ 4096 * t + q < job.pos + job.size) → blk q = job.temp t q

/-- How far the job has got when the blocks before `t` are done; `v₀` is the view it started with. -/
structure Progress (v₀ v : View) (t : Nat) : Prop where
  own : v.Own
  other : ∀ (o : Slot), o ≠ job.o → v.objects o = v₀.objects o
  size_eq : (v.objects job.o).size = (v₀.objects job.o).size
  key_eq : (v.objects job.o).key = (v₀.objects job.o).key
  objBmp_eq : v.objBmp = v₀.objBmp
  reserved_eq : ∀ (b : BlockNo), Reserved b → v.data b = v₀.data b
  indirect_old : ∀ (i : Fin 4), (v₀.objects job.o).indirect i ≠ 0#32
    → (v.objects job.o).indirect i = (v₀.objects job.o).indirect i
  indirect_new : ∀ (i : Fin 4), 4 + 1024 * i.val < t
    → 4096 * (4 + 1024 * i.val - job.start) < job.size → (v.objects job.o).indirect i ≠ 0#32
  indirect_rest : ∀ (i : Fin 4), (v.objects job.o).indirect i ≠ 0#32
    → (v₀.objects job.o).indirect i ≠ 0#32 ∨ 4096 * (4 + 1024 * i.val - job.start) < job.size
  spent : v.blkBmp.free + (job.fresh v₀ t).card + (job.taken v₀ v).card = v₀.blkBmp.free
  frame : ∀ (r : Ref), r.isData = true → (∀ (s : Nat), s < t → job.Touched s → r ≠ dataRef job.o s)
    → v.cell r = v₀.cell r
  written : ∀ (s : Nat), s < t → job.Touched s
    → ∃ (blk : Block), v.cell (dataRef job.o s) = some blk ∧ job.Written v₀ s blk

variable {job} {v₀ v : View} {t : Nat}

theorem fresh_skip (v₀ : View) (t' : Nat) (htt' : t ≤ t')
    (htouch : ∀ (s : Nat), t ≤ s → s < t' → ¬ job.Touched s)
    : job.fresh v₀ t' = job.fresh v₀ t := by
  unfold fresh
  ext s
  simp only [Finset.mem_filter, Finset.mem_range]
  refine ⟨?_, ?_⟩
  . rintro ⟨hs, htouched, hp⟩
    have hst : ¬ t ≤ s := fun hst => htouch s hst hs htouched
    exact ⟨by omega, htouched, hp⟩
  . rintro ⟨hs, hrest⟩
    exact ⟨by omega, hrest⟩

theorem card_fresh_succ (v₀ : View) (htouched : job.Touched t)
    : (job.fresh v₀ (t + 1)).card
        =
      (job.fresh v₀ t).card + (if v₀.ptr (dataRef job.o t) = 0#32 then 1 else 0) := by
  unfold fresh
  rw [Finset.range_add_one, Finset.filter_insert]
  by_cases hp : v₀.ptr (dataRef job.o t) = 0#32
  . rw [if_pos ⟨htouched, hp⟩, if_pos hp, Finset.card_insert_of_notMem (by simp)]
  . rw [if_neg (fun h => hp h.2), if_neg hp, Nat.add_zero]

theorem card_fresh_le (job : Job) (v₀ : View) (ht : t ≤ 4100)
    : (job.fresh v₀ t).card ≤ (job.fresh v₀ 4100).card := by
  apply Finset.card_le_card
  intro s hs
  simp only [fresh, Finset.mem_filter, Finset.mem_range] at hs ⊢
  exact ⟨by omega, hs.2⟩

theorem Progress.init (hown : v₀.Own) : job.Progress v₀ v₀ 0 where
  own := hown
  other := fun _ _ => rfl
  size_eq := rfl
  key_eq := rfl
  objBmp_eq := rfl
  reserved_eq := fun _ _ => rfl
  indirect_old := fun _ _ => rfl
  indirect_new := by
    intro i hi
    omega
  indirect_rest := fun _ hi => Or.inl hi
  spent := by
    have htaken : job.taken v₀ v₀ = ∅ := by
      unfold taken
      rw [Finset.filter_eq_empty_iff]
      rintro i - ⟨h1, h2⟩
      exact h2 h1
    simp [fresh, htaken]
  frame := fun _ _ _ => rfl
  written := by
    intro s hs
    omega

theorem Progress.skip (h : job.Progress v₀ v t) (t' : Nat) (htt' : t ≤ t')
    (htouch : ∀ (s : Nat), t ≤ s → s < t' → ¬ job.Touched s)
    (hind : ∀ (i : Fin 4), t ≤ 4 + 1024 * i.val → 4 + 1024 * i.val < t'
      → 4096 * (4 + 1024 * i.val - job.start) < job.size → (v.objects job.o).indirect i ≠ 0#32)
    : job.Progress v₀ v t' where
  own := h.own
  other := h.other
  size_eq := h.size_eq
  key_eq := h.key_eq
  objBmp_eq := h.objBmp_eq
  reserved_eq := h.reserved_eq
  indirect_old := h.indirect_old
  indirect_new := by
    intro i hi hsize
    by_cases hlt : 4 + 1024 * i.val < t
    . exact h.indirect_new i hlt hsize
    . exact hind i (by omega) hi hsize
  indirect_rest := h.indirect_rest
  spent := by
    rw [fresh_skip v₀ t' htt' htouch]
    exact h.spent
  frame := by
    intro r hr hout
    apply h.frame r hr
    intro s hs
    exact hout s (by omega)
  written := by
    intro s hs htouched
    by_cases hst : s < t
    . exact h.written s hst htouched
    . exact absurd htouched (htouch s (by omega) hs)

theorem Progress.cell_ahead (h : job.Progress v₀ v t) (ht : t < 4100)
    : v.cell (dataRef job.o t) = v₀.cell (dataRef job.o t) := by
  apply h.frame _ (dataRef_isData _ _)
  intro s hs _ heq
  have := dataRef_inj ht (by omega) heq
  omega

theorem Progress.ptr_ahead (h : job.Progress v₀ v t) (ht : t < 4100)
    : v.ptr (dataRef job.o t) = 0#32 ↔ v₀.ptr (dataRef job.o t) = 0#32 := by
  rw [← cell_eq_none, ← cell_eq_none, h.cell_ahead ht]

def HasPointerBlock (job : Job) (v : View) (t : Nat) : Prop :=
  ∀ (i : Fin 4), 4 + 1024 * i.val ≤ t → t < 1028 + 1024 * i.val
    → (v.objects job.o).indirect i ≠ 0#32

theorem Progress.store (h : job.Progress v₀ v t) (ht : t < 4100) (htouched : job.Touched t)
    (hblock : job.HasPointerBlock v t) (c : Block) (hc : job.Written v₀ t c) (v' : View)
    (hs : Stored v (dataRef job.o t) c v')
    : job.Progress v₀ v' (t + 1) := by
  have hslot := dataRef_slot job.o t
  have hother := hs.other
  have hsize := hs.size_eq
  have hkey := hs.key_eq
  have hindirect := hs.indirect_eq
  rw [hslot] at hother hsize hkey hindirect
  refine ⟨hs.own, ?_, hsize.trans h.size_eq, hkey.trans h.key_eq, hs.objBmp_eq.trans h.objBmp_eq, ?_,
    ?_, ?_, ?_, ?_, ?_, ?_⟩
  . intro o ho
    rw [hother o ho, h.other o ho]
  . intro b hb
    rw [hs.reserved_eq b hb, h.reserved_eq b hb]
  . intro i hi
    rw [hindirect]
    exact h.indirect_old i hi
  . intro i hi hlt
    rw [hindirect]
    by_cases hit : 4 + 1024 * i.val < t
    . exact h.indirect_new i hit hlt
    . exact hblock i (by omega) (by omega)
  . intro i hi
    rw [hindirect] at hi
    exact h.indirect_rest i hi
  . have htaken : job.taken v₀ v' = job.taken v₀ v := by
      unfold taken
      rw [hindirect]
    have hspent := h.spent
    have hfree := hs.free_eq
    simp only [h.ptr_ahead ht] at hfree
    rw [htaken, card_fresh_succ v₀ htouched]
    omega
  . intro r hr hout
    rw [hs.cell_other r hr (hout t (by omega) htouched)]
    apply h.frame r hr
    intro s hs'
    exact hout s (by omega)
  . intro s hst htouched'
    by_cases hlast : s = t
    . subst hlast
      exact ⟨c, hs.cell_self, hc⟩
    . obtain ⟨blk, hcell, hw⟩ := h.written s (by omega) htouched'
      refine ⟨blk, ?_, hw⟩
      rw [hs.cell_other _ (dataRef_isData _ _), hcell]
      intro heq
      exact hlast (dataRef_inj (by omega) ht heq)

theorem Progress.takeIndirect (h : job.Progress v₀ v t) (i : Fin 4)
    (hnull : (v.objects job.o).indirect i = 0#32)
    (hneed : 4096 * (4 + 1024 * i.val - job.start) < job.size) (b : BlockNo) (hlt : b.toNat < 64 * blkBmpLn)
    (hfree : ¬ v.Used b)
    : job.Progress v₀ (v.takeIndirect job.o i b) t := by
  have hself : ((v.takeIndirect job.o i b).objects job.o).indirect i = b := by
    simp [View.takeIndirect, putPtr, setObj, setData, mark]
  have hrest : ∀ (k : Fin 4), k ≠ i
      → ((v.takeIndirect job.o i b).objects job.o).indirect k = (v.objects job.o).indirect k := by
    intro k hki
    simp [View.takeIndirect, putPtr, setObj, setData, mark, hki]
  have hsame : ∀ (k : Fin 4), (v.objects job.o).indirect k ≠ 0#32
      → ((v.takeIndirect job.o i b).objects job.o).indirect k = (v.objects job.o).indirect k := by
    intro k hk
    apply hrest k
    rintro rfl
    exact hk hnull
  refine ⟨h.own.takeIndirect job.o i hnull b hlt hfree, ?_, ?_, ?_, h.objBmp_eq, ?_, ?_, ?_, ?_, ?_, ?_, ?_⟩
  . intro o ho
    rw [← h.other o ho]
    simp [View.takeIndirect, putPtr, setObj, setData, mark, ho]
  . rw [← h.size_eq]
    simp [View.takeIndirect, putPtr, setObj, setData, mark]
  . rw [← h.key_eq]
    simp [View.takeIndirect, putPtr, setObj, setData, mark]
  . intro k hk
    rw [← h.reserved_eq k hk]
    exact setData_reserved (fun hb => hfree (h.own.reserved_used b hb)) _ k hk
  . intro k hk
    have hold := h.indirect_old k hk
    rw [← hold] at hk ⊢
    exact hsame k hk
  . intro k h1 h2
    have hnew := h.indirect_new k h1 h2
    rw [hsame k hnew]
    exact hnew
  . intro k hk
    by_cases hki : k = i
    . subst hki
      exact Or.inr hneed
    . apply h.indirect_rest
      rw [← hrest k hki]
      exact hk
  . have htaken : job.taken v₀ (v.takeIndirect job.o i b) = insert i (job.taken v₀ v) := by
      ext k
      simp only [taken, Finset.mem_insert, Finset.mem_filter, Finset.mem_univ, true_and]
      by_cases hki : k = i
      . subst hki
        have hnull₀ : (v₀.objects job.o).indirect k = 0#32 := by
          apply Classical.byContradiction
          intro hne
          rw [← h.indirect_old k hne] at hne
          exact hne hnull
        have hb := h.own.ne_zero b hfree
        simp [hself, hnull₀, hb]
      . rw [hrest k hki]
        simp [hki]
    have hmem : i ∉ job.taken v₀ v := by
      simp [taken, hnull]
    have hclear : v.blkBmp.bit b.toNat = false := by
      simpa [Used] using hfree
    have hbmp : (v.takeIndirect job.o i b).blkBmp = v.blkBmp.set b.toNat := rfl
    have hcount := Bitmap.free_set v.blkBmp b.toNat hlt hclear
    have hspent := h.spent
    rw [htaken, Finset.card_insert_of_notMem hmem, hbmp]
    omega
  . intro r hdata hout
    rw [cell_takeIndirect h.own job.o i hnull b hfree r hdata]
    exact h.frame r hdata hout
  . intro s h1 h2
    obtain ⟨blk, hcell, hw⟩ := h.written s h1 h2
    refine ⟨blk, ?_, hw⟩
    rw [cell_takeIndirect h.own job.o i hnull b hfree _ (dataRef_isData _ _)]
    exact hcell

theorem Progress.taken_subset (h : job.Progress v₀ v t) : job.taken v₀ v ⊆ job.missing v₀ := by
  intro i hi
  simp only [taken, missing, Finset.mem_filter, Finset.mem_univ, true_and] at hi ⊢
  exact ⟨(h.indirect_rest i hi.2).resolve_left (fun hne => hne hi.1), hi.1⟩

theorem free_of_full (hown : v.Own) (hfull : v.Full) : v.blkBmp.free = 0 := by
  apply Bitmap.free_eq_zero
  intro k hk
  by_cases hlow : 64 * (resBlocks / 64 - 1) ≤ k
  . exact hfull k hlow hk
  . have hres : k < resBlocks := by omega
    have hk32 : (BitVec.ofNat 32 k).toNat = k := by
      rw [BitVec.toNat_ofNat]
      apply Nat.mod_eq_of_lt
      simp only [resBlocks, blkBmpBlocks, objBlocks] at hres
      omega
    have := hown.reserved_used (BitVec.ofNat 32 k) (by rw [Reserved, hk32]; exact hres)
    rwa [Used, hk32] at this

-- An allocation that fails, for a block of the contents or for a pointer block.
theorem Progress.free_lt_data (h : job.Progress v₀ v t) (ht : t < 4100) (htouched : job.Touched t)
    (hp : v.ptr (dataRef job.o t) = 0#32) (hfull : v.Full)
    : v₀.blkBmp.free < job.need v₀ := by
  have hspent := h.spent
  have htaken := Finset.card_le_card h.taken_subset
  have hsucc := card_fresh_succ v₀ htouched
  have hle := card_fresh_le job v₀ (show t + 1 ≤ 4100 by omega)
  rw [if_pos ((h.ptr_ahead ht).mp hp)] at hsucc
  rw [free_of_full h.own hfull] at hspent
  unfold need
  omega

theorem Progress.free_lt_pointer (h : job.Progress v₀ v t) (ht : t < 4100) (i : Fin 4)
    (hnull : (v.objects job.o).indirect i = 0#32)
    (hneed : 4096 * (4 + 1024 * i.val - job.start) < job.size) (hfull : v.Full)
    : v₀.blkBmp.free < job.need v₀ := by
  have hspent := h.spent
  have hle := card_fresh_le job v₀ (Nat.le_of_lt ht)
  have hnull₀ : (v₀.objects job.o).indirect i = 0#32 := by
    apply Classical.byContradiction
    intro hne
    rw [← h.indirect_old i hne] at hne
    exact hne hnull
  have htaken : (job.taken v₀ v).card < (job.missing v₀).card := by
    apply Finset.card_lt_card
    refine Finset.ssubset_iff_subset_ne.mpr ⟨h.taken_subset, ?_⟩
    intro heq
    have hmem : i ∈ job.missing v₀ := by simp [missing, hneed, hnull₀]
    rw [← heq] at hmem
    simp [taken, hnull] at hmem
  rw [free_of_full h.own hfull] at hspent
  unfold need
  omega

theorem Progress.free_eq (h : job.Progress v₀ v 4100) : v.blkBmp.free + job.need v₀ = v₀.blkBmp.free := by
  have htaken : job.taken v₀ v = job.missing v₀ := by
    apply Finset.Subset.antisymm h.taken_subset
    intro i hi
    simp only [taken, missing, Finset.mem_filter, Finset.mem_univ, true_and] at hi ⊢
    exact ⟨hi.2, h.indirect_new i (by omega) hi.1⟩
  have hspent := h.spent
  rw [htaken] at hspent
  unfold need
  omega

theorem Progress.written_chunk (h : job.Progress v₀ v t) (htouched : job.Touched t)
    (x : Xfer) (hrem : x.remaining = job.size - 4096 * (t - job.start))
    (hshift : x.shift = if t ≤ job.start then job.shift else 0)
    (old temp : Block)
    (hold : ∀ (blk : Block), v.cell (dataRef job.o t) = some blk → old = blk)
    (htemp : job.shift = 0 → temp = job.temp t)
    : job.Written v₀ t (chunk job.buf job.size x old temp) := by
  obtain ⟨hstart, hlt⟩ := htouched
  have hfit := job.fit
  have hcur := curSize_eq x.remaining
  constructor
  . intro q h1 h2
    have hq := q.isLt
    simp only [blockSize] at hq
    unfold chunk
    simp only [Job.pos] at h1 h2 ⊢
    rw [Buf.copy_in]
    . congr 1
      rw [hrem, hshift]
      split
      . omega
      . omega
    . rw [hshift, hcur, hrem]
      split
      . omega
      . omega
  . intro hpos q hout blk₀ hcell
    have hq := q.isLt
    simp only [blockSize] at hq
    simp only [Job.pos] at hout
    -- a shift means that the job is done within its first block
    have htt : t = job.start := by omega
    unfold chunk
    rw [Buf.copy_out]
    . have hxs : 0 < x.shift := by
        rw [hshift]
        simp [htt, hpos]
      have hsame : v.cell (dataRef job.o t) = v₀.cell (dataRef job.o t) := by
        apply h.frame _ (dataRef_isData _ _)
        intro s hs htouched'
        have := htouched'.1
        omega
      rw [hold blk₀ (hsame.trans hcell)]
      simp [hxs]
    . rw [hshift, hcur, hrem]
      simp only [htt, Nat.le_refl, ↓reduceIte]
      omega
  . intro h0 q hout
    have hq := q.isLt
    simp only [blockSize] at hq
    simp only [Job.pos] at hout
    have hxs : x.shift = 0 := by
      rw [hshift, h0, ite_self]
    unfold chunk
    rw [Buf.copy_out]
    . simp [hxs, htemp h0]
    . rw [hxs, hcur, hrem]
      omega

end Job

end ObjStore
