import CS330.ObjStore.Isolation
import CS330.ObjStore.Lemmas.First
import CS330.ObjStore.Lemmas.Overrun

/-!
This module contains what reads deliver after writes: a write is read back, as long as its first chunk
does not cross the end of a block, and an object that grows without holes holds what was written to it.
-/

namespace ObjStore

open View

variable {env : Env} {w w' : World} {o : Slot} {buf : Mem} {size offset : Nat}

theorem startBlock_eq (h : offset ≤ maxSize) : startBlock offset = offset / 4096 := by
  unfold startBlock
  simp only [maxSize, blockSize] at *
  omega

namespace Job.Progress

variable {hfit : InBlock size offset} {v₀ v : View}

theorem byteAt_new (h : (Job.ofWrite o buf size offset hfit).Progress v₀ v 4100)
    (hmax : offset + size ≤ maxSize) (p : Nat) (h1 : offset ≤ p) (h2 : p < offset + size)
    : v.byteAt o p = some (buf (p - offset)) := by
  have hstart : startBlock offset = offset / 4096 := startBlock_eq (by omega)
  have hshift := hfit
  simp only [InBlock, maxSize, blockSize] at hshift hmax
  have htouched : (Job.ofWrite o buf size offset hfit).Touched (p / 4096) := by
    constructor
    . simp only [Job.ofWrite, hstart]
      omega
    . simp only [Job.ofWrite, hstart]
      omega
  obtain ⟨blk, hcell, hw⟩ := h.written (p / 4096) (by omega) htouched
  have hq : p % 4096 < blockSize := Nat.mod_lt _ (by decide)
  have hpos : (Job.ofWrite o buf size offset hfit).pos = offset := by
    simp only [Job.pos, Job.ofWrite, hstart]
    omega
  have hp : 4096 * (p / 4096) + p % 4096 = p := by omega
  have hnew := hw.new ⟨p % 4096, hq⟩
  simp only [hpos, hp] at hnew
  have hbyte := byteAt_eq hcell (p % 4096) hq
  rw [hp, Buf.get_lt _ _ hq, hnew h1 h2] at hbyte
  exact hbyte

theorem byteAt_frame (h : (Job.ofWrite o buf size offset hfit).Progress v₀ v 4100) (p : Nat)
    (hout : ¬ (Job.ofWrite o buf size offset hfit).Touched (p / 4096)) (hp : p / 4096 < 4100)
    : v.byteAt o p = v₀.byteAt o p := by
  unfold View.byteAt
  rw [h.frame _ (dataRef_isData _ _)]
  intro s hs htouched heq
  rw [dataRef_inj hp hs heq] at hout
  exact hout htouched

theorem byteAt_old (h : (Job.ofWrite o buf size offset hfit).Progress v₀ v 4100)
    (hmax : offset + size ≤ maxSize) (hshift : 0 < offset % 4096) (hpos : 0 < size) (p : Nat)
    (hp : p < offset) (hsame : p / 4096 = offset / 4096) (b : Byte) (hb : v₀.byteAt o p = some b)
    : v.byteAt o p = some b := by
  have hstart : startBlock offset = offset / 4096 := startBlock_eq (by omega)
  have htouched : (Job.ofWrite o buf size offset hfit).Touched (p / 4096) := by
    constructor
    . simp only [Job.ofWrite, hstart]
      omega
    . simp only [Job.ofWrite, hstart]
      omega
  obtain ⟨blk, hcell, hw⟩ := h.written (p / 4096) (by simp only [maxSize, blockSize] at hmax; omega) htouched
  have hq : p % 4096 < blockSize := Nat.mod_lt _ (by decide)
  have hpos : (Job.ofWrite o buf size offset hfit).pos = offset := by
    simp only [Job.pos, Job.ofWrite, hstart]
    omega
  have hmod : 4096 * (p / 4096) + p % 4096 = p := by omega
  have hbyte := byteAt_eq hcell (p % 4096) hq
  cases hcell₀ : v₀.cell (dataRef o (p / 4096)) with
  | none => simp [View.byteAt, hcell₀] at hb
  | some blk₀ =>
    have hbyte₀ := byteAt_eq hcell₀ (p % 4096) hq
    have hold := hw.old hshift ⟨p % 4096, hq⟩ (by
      simp only [hpos, hmod]
      omega) blk₀ hcell₀
    rw [hmod, Buf.get_lt _ _ hq] at hbyte hbyte₀
    rw [hold, ← hbyte₀, hb] at hbyte
    exact hbyte

end Job.Progress

theorem View.byteAt_finish (v : View) (o : Slot) (n : BitVec 64) (p : Nat)
    : (v.finish o n).byteAt o p = v.byteAt o p := by
  unfold View.byteAt
  rw [cell_finish]

theorem View.ptr_ne_zero_of_byteAt {v : View} {t : Nat} {b : Byte} (h : v.byteAt o (4096 * t) = some b)
    : v.ptr (dataRef o t) ≠ 0#32 := by
  intro hnull
  have ht : 4096 * t / 4096 = t := by omega
  simp [View.byteAt, View.cell, ht, hnull] at h

-- A read of an object whose blocks are all there, from the first that is asked for up to position `len`,
-- delivers the bytes up to `len`.
theorem objstoreRead_present (hr : env.Reliable) (htag : w.Tagged) (o : Slot) (buf : Mem) (n offset : Nat)
    (hn : n ≤ maxSize) (hfit : InBlock n offset) (len : Nat) (hlen : len ≤ maxSize)
    (hcells : ∀ (t : Nat), offset / 4096 ≤ t → 4096 * t < len → (w.view env).ptr (dataRef o t) ≠ 0#32)
    (hindirects : ∀ (i : Fin 4), 4096 * (4 + 1024 * i.val) < len → (w.objects o).indirect i ≠ 0#32)
    : ∃ (buf' : Mem) (w' : World), objstoreRead env o.id buf n offset w = .ok (n, buf', w')
        ∧ ∀ (p : Nat), offset ≤ p → p < offset + n → p < len
          → (w.view env).byteAt o p = some (buf' (p - offset)) := by
  have hfit' : offset % 4096 + min n 4096 ≤ 4096 := hfit
  by_cases hout : len ≤ offset
  . obtain ⟨buf', w', heq⟩ := objstoreRead_returnsSize hr htag o buf n offset hn hfit
    refine ⟨buf', w', heq, ?_⟩
    intro p h1 _ h3
    omega
  . have hstart : startBlock offset = offset / 4096 := startBlock_eq (by omega)
    have hlen' : len ≤ 4096 * 4100 := hlen
    let job : Fetch :=
      ⟨o, n, offset / 4096, offset % 4096, (len + 4095) / 4096 - offset / 4096, hfit', by omega⟩
    have hpres : job.Present (w.view env) := by
      refine ⟨?_, ?_⟩
      . intro t h1 h2
        simp only [job] at h1 h2
        exact hcells t h1 (by omega)
      . intro i _ h2
        simp only [job] at h2
        exact hindirects i (by omega)
    obtain ⟨buf', w', heq, -, hbytes⟩ :=
      objstoreRead_bytes hr htag buf offset job hn hstart.symm rfl hpres
    refine ⟨buf', w', heq, ?_⟩
    intro p h1 h2 h3
    have hp := hbytes (p - offset) (by
      simp only [Fetch.lim, job]
      omega)
    have hpos : 4096 * (offset / 4096) + offset % 4096 + (p - offset) = p := by omega
    simp only [job, hpos] at hp
    exact hp

theorem objstoreRead_written (hr : env.Reliable) (htag : w'.Tagged) {v₀ v : View} {n : BitVec 64}
    (hfit : InBlock size offset) (hpos : 1 ≤ size) (hmax : offset + size ≤ maxSize)
    (hprog : (Job.ofWrite o buf size offset hfit).Progress v₀ v 4100) (hview : w'.view env = v.finish o n)
    (dst : Mem)
    : ∃ (buf' : Mem) (u : World), objstoreRead env o.id dst size offset w' = .ok (size, buf', u)
        ∧ ∀ (k : Nat), k < size → buf' k = buf k := by
  have hstart : startBlock offset = offset / 4096 := startBlock_eq (by omega)
  have hfit' : offset % 4096 + min size 4096 ≤ 4096 := hfit
  have hmax' : offset + size ≤ 4096 * 4100 := hmax
  have hbyte : ∀ (p : Nat), offset ≤ p → p < offset + size
      → (w'.view env).byteAt o p = some (buf (p - offset)) := by
    intro p h1 h2
    rw [hview, byteAt_finish]
    exact hprog.byteAt_new hmax p h1 h2
  have hcells : ∀ (t : Nat), offset / 4096 ≤ t → 4096 * t < offset + size
      → (w'.view env).ptr (dataRef o t) ≠ 0#32 := by
    intro t h1 h2 hnull
    obtain ⟨blk, hcell, -⟩ := hprog.written t (by omega) (by
      simp only [Job.Touched, Job.ofWrite, hstart]
      omega)
    have hcell' : (w'.view env).cell (dataRef o t) = some blk := by
      rw [hview, cell_finish]
      exact hcell
    simp [View.cell, hnull] at hcell'
  have hindirects : ∀ (i : Fin 4), 4096 * (4 + 1024 * i.val) < offset + size
      → (w'.objects o).indirect i ≠ 0#32 := by
    intro i hi
    have hind := hprog.indirect_new i (by omega) (by
      simp only [Job.ofWrite, hstart]
      omega)
    have hobj : w'.objects o = { v.objects o with size := n } := by
      have := congrFun (congrArg View.objects hview) o
      simpa [View.finish, View.edit, View.setObj, World.view] using this
    rw [hobj]
    exact hind
  obtain ⟨buf', u, heq, hbytes⟩ := objstoreRead_present hr htag o dst size offset (by omega) hfit
    (offset + size) hmax hcells hindirects
  refine ⟨buf', u, heq, ?_⟩
  intro k hk
  have h1 := hbytes (offset + k) (by omega) (by omega) (by omega)
  have h2 := hbyte (offset + k) (by omega) (by omega)
  rw [h1, Nat.add_sub_cancel_left] at h2
  exact Option.some.inj h2

/--
What the caller of a write relies on: it stays within `temp`, and if it reports success then so does the
read that follows it, which gives back the bytes written.
-/
def ReadAfterWrite (env : Env) (w : World) (o : Slot) (buf : Mem) (size offset : Nat) : Prop :=
  objstoreWrite env o.id buf size offset w ≠ .error .tempOverrun
    ∧ ∀ (w' : World), objstoreWrite env o.id buf size offset w = .ok (size, w')
      → ∀ (dst : Mem), ∃ (buf' : Mem) (u : World),
          objstoreRead env o.id dst size offset w' = .ok (size, buf', u)
          ∧ ∀ (k : Nat), k < size → buf' k = buf k

theorem World.Ok.readAfterWrite (hr : env.Reliable) (hok : w.Ok env) (o : Slot) (buf : Mem)
    (size offset : Nat) (hpos : 1 ≤ size) (hmax : offset + size ≤ maxSize) (hfit : InBlock size offset)
    (hspace : ∀ (r : Int) (w' : World), objstoreWrite env o.id buf size offset w = .ok (r, w')
      → ¬ w'.Exhausted)
    : ReadAfterWrite env w o buf size offset := by
  obtain ⟨w', hwrite, htag, hcase⟩ := objstoreWrite_spec hr hok o buf size offset (by omega) hfit
  refine ⟨?_, ?_⟩
  . rw [hwrite]
    exact fun heq => by cases heq
  . intro w'' hwrite'
    rw [hwrite] at hwrite'
    cases hwrite'
    cases hcase with
    | inl hfull => exact absurd hfull (hspace _ _ hwrite)
    | inr hgood =>
      obtain ⟨-, v, hprog, hview⟩ := hgood
      intro dst
      exact objstoreRead_written hr htag hfit hpos hmax hprog hview dst

/-- Writes are read back exactly when their first chunk does not cross the end of a block. -/
theorem readAfterWrite_iff (hr : env.Reliable) {disk : BlockNo → Block} (hown : (diskView disk).Own)
    (h : Reaches env disk w) (o : Slot) (buf : Mem) (size offset : Nat) (hpos : 1 ≤ size)
    (hmax : offset + size ≤ maxSize)
    (hspace : ∀ (r : Int) (w' : World), objstoreWrite env o.id buf size offset w = .ok (r, w')
      → ¬ w'.Exhausted)
    : ReadAfterWrite env w o buf size offset ↔ offset % blockSize + min size blockSize ≤ blockSize := by
  have hok := h.ok hr hown
  constructor
  . rintro ⟨hover, -⟩
    apply Classical.byContradiction
    intro hcross
    apply hover
    apply objstoreWrite_overrun hr hok.tagged o buf size offset (by omega) (by omega)
    . rw [startBlock_eq (by omega)]
      simp only [maxSize, blockSize] at hmax
      omega
    . rw [curSize_eq]
      simp only [blockSize] at *
      omega
  . intro hfit
    exact hok.readAfterWrite hr o buf size offset hpos hmax hfit hspace

theorem World.Started.write (h : w.Started (steady true) o) (buf : Mem) (size : Nat) (hpos : 0 < size)
    (hsize : size ≤ 4096)
    : ∃ (w' : World), objstoreWrite (steady true) o.id buf size 0 w = .ok (size, w') ∧ ¬ w'.Exhausted
        ∧ (∀ (b : BlockNo), b ≠ 0#32 → w'.disk b = Buf.zero blockSize)
        ∧ Event.writeBlock 0#32 true ∈ w'.log := by
  have hspare : w.Spare := by
    refine ⟨resBlocks, by decide, by decide, ?_⟩
    rw [h.blkBmp_eq, bit_diskBmp_blank]
    simp
  have hfree := h.reaches.not_exhausted (steady_reliable true)
  obtain ⟨w', hwrite, hfree', hdisk, hevent⟩ := objstoreWrite_first (steady_reliable true) rfl o buf size hpos
    hsize (h.direct_eq 0) hspare hfree h.cacheInfo_eq
  refine ⟨w', hwrite, hfree', ?_, hevent⟩
  intro b hb
  rw [hdisk b hb, h.disk_eq]
  rfl

theorem readAfterWrite_started
    : ∃ (w : World) (o : Slot), w.Started (steady true) o
        ∧ ReadAfterWrite (steady true) w o (fun _ => 1#8) 100 0 := by
  obtain ⟨w, o, hstarted⟩ := exists_started true
  obtain ⟨w', hwrite, hfree, -⟩ := hstarted.write (fun _ => 1#8) 100 (by decide) (by decide)
  refine ⟨w, o, hstarted, ?_⟩
  rw [readAfterWrite_iff (steady_reliable true) own_blank hstarted.reaches o _ 100 0 (by decide)
    (by decide)]
  . decide
  . intro r u heq
    rw [hwrite] at heq
    cases heq
    exact hfree

-- One block of bytes written at position 1 does not fit behind the shift.
theorem not_readAfterWrite_started
    : ∃ (w : World) (o : Slot), w.Started (steady true) o
        ∧ objstoreWrite (steady true) o.id (fun _ => 1#8) 4096 1 w = .error .tempOverrun
        ∧ ¬ ReadAfterWrite (steady true) w o (fun _ => 1#8) 4096 1 := by
  have hr := steady_reliable true
  obtain ⟨w, o, hstarted⟩ := exists_started true
  have hover : objstoreWrite (steady true) o.id (fun _ => 1#8) 4096 1 w = .error .tempOverrun := by
    apply objstoreWrite_overrun hr (hstarted.reaches.ok hr own_blank).tagged
    . decide
    . decide
    . decide
    . decide
  exact ⟨w, o, hstarted, hover, fun h => h.1 hover⟩

end ObjStore
