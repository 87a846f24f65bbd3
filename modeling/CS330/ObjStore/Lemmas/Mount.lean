import CS330.ObjStore.Lemmas.Object
import CS330.ObjStore.Lemmas.Tables

/-!
This module contains what `objstore_init` loads, what `objstore_destroy` stores, and that a store comes
back unchanged from one followed by the other.
-/

namespace ObjStore

open View

/-- The world that `objstore_init` makes of the disk of `w`. -/
structure World.Mounted (w w' : World) : Prop where
  objects_eq : w'.objects = diskObj w.disk
  objBmp_eq : w'.objBmp = Bitmap.zero objBmpLn
  blkBmp_eq : w'.blkBmp = diskBmp w.disk
  cacheInfo_eq : w'.cacheInfo = fun _ => 0#32
  disk_eq : w'.disk = w.disk
  exhausted : w'.Exhausted ↔ w.Exhausted

variable {env : Env} {w w' : World}

theorem World.disk_ofDisk (disk : BlockNo → Block) : (World.ofDisk disk).disk = disk := rfl

namespace objstoreInit

theorem bitmap_spec (hr : env.Reliable) (bufs : Fin blkBmpBlocks → Block)
    : ∃ (bufs' : Fin blkBmpBlocks → Block) (log : List Event),
        Loop.run (bitmap env) (Loop.range blkBmpBlocks) (bufs, w)
          = .ok (.next (bufs', { w with log := log }))
        ∧ (∀ (i : Fin blkBmpBlocks), bufs' i = w.disk (bmpBlockNo i)) ∧ w.Logged log := by
  let P (k : Nat) (s : (Fin blkBmpBlocks → Block) × World) : Prop :=
    (∀ (i : Fin blkBmpBlocks), i.val < k → s.1 i = w.disk (bmpBlockNo i))
      ∧ ∃ (log : List Event), s.2 = { w with log := log } ∧ w.Logged log
  let Q (r : Except Fault (Loop.Flow Int ((Fin blkBmpBlocks → Block) × World))) : Prop :=
    ∃ (bufs' : Fin blkBmpBlocks → Block) (log : List Event),
      r = .ok (.next (bufs', { w with log := log }))
      ∧ (∀ (i : Fin blkBmpBlocks), bufs' i = w.disk (bmpBlockNo i)) ∧ w.Logged log
  have hrun : Q (Loop.run (bitmap env) (Loop.range blkBmpBlocks) (bufs, w)) := by
    apply Loop.run_inv (P := P)
    . rintro i ⟨bufs, u⟩ ⟨hbufs, log, rfl, hlog⟩
      simp only [bitmap, readBlock_eq hr]
      refine ⟨?_, .readBlock (bmpBlockNo i) true :: log, rfl, ?_⟩
      . intro k hk
        by_cases hki : k = i
        . subst hki
          simp
        . have : k.val ≠ i.val := fun h => hki (Fin.ext h)
          simp only [Function.update_of_ne hki]
          exact hbufs k (by omega)
      . exact hlog.cons _ (by simp)
    . rintro ⟨bufs, u⟩ ⟨hbufs, log, rfl, hlog⟩
      exact ⟨bufs, log, rfl, fun i => hbufs i i.isLt, hlog⟩
    . refine ⟨?_, w.log, rfl, Iff.rfl⟩
      intro i hi
      omega
  exact hrun

def loaded (disk : BlockNo → Block) (objects : Slot → Obj) (k : Nat) : Slot → Obj :=
  fun o => if (objBlock o).val < k then diskObj disk o else objects o

theorem objects_spec (hr : env.Reliable)
    : ∃ (log : List Event),
        Loop.run (objects env) (Loop.range objBlocks) w
          = .ok (.next { w with objects := diskObj w.disk, log := log })
        ∧ w.Logged log := by
  let P (k : Nat) (u : World) : Prop :=
    ∃ (log : List Event), u = { w with objects := loaded w.disk w.objects k, log := log }
      ∧ w.Logged log
  let Q (r : Except Fault (Loop.Flow Int World)) : Prop :=
    ∃ (log : List Event), r = .ok (.next { w with objects := diskObj w.disk, log := log })
      ∧ w.Logged log
  have hrun : Q (Loop.run (objects env) (Loop.range objBlocks) w) := by
    apply Loop.run_inv (P := P)
    . rintro i u ⟨log, rfl, hlog⟩
      simp only [objects, readBlock_eq hr]
      refine ⟨.readBlock (objBlockNo i) true :: log, ?_, ?_⟩
      . simp only [World.emit]
        congr 1
        funext o
        simp only [decodeObjs, loaded]
        by_cases ho : o.val / objPerBlock = i.val
        . have hi : objBlock o = i := Fin.ext ho
          simp [ho, hi, diskObj]
        . have hlt : (objBlock o).val < i.val + 1 ↔ (objBlock o).val < i.val := by
            have : (objBlock o).val ≠ i.val := ho
            omega
          simp only [ho, ↓reduceIte, hlt]
      . exact hlog.cons _ (by simp)
    . rintro u ⟨log, rfl, hlog⟩
      refine ⟨log, ?_, hlog⟩
      have : loaded w.disk w.objects objBlocks = diskObj w.disk := by
        funext o
        simp only [loaded, (objBlock o).isLt, ↓reduceIte]
      rw [this]
    . refine ⟨w.log, ?_, Iff.rfl⟩
      have : loaded w.disk w.objects 0 = w.objects := by
        funext o
        simp [loaded]
      rw [this]
  exact hrun

end objstoreInit

theorem objstoreInit_spec (hr : env.Reliable) (w : World)
    : ∃ (w' : World), objstoreInit env w = .ok (0, w') ∧ w.Mounted w' := by
  unfold objstoreInit
  simp only [cmalloc_eq hr]
  let w₁ : World := { w with
    objects := fun _ => Obj.zero
    objBmp := Bitmap.zero objBmpLn
    blkBmp := Bitmap.zero blkBmpLn
    cacheInfo := fun _ => 0#32
    log := .cmalloc true :: .cmalloc true :: w.log }
  obtain ⟨bufs, log, hrun, hbufs, hlog⟩ :=
    objstoreInit.bitmap_spec (w := w₁) hr (fun _ => Buf.zero blockSize)
  have hbufs' : bufs = fun i => w.disk (bmpBlockNo i) := funext hbufs
  obtain ⟨log', hrun', hlog'⟩ := objstoreInit.objects_spec
    (w := { w₁ with blkBmp := markReserved (decodeBmp bufs), log := log }) hr
  have hlog₁ : Event.noSpace ∈ log' ↔ w.Exhausted := by
    apply Iff.trans hlog'
    apply Iff.trans hlog
    simp [w₁, World.Exhausted]
  have hbitmap : Loop.run (objstoreInit.bitmap env) (Loop.range blkBmpBlocks)
      (fun _ => Buf.zero blockSize, { w.emit (.cmalloc true) with
        objects := fun _ => Obj.zero
        objBmp := Bitmap.zero objBmpLn
        blkBmp := Bitmap.zero blkBmpLn
        cacheInfo := fun _ => 0#32 }.emit (.cmalloc true)) = .ok (.next (bufs, { w₁ with log := log })) :=
    hrun
  rw [hbitmap]
  simp only [bind, Except.bind]
  rw [hrun']
  by_cases hc : env.cached = true
  . simp only [hc, ↓reduceIte]
    refine ⟨_, rfl, rfl, rfl, ?_, rfl, rfl, hlog₁⟩
    rw [diskBmp, ← hbufs']
  . simp only [hc]
    refine ⟨_, rfl, rfl, rfl, ?_, rfl, rfl, hlog₁⟩
    rw [diskBmp, ← hbufs']

theorem World.Mounted.tagged (h : w.Mounted w') : w'.Tagged := by
  intro i hi
  rw [h.cacheInfo_eq] at hi
  exact absurd rfl hi

theorem World.Mounted.ok (h : w.Mounted w') (hown : (w'.view env).Own) : w'.Ok env where
  tagged := h.tagged
  noTable := by
    intro i hi
    rw [h.cacheInfo_eq] at hi
    exact absurd rfl hi
  own := hown

structure World.SameTables (w w' : World) : Prop where
  objects_eq : w'.objects = w.objects
  objBmp_eq : w'.objBmp = w.objBmp
  blkBmp_eq : w'.blkBmp = w.blkBmp

theorem World.SameTables.trans {w w' w'' : World} (h : w.SameTables w') (h' : w'.SameTables w'')
    : w.SameTables w'' :=
  ⟨h'.objects_eq.trans h.objects_eq, h'.objBmp_eq.trans h.objBmp_eq, h'.blkBmp_eq.trans h.blkBmp_eq⟩

theorem World.SameTables.write (h : w.SameTables w') (disk : BlockNo → Block)
    (cacheInfo : Fin cacheLen → BlockNo) (log : List Event)
    : w.SameTables { w' with disk := disk, cacheInfo := cacheInfo, log := log } where
  objects_eq := h.objects_eq
  objBmp_eq := h.objBmp_eq
  blkBmp_eq := h.blkBmp_eq

namespace objstoreDestroy

-- The flush of the empty slots: all that it changes on the disk is block 0.
theorem flush_spec (hr : env.Reliable) (w : World)
    : ∃ (w' : World),
        Loop.run (flush env) (Loop.range cacheLen) w = .ok (.next w')
        ∧ w.SameTables w' ∧ ∀ (b : BlockNo), b ≠ 0#32 → w'.disk b = w.disk b := by
  let P (_ : Nat) (u : World) : Prop :=
    w.SameTables u ∧ ∀ (b : BlockNo), b ≠ 0#32 → u.disk b = w.disk b
  let Q (r : Except Fault (Loop.Flow Int World)) : Prop :=
    ∃ (w' : World), r = .ok (.next w') ∧ P 0 w'
  have hrun : Q (Loop.run (flush env) (Loop.range cacheLen) w) := by
    apply Loop.run_inv (P := P)
    . rintro i u ⟨hsame, hdisk⟩
      unfold flush
      by_cases hempty : u.cacheInfo i = 0#32
      . rw [if_pos hempty, flushChBlk_eq hr, hempty]
        refine ⟨hsame.write _ _ _, ?_⟩
        intro b hb
        simp only [Function.update_of_ne hb]
        exact hdisk b hb
      . rw [if_neg hempty]
        exact ⟨hsame, hdisk⟩
    . intro u hu
      exact ⟨u, rfl, hu⟩
    . exact ⟨⟨rfl, rfl, rfl⟩, fun _ _ => rfl⟩
  exact hrun

theorem flushAll_spec (hr : env.Reliable) (w : World)
    : ∃ (w' : World),
        flushAll env w = .ok (.next w')
        ∧ w.SameTables w' ∧ ∀ (b : BlockNo), b ≠ 0#32 → w'.disk b = w.disk b := by
  unfold flushAll
  by_cases hc : env.cached = true
  . rw [if_pos hc]
    exact flush_spec hr w
  . rw [if_neg hc]
    exact ⟨w, rfl, ⟨rfl, rfl, rfl⟩, fun _ _ => rfl⟩

theorem bitmap_spec (hr : env.Reliable) (w : World)
    : ∃ (w' : World),
        Loop.run (bitmap env) (Loop.range blkBmpBlocks) w = .ok (.next w')
        ∧ w.SameTables w'
        ∧ (∀ (i : Fin blkBmpBlocks), w'.disk (bmpBlockNo i) = encodeBmp w.blkBmp i)
        ∧ ∀ (b : BlockNo), blkBmpBlocks ≤ b.toNat → w'.disk b = w.disk b := by
  let P (k : Nat) (u : World) : Prop :=
    w.SameTables u
      ∧ (∀ (i : Fin blkBmpBlocks), i.val < k → u.disk (bmpBlockNo i) = encodeBmp w.blkBmp i)
      ∧ ∀ (b : BlockNo), blkBmpBlocks ≤ b.toNat → u.disk b = w.disk b
  let Q (r : Except Fault (Loop.Flow Int World)) : Prop :=
    ∃ (w' : World), r = .ok (.next w') ∧ P blkBmpBlocks w'
  have hrun : Q (Loop.run (bitmap env) (Loop.range blkBmpBlocks) w) := by
    apply Loop.run_inv (P := P)
    . rintro i u ⟨hsame, hdone, hdisk⟩
      simp only [bitmap, writeBlock_eq hr]
      refine ⟨hsame.write _ _ _, ?_, ?_⟩
      . intro k hk
        simp only [World.emit, Function.update_apply, hsame.blkBmp_eq]
        by_cases hki : k = i
        . simp [hki]
        . have hne : bmpBlockNo k ≠ bmpBlockNo i := by
            intro heq
            apply hki
            apply Fin.ext
            rw [← toNat_bmpBlockNo, heq, toNat_bmpBlockNo]
          have : k.val ≠ i.val := fun h => hki (Fin.ext h)
          rw [if_neg hne]
          exact hdone k (by omega)
      . intro b hb
        have hne : b ≠ bmpBlockNo i := by
          rintro rfl
          rw [toNat_bmpBlockNo] at hb
          omega
        simp only [World.emit, Function.update_of_ne hne]
        exact hdisk b hb
    . intro u hu
      exact ⟨u, rfl, hu⟩
    . refine ⟨⟨rfl, rfl, rfl⟩, ?_, fun _ _ => rfl⟩
      intro i hi
      omega
  obtain ⟨w', heq, hsame, hdone, hdisk⟩ := hrun
  exact ⟨w', heq, hsame, fun i => hdone i i.isLt, hdisk⟩

-- What the block of inodes `i` holds afterwards.
def Stored (w w' : World) (i : Fin objBlocks) : Prop :=
  (∃ (buf : Block), w'.disk (objBlockNo i) = encodeObjs i w.objects buf)
    ∨ (dirty w i = false ∧ w'.disk (objBlockNo i) = w.disk (objBlockNo i))

theorem dirty_congr {w' : World} (h : w'.objBmp = w.objBmp) (i : Fin objBlocks)
    : dirty w' i = dirty w i := by
  unfold dirty
  rw [h]

theorem objects_spec (hr : env.Reliable) (w : World) (buf : Block)
    : ∃ (buf' : Block) (w' : World),
        Loop.run (objects env) (Loop.range objBlocks) (buf, w) = .ok (.next (buf', w'))
        ∧ w.SameTables w' ∧ (∀ (i : Fin objBlocks), Stored w w' i)
        ∧ ∀ (b : BlockNo), b.toNat < blkBmpBlocks ∨ resBlocks ≤ b.toNat → w'.disk b = w.disk b := by
  let P (k : Nat) (s : Block × World) : Prop :=
    w.SameTables s.2 ∧ (∀ (i : Fin objBlocks), i.val < k → Stored w s.2 i)
      ∧ ∀ (b : BlockNo), b.toNat < blkBmpBlocks ∨ blkBmpBlocks + k ≤ b.toNat → s.2.disk b = w.disk b
  let Q (r : Except Fault (Loop.Flow Int (Block × World))) : Prop :=
    ∃ (buf' : Block) (w' : World), r = .ok (.next (buf', w')) ∧ P objBlocks (buf', w')
  have hrun : Q (Loop.run (objects env) (Loop.range objBlocks) (buf, w)) := by
    apply Loop.run_inv (P := P)
    . rintro i ⟨buf, u⟩ ⟨hsame, hdone, hdisk⟩
      have hself := toNat_objBlockNo i
      have hobj : u.objects = w.objects := hsame.objects_eq
      unfold objects
      by_cases hdirty : dirty u i = true
      . simp only [hdirty, ↓reduceIte, writeBlock_eq hr]
        refine ⟨hsame.write _ _ _, ?_, ?_⟩
        . intro k hk
          by_cases hki : k = i
          . subst hki
            left
            refine ⟨buf, ?_⟩
            simp only [World.emit, Function.update_self, hobj]
          . have hne : objBlockNo k ≠ objBlockNo i := by
              intro heq
              apply hki
              apply Fin.ext
              have h1 := toNat_objBlockNo k
              rw [heq, hself] at h1
              omega
            have : k.val ≠ i.val := fun h => hki (Fin.ext h)
            have hold := hdone k (by omega)
            unfold Stored at hold ⊢
            simp only [World.emit, Function.update_of_ne hne]
            exact hold
        . intro b hb
          have hne : b ≠ objBlockNo i := by
            rintro rfl
            rw [hself] at hb
            omega
          simp only [World.emit, Function.update_of_ne hne]
          exact hdisk b (by omega)
      . simp only [hdirty]
        refine ⟨hsame, ?_, ?_⟩
        . intro k hk
          by_cases hki : k = i
          . subst hki
            right
            refine ⟨?_, ?_⟩
            . rw [← dirty_congr hsame.objBmp_eq]
              simpa using hdirty
            . apply hdisk
              omega
          . have : k.val ≠ i.val := fun h => hki (Fin.ext h)
            exact hdone k (by omega)
        . intro b hb
          exact hdisk b (by omega)
    . rintro ⟨buf', u⟩ hu
      exact ⟨buf', u, rfl, hu⟩
    . refine ⟨⟨rfl, rfl, rfl⟩, ?_, fun _ _ => rfl⟩
      intro i hi
      omega
  obtain ⟨buf', w', heq, hsame, hdone, hdisk⟩ := hrun
  refine ⟨buf', w', heq, hsame, fun i => hdone i i.isLt, ?_⟩
  intro b hb
  apply hdisk
  simp only [resBlocks] at hb
  exact hb

end objstoreDestroy

/-- What `objstore_destroy` has put on the disk. -/
structure World.Unmounted (w w' : World) : Prop where
  bitmap : ∀ (i : Fin blkBmpBlocks), w'.disk (bmpBlockNo i) = encodeBmp w.blkBmp i
  objects : ∀ (i : Fin objBlocks), objstoreDestroy.Stored w w' i
  data : ∀ (b : BlockNo), resBlocks ≤ b.toNat → w'.disk b = w.disk b

theorem objstoreDestroy_spec (hr : env.Reliable) (w : World)
    : ∃ (w' : World), objstoreDestroy env w = .ok (0, w') ∧ w.Unmounted w' := by
  obtain ⟨w₀, hrun₀, hsame₀, hdisk₀⟩ := objstoreDestroy.flushAll_spec hr w
  obtain ⟨w₁, hrun₁, hsame₁, hbmp₁, hdisk₁⟩ :=
    objstoreDestroy.bitmap_spec hr (w₀.emit (.cmalloc true))
  obtain ⟨buf, w₂, hrun₂, hsame₂, hobj₂, hdisk₂⟩ :=
    objstoreDestroy.objects_spec hr w₁ (encodeBmp w₁.blkBmp 0)
  have hemit : w₀.SameTables (w₀.emit (.cmalloc true)) := ⟨rfl, rfl, rfl⟩
  have hsame := hsame₀.trans (hemit.trans hsame₁)
  refine ⟨w₂, ?_, ?_, ?_, ?_⟩
  . unfold objstoreDestroy
    simp only [hrun₀, bind, Except.bind, cmalloc_eq hr, hrun₁, hrun₂]
    rfl
  . intro i
    rw [hdisk₂ _ (Or.inl (by rw [toNat_bmpBlockNo]; exact i.isLt)), hbmp₁ i]
    exact congrArg (fun m => encodeBmp m i) hsame₀.blkBmp_eq
  . intro i
    have hnat := toNat_objBlockNo i
    have hne : objBlockNo i ≠ 0#32 := by
      intro heq
      rw [heq] at hnat
      simp at hnat
    cases hobj₂ i with
    | inl h =>
      obtain ⟨buf, hbuf⟩ := h
      rw [hsame.objects_eq] at hbuf
      exact Or.inl ⟨buf, hbuf⟩
    | inr h =>
      obtain ⟨hclean, hdisk⟩ := h
      right
      refine ⟨?_, ?_⟩
      . rw [← objstoreDestroy.dirty_congr hsame.objBmp_eq]
        exact hclean
      . rw [hdisk, hdisk₁ _ (by omega)]
        exact hdisk₀ _ hne
  . intro b hb
    have hne : b ≠ 0#32 := by
      rintro rfl
      simp at hb
    have hge : blkBmpBlocks ≤ b.toNat := by
      simp only [resBlocks, blkBmpBlocks] at hb ⊢
      omega
    rw [hdisk₂ b (Or.inr hb), hdisk₁ b hge]
    exact hdisk₀ b hne

/-- Every object that is not marked dirty is on the disk. -/
def View.Clean (v : View) : Prop :=
  ∀ (o : Slot), v.objBmp.bit o = false → v.objects o = diskObj v.data o

theorem World.NoTable.data_eq (h : w.NoTable) (b : BlockNo) (hb : b ≠ 0#32) (hres : b.toNat < resBlocks)
    : (w.view env).data b = w.disk b := by
  rw [World.view_data _ _ _ hb]
  unfold World.look
  split
  . unfold DirectMapped.look
    rw [if_neg]
    intro hhit
    have hne : w.cacheInfo (cacheIndex b) ≠ 0#32 := by
      rw [hhit]
      exact hb
    have := h _ hne
    rw [hhit] at this
    omega
  . rfl

theorem World.NoTable.diskObj_eq (h : w.NoTable) (o : Slot)
    : diskObj (w.view env).data o = diskObj w.disk o := by
  have hnat := toNat_objBlockNo (objBlock o)
  have hlt := (objBlock o).isLt
  have hdata : (w.view env).data (objBlockNo (objBlock o)) = w.disk (objBlockNo (objBlock o)) := by
    apply h.data_eq
    . intro heq
      rw [heq] at hnat
      simp at hnat
    . simp only [resBlocks, blkBmpBlocks, objBlocks] at *
      omega
  unfold diskObj
  rw [hdata]

/-- The world after `objstore_destroy` and, in a new process, `objstore_init`. -/
structure World.Remounted (w w' : World) : Prop where
  objects_eq : w'.objects = w.objects
  blkBmp_eq : w'.blkBmp = w.blkBmp
  objBmp_eq : w'.objBmp = Bitmap.zero objBmpLn
  cacheInfo_eq : w'.cacheInfo = fun _ => 0#32
  data : ∀ (b : BlockNo), resBlocks ≤ b.toNat → w'.disk b = w.disk b
  clean : w'.objects = diskObj w'.disk

/-- Unmounting and mounting again gives back both tables and keeps every other block of the disk. -/
theorem World.Unmounted.remounted (hok : w.Ok env) (hclean : (w.view env).Clean) {w₁ w₂ : World}
    (h₁ : w.Unmounted w₁) (h₂ : (World.ofDisk w₁.disk).Mounted w₂)
    : w.Remounted w₂ where
  objects_eq := by
    rw [h₂.objects_eq, World.disk_ofDisk]
    funext o
    cases h₁.objects (objBlock o) with
    | inl h =>
      obtain ⟨buf, hbuf⟩ := h
      exact diskObj_encodeObjs w₁.disk o w.objects buf hbuf
    | inr h =>
      obtain ⟨hdirty, hdisk⟩ := h
      have hbit := dirty_eq_false w _ hdirty o rfl
      have := hclean o hbit
      rw [hok.noTable.diskObj_eq] at this
      have hobj : (w.view env).objects o = w.objects o := rfl
      rw [← hobj, this]
      unfold diskObj
      rw [hdisk]
  blkBmp_eq := by
    rw [h₂.blkBmp_eq, World.disk_ofDisk]
    have hblocks : (fun i => w₁.disk (bmpBlockNo i)) = encodeBmp w.blkBmp := funext h₁.bitmap
    unfold diskBmp
    rw [hblocks, decodeBmp_encodeBmp]
    apply markReserved_eq
    intro n hn
    have hlt : n < 2 ^ 32 := by
      simp only [resBlocks, blkBmpBlocks, objBlocks] at hn
      omega
    have hnat : (BitVec.ofNat 32 n).toNat = n := by
      rw [BitVec.toNat_ofNat]
      exact Nat.mod_eq_of_lt hlt
    have hres : View.Reserved (BitVec.ofNat 32 n) := by
      unfold View.Reserved
      rw [hnat]
      exact hn
    have hused := hok.own.reserved_used _ hres
    unfold View.Used at hused
    rw [hnat] at hused
    exact hused
  objBmp_eq := h₂.objBmp_eq
  cacheInfo_eq := h₂.cacheInfo_eq
  data := by
    intro b hb
    rw [h₂.disk_eq]
    exact h₁.data b hb
  clean := by
    rw [h₂.disk_eq]
    exact h₂.objects_eq

end ObjStore
