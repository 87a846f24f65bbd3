import CS330.ObjStore.Lemmas.Draining
import CS330.ObjStore.Lemmas.Rules
import CS330.ObjStore.Remount

/-!
This module contains what comes back from the disk after block transfers have failed, in the build without a
cache. A block that an inode refers to is in use after the next mount, provided that no destruction was given
up after it had freed blocks, and that no pointer block was taken for one that never got its contents.
-/

namespace ObjStore

open View

variable {env env' : Env} {w w' : World} {disk : BlockNo → Block}

-- keys that fit into the key field, and ids of objects that exist
def Op.Fits (w : World) : Op → Prop
  | .create key => key.len < keySize
  | .find key => key.len < keySize
  | .rename key newname => key.len < keySize ∧ newname.len < keySize
  | .destroy key => key.len < keySize
  | .write objid _ _ _ => w.Live objid
  | .read objid _ _ _ => w.Live objid

/--
A call in whose course block transfers may fail. Pages can be had, and there is a free block whenever one
is needed.
-/
def FaultyStep (env : Env) (w : World) (c : Op × Reply) (w' : World) : Prop :=
  c.1.Fits w ∧ c.1.exec env w = .ok (c.2, w') ∧ ¬ w'.Exhausted ∧ Event.cmalloc false ∉ w.since w'

/--
The pointer blocks that a call goes through have sensible contents, and a destruction whose object is not
marked as changed fails to read a pointer block only as long as its inode on the disk refers to none of the
blocks freed by then.
-/
def Op.Careful (w w' : World) : Op → Prop
  | .destroy key => ∀ (o : Slot), findObject key w = some o → (w.objects o).size ≠ 0#64
      → w.Proper o
        ∧ ∀ (i : Fin 4), Event.readBlock ((w.objects o).indirect i) false ∈ w.since w'
          → objstoreDestroy.dirty w (objBlock o) = true
            ∨ ((∀ (k : Fin 4), (diskObj w.disk o).direct k = 0#32)
              ∧ ∀ (k : Fin 4), k < i → (diskObj w.disk o).indirect k = 0#32)
  | .write objid _ _ _ => ∀ (o : Slot), objid = o.id → w.Proper o
  | _ => True

def CarefulStep (env : Env) (w : World) (c : Op × Reply) (w' : World) : Prop :=
  FaultyStep env w c w' ∧ c.1.Careful w w'

/-- Every block in `direct[]` or `indirect[]` of a live object is marked in the block bitmap. -/
def World.Referenced (w : World) : Prop :=
  ∀ (o : Slot), (w.objects o).size ≠ 0#64
    → (∀ (i : Fin 4), (w.objects o).direct i ≠ 0#32 → w.blkBmp.bit ((w.objects o).direct i).toNat = true)
      ∧ (∀ (i : Fin 4), (w.objects o).indirect i ≠ 0#32
        → w.blkBmp.bit ((w.objects o).indirect i).toNat = true)

theorem World.Sound.referenced (h : w.Sound) : w.Referenced := by
  intro o _
  constructor
  . intro i hne
    exact h.ptr_used (o, .direct i) hne
  . intro i hne
    exact h.ptr_used (o, .indirect i) hne

/-! What the calls keep. -/

theorem World.Restorable.same (hw : w.Restorable) (hsame : w.SameTables w') (hdisk : w'.disk = w.disk)
    : w'.Restorable := by
  apply hw.edit _ hsame.blkBmp_eq _ hdisk
  . exact World.held_congr hsame.objects_eq
  . intro i hclean
    rw [objstoreDestroy.dirty_congr hsame.objBmp_eq] at hclean
    exact hclean

theorem createObject_restorable {key : CStr} {r : Int} (hkey : key.len < keySize) (hw : w.Restorable)
    (h : createObject key w = .ok (r, w'))
    : w'.Restorable := by
  cases createObject_cases w key hkey with
  | inl hfail =>
    obtain ⟨log, heq, -, -⟩ := hfail
    rw [heq] at h
    cases h
    exact hw.same ⟨rfl, rfl, rfl⟩ rfl
  | inr hdone =>
    obtain ⟨o, log, -, -, heq, -⟩ := hdone
    rw [heq] at h
    cases h
    apply hw.mark
    funext f
    cases f <;> rfl

theorem renameObject_restorable {key newname : CStr} (hkey : key.len < keySize)
    (hnew : newname.len < keySize) (hw : w.Restorable)
    : (renameObject key newname w).2.Restorable := by
  cases renameObject_cases w key newname hkey hnew with
  | inl hfail =>
    obtain ⟨log, heq, -, -⟩ := hfail
    rw [heq]
    exact hw.same ⟨rfl, rfl, rfl⟩ rfl
  | inr hdone =>
    obtain ⟨o, log, -, -, heq, -⟩ := hdone
    rw [heq]
    apply hw.mark
    funext f
    cases f <;> rfl

theorem objstoreRead_restorable (hc : env.cached = false) {objid : Int} {buf buf' : Mem} {size offset : Nat}
    {r : Int} (hw : w.Restorable) (h : objstoreRead env objid buf size offset w = .ok (r, buf', w'))
    : w'.Restorable := by
  refine objstoreRead_inv (I := World.Restorable) ?_ ?_ ?_ ?_ ?_ h hw
  . intro u hu
    exact hu.same ⟨rfl, rfl, rfl⟩ rfl
  . intro u hu
    exact hu.same ⟨rfl, rfl, rfl⟩ rfl
  . intro u hu
    unfold cmalloc
    split
    . exact hu.same ⟨rfl, rfl, rfl⟩ rfl
    . exact hu.same ⟨rfl, rfl, rfl⟩ rfl
  . intro u b buf hu
    simp only [readChBlk, hc, Bool.false_eq_true, ↓reduceIte]
    unfold readBlock
    split
    . exact hu.same ⟨rfl, rfl, rfl⟩ rfl
    . exact hu.same ⟨rfl, rfl, rfl⟩ rfl
  . intro u u' b hread hu
    rw [readChBlkNull_eq hc hread]
    exact hu.same ⟨rfl, rfl, rfl⟩ rfl

theorem destroyObject_restorable (hc : env.cached = false) {key : CStr} {r : Int} (hw : w.Restorable)
    (h : destroyObject env key w = .ok (r, w')) (hpages : Event.cmalloc false ∉ w.since w')
    (hcareful : (Op.destroy key).Careful w w')
    : w'.Restorable := by
  rcases destroyObject_finish h with ⟨-, rfl⟩ | ⟨o, hfind, hsize, h⟩
  . exact hw
  . obtain ⟨hproper, hread⟩ := hcareful o hfind hsize
    cases destroyObject.finish_draining hc hproper hw.sound h hsize with
    | inl hgave => exact hgave.restorable hw hpages hread
    | inr hdone =>
      obtain ⟨v, hv, rfl⟩ := hdone
      exact hv.restorable hw

theorem CarefulStep.restorable (hc : env.cached = false) {c : Op × Reply} (hw : w.Restorable)
    (h : CarefulStep env w c w')
    : w'.Restorable := by
  obtain ⟨op, reply⟩ := c
  obtain ⟨⟨hfits, hexec, hspace, hpages⟩, hcareful⟩ := h
  simp only at hfits hexec hcareful
  cases op with
  | create key =>
    exact createObject_restorable hfits hw (Op.create_of_exec hexec)
  | find key =>
    cases hexec
    exact hw
  | rename key newname =>
    cases hexec
    exact renameObject_restorable hfits.1 hfits.2 hw
  | destroy key =>
    exact destroyObject_restorable hc hw (Op.destroy_of_exec hexec) hpages hcareful
  | write objid buf size offset =>
    obtain ⟨o, rfl, -⟩ := hfits
    exact objstoreWrite_restorable hc hw (hcareful o rfl) (Op.write_of_exec hexec) hspace
  | read objid buf size offset =>
    obtain ⟨buf', -, hread⟩ := Op.read_of_exec hexec
    exact objstoreRead_restorable hc hw hread

/--
A store that was mounted from a good disk and has seen any number of failed block transfers comes back from
the disk with every block in use that an object refers to, if all of its calls were careful.
-/
theorem careful_referenced (hc : env.cached = false) (hr : env'.Reliable) (hown : (diskView disk).Own)
    {w₀ : World} (hinit : objstoreInit env' (World.ofDisk disk) = .ok (0, w₀)) {calls : List (Op × Reply)}
    (hrun : Run (CarefulStep env) w₀ calls w)
    : ∃ (w₁ w₂ : World), objstoreDestroy env' w = .ok (0, w₁)
        ∧ objstoreInit env' (World.ofDisk w₁.disk) = .ok (0, w₂) ∧ w₂.Referenced := by
  obtain ⟨w₀', hinit', hmounted⟩ := objstoreInit_spec hr (World.ofDisk disk)
  rw [hinit] at hinit'
  cases hinit'
  have hw : w.Restorable := by
    apply Run.inv (hmounted.restorable hown) _ hrun
    intro u c u' hu hstep
    exact hstep.restorable hc hu
  obtain ⟨w₁, hdestroy, hunmounted⟩ := objstoreDestroy_spec hr w
  obtain ⟨w₂, hinit₂, hmounted₂⟩ := objstoreInit_spec hr (World.ofDisk w₁.disk)
  exact ⟨w₁, w₂, hdestroy, hinit₂, (hw.remount hunmounted hmounted₂).referenced⟩

/-! Two runs in which a destruction fails. -/

/-- Block 20257 is a pointer block without entries, `p` a block of the contents or none. -/
def planted (p : BlockNo) : Slot → Obj :=
  Function.update (fun _ => Obj.zero) 0
    (createObject.fresh keyA { Obj.zero with
      direct := fun i => if i.val = 0 then p else 0#32
      indirect := fun i => if i.val = 0 then 20257#32 else 0#32 })

def World.planted (p : BlockNo) : World :=
  { World.ofDisk blankDisk with
    objects := ObjStore.planted p
    objBmp := (Bitmap.zero objBmpLn).set 0
    blkBmp := ((diskBmp blankDisk).set 20257).set p.toNat }

theorem planted_zero (p : BlockNo) (o : Slot) (ho : o ≠ 0) : planted p o = Obj.zero :=
  Function.update_of_ne ho _ _

theorem planted_direct (p : BlockNo) (i : Fin 4) : (planted p 0).direct i = if i = 0 then p else 0#32 := by
  simp only [planted, Function.update_self, createObject.fresh, Fin.val_eq_zero_iff]

theorem planted_indirect (p : BlockNo) (i : Fin 4)
    : (planted p 0).indirect i = if i = 0 then 20257#32 else 0#32 := by
  simp only [planted, Function.update_self, createObject.fresh, Fin.val_eq_zero_iff]

section Planted

variable {p : BlockNo} (hp : p = 0#32 ∨ p = 20256#32)

include hp

theorem used_planted (b : BlockNo)
    : ((World.planted p).view (steady false)).Used b ↔ (Reserved b ∨ b = 20257#32 ∨ b = p) := by
  have hlt : p.toNat < 64 * blkBmpLn := by
    cases hp with
    | inl h =>
      rw [h]
      decide
    | inr h =>
      rw [h]
      decide
  have h2 : b.toNat = 20257 ↔ b = 20257#32 := by
    constructor
    . intro h
      exact BitVec.eq_of_toNat_eq h
    . intro h
      rw [h]
      rfl
  have hbits : ((World.planted p).view (steady false)).blkBmp
      = ((diskBmp blankDisk).set 20257).set p.toNat := rfl
  unfold View.Used Reserved
  rw [hbits, Bitmap.bit_set _ _ hlt, Bitmap.bit_set _ _ (by decide), bit_diskBmp_blank]
  simp only [Bool.or_eq_true, decide_eq_true_eq, BitVec.toNat_inj, h2]
  constructor
  . rintro (h | h | h)
    . exact Or.inr (Or.inr h)
    . exact Or.inr (Or.inl h)
    . exact Or.inl h
  . rintro (h | h | h)
    . exact Or.inr (Or.inr h)
    . exact Or.inr (Or.inl h)
    . exact Or.inl h

omit hp in
theorem ptr_planted (r : Ref) (hne : ((World.planted p).view (steady false)).ptr r ≠ 0#32)
    : (r = .direct 0 0 ∧ ((World.planted p).view (steady false)).ptr r = p)
      ∨ (r = .indirect 0 0 ∧ ((World.planted p).view (steady false)).ptr r = 20257#32) := by
  have hobj : ((World.planted p).view (steady false)).objects = planted p := rfl
  have hslot : r.slot = 0 := by
    apply Classical.byContradiction
    intro ho
    apply hne
    cases r with
    | direct o i =>
      simp only [View.ptr, hobj, planted_zero p o ho]
      rfl
    | indirect o i =>
      simp only [View.ptr, hobj, planted_zero p o ho]
      rfl
    | entry o i j =>
      simp only [View.ptr, hobj, planted_zero p o ho]
      rfl
  cases r with
  | direct o i =>
    have ho : o = 0 := hslot
    subst ho
    simp only [View.ptr, hobj, planted_direct] at hne ⊢
    split at hne
    . next hi =>
      subst hi
      exact Or.inl ⟨rfl, if_pos rfl⟩
    . exact absurd rfl hne
  | indirect o i =>
    have ho : o = 0 := hslot
    subst ho
    simp only [View.ptr, hobj, planted_indirect] at hne ⊢
    split at hne
    . next hi =>
      subst hi
      exact Or.inr ⟨rfl, if_pos rfl⟩
    . exact absurd rfl hne
  | entry o i j =>
    -- the pointer block is blank
    apply absurd _ hne
    have hblank : ∀ (b : BlockNo), ((World.planted p).view (steady false)).data b = Buf.zero blockSize := by
      intro b
      simp only [World.view]
      split
      . rfl
      . rfl
    simp only [View.ptr, hblank, ptrAt_zero, ite_self]

theorem own_planted : ((World.planted p).view (steady false)).Own := by
  have hp' : p ≠ 20257#32 := by
    rintro rfl
    cases hp with
    | inl h => exact absurd h (by decide)
    | inr h => exact absurd h (by decide)
  have hresp : p ≠ 0#32 → ¬ Reserved p := by
    intro hne
    rw [hp.resolve_left hne]
    unfold Reserved
    decide
  have hnull : Reserved 0#32 := by
    unfold Reserved
    decide
  refine ⟨hnull, ?_, ?_, ?_, ?_, ?_⟩
  . intro b hb
    exact (used_planted hp b).mpr (Or.inl hb)
  . intro r r' hne heq
    have hne' : ((World.planted p).view (steady false)).ptr r' ≠ 0#32 := heq ▸ hne
    cases ptr_planted r hne with
    | inl h =>
      cases ptr_planted r' hne' with
      | inl h' => rw [h.1, h'.1]
      | inr h' => exact absurd (h.2.symm.trans (heq.trans h'.2)) hp'
    | inr h =>
      cases ptr_planted r' hne' with
      | inl h' => exact absurd (h'.2.symm.trans (heq.symm.trans h.2)) hp'
      | inr h' => rw [h.1, h'.1]
  . intro r hne
    rw [used_planted hp]
    cases ptr_planted r hne with
    | inl h => exact Or.inr (Or.inr h.2)
    | inr h => exact Or.inr (Or.inl h.2)
  . intro r hne
    cases ptr_planted r hne with
    | inl h =>
      rw [h.2] at hne ⊢
      exact hresp hne
    | inr h =>
      rw [h.2]
      unfold Reserved
      decide
  . intro b hused hres
    rw [used_planted hp] at hused
    cases hused.resolve_left hres with
    | inl h =>
      subst h
      exact ⟨.indirect 0 0, rfl⟩
    | inr h =>
      subst h
      exact ⟨.direct 0 0, rfl⟩

/-- The world as it comes back from its disk: nothing is marked as changed. -/
theorem exists_planted
    : ∃ (disk : BlockNo → Block) (w : World), (diskView disk).Own
        ∧ objstoreInit (steady false) (World.ofDisk disk) = .ok (0, w)
        ∧ w.objects = planted p ∧ w.objBmp = Bitmap.zero objBmpLn
        ∧ w.objects = diskObj w.disk ∧ w.disk 20257#32 = Buf.zero blockSize ∧ ¬ w.Exhausted := by
  have hr := steady_reliable false
  have hok : (World.planted p).Ok (steady false) := by
    refine ⟨?_, ?_, own_planted hp⟩
    . intro i hi
      exact absurd rfl hi
    . intro i hi
      exact absurd rfl hi
  have hclean : ((World.planted p).view (steady false)).Clean := by
    intro o hbit
    have ho : o ≠ 0 := by
      rintro rfl
      have hset : ((Bitmap.zero objBmpLn).set 0).bit 0 = true := by
        rw [Bitmap.bit_set _ _ (by decide)]
        rfl
      exact absurd (hset.symm.trans hbit) (by decide)
    rw [hok.noTable.diskObj_eq]
    have hblank : diskObj (World.planted p).disk o = Obj.zero := diskObj_blank o
    rw [hblank]
    exact planted_zero p o ho
  obtain ⟨w₁, w₂, hdestroy, hinit, hremounted, -, hok₂⟩ := exists_remounted hr hok hclean (fun _ _ _ => rfl)
  obtain ⟨w₂', hinit', hmounted⟩ := objstoreInit_spec hr (World.ofDisk w₁.disk)
  rw [hinit] at hinit'
  cases hinit'
  refine ⟨w₁.disk, w₂, ?_, hinit, hremounted.objects_eq, hremounted.objBmp_eq, hremounted.clean, ?_, ?_⟩
  . have hown := hok₂.own
    rw [hmounted.view_eq] at hown
    exact hown
  . rw [hremounted.data _ (by decide)]
    rfl
  . rw [hmounted.exhausted]
    simp [World.Exhausted, World.ofDisk]

end Planted

/-! How a destruction is given up at the first pointer block. -/

theorem freePointerBlock_unread (hc : env.cached = false) (b : BlockNo)
    (hpage : env.fails w.log.length = false) (hread : env.fails (w.log.length + 1) = true)
    : freePointerBlock env b w = .ok (-1, (w.emit (.cmalloc true)).emit (.readBlock b false)) := by
  have hread' : env.fails (w.emit (.cmalloc true)).log.length = true := hread
  simp only [freePointerBlock, cmalloc, hpage, readChBlk, hc, readBlock, hread', Bool.false_eq_true,
    ↓reduceIte]

theorem destroyObject_unread (hc : env.cached = false) {key : CStr} {o : Slot} {u : World}
    (hfind : findObject key w = some o) (hsize : (w.objects o).size ≠ 0#64)
    (hdirect : Loop.run (destroyObject.direct o) (Loop.range 4) w = .ok (.next u))
    (hindirect : (u.objects o).indirect 0 ≠ 0#32)
    (hpage : env.fails u.log.length = false) (hread : env.fails (u.log.length + 1) = true)
    : destroyObject env key w
        = .ok (-1, (u.emit (.cmalloc true)).emit (.readBlock ((u.objects o).indirect 0) false)) := by
  have hfirst : destroyObject.indirect env o 0 u
      = .ok (.ret (-1) ((u.emit (.cmalloc true)).emit (.readBlock ((u.objects o).indirect 0) false))) := by
    unfold destroyObject.indirect
    rw [if_pos hindirect, freePointerBlock_unread hc _ hpage hread]
    rfl
  have hloop : Loop.run (destroyObject.indirect env o) (Loop.range 4) u
      = .ok (.ret (-1) ((u.emit (.cmalloc true)).emit (.readBlock ((u.objects o).indirect 0) false))) := by
    have hrange := Loop.drop_range (n := 4) 0 (by decide)
    rw [List.drop_zero] at hrange
    rw [hrange, Loop.run_cons]
    have hzero : (⟨0, by decide⟩ : Fin 4) = 0 := rfl
    rw [hzero, hfirst]
  unfold destroyObject
  simp only [hfind, destroyObject.finish, hsize, ↓reduceIte, hdirect, hloop, bind, Except.bind]
  rfl

-- a loop over empty fields does nothing
theorem destroyObject.direct_empty (o : Slot) (is : List (Fin 4))
    (h : ∀ (i : Fin 4), i ∈ is → (w.objects o).direct i = 0#32)
    : Loop.run (direct o) is w = .ok (.next w) := by
  induction is with
  | nil => rfl
  | cons i is ih =>
    have hi := h i List.mem_cons_self
    have hpass : direct o i w = .ok (.next w) := by
      unfold direct
      rw [if_neg (fun hne => hne hi)]
      rfl
    rw [Loop.run_cons, hpass]
    exact ih (fun k hk => h k (List.mem_cons_of_mem _ hk))

theorem findObject_planted (p : BlockNo) (hobj : w.objects = planted p) : findObject keyA w = some 0 := by
  unfold findObject
  rw [Loop.find?_range]
  constructor
  . rw [w.keyEq_iff 0 keyA keyA_short.lt, hobj, planted, Function.update_self]
    exact createObject.fresh_name keyA keyA_short.lt _
  . intro j hj
    exact absurd hj (Fin.not_lt_zero j)

theorem planted_size (p : BlockNo) : (planted p 0).size ≠ 0#64 := by
  rw [planted, Function.update_self]
  simp [createObject.fresh]

-- a machine on which the transfer or allocation after `n` events fails
def failsOnce (n : Nat) : Env where
  cached := false
  fails := fun k => decide (k = n)
  junk := fun _ => Buf.zero blockSize

/--
The first direct pointer has been freed when the read of the pointer block fails. The object is not marked as
changed, so the inode on the disk keeps its pointer to a block that is free.
-/
theorem not_referenced_planted
    : ∃ (env : Env) (disk : BlockNo → Block) (w₀ w w₁ w₂ : World), env.cached = false
        ∧ (diskView disk).Own ∧ objstoreInit (steady false) (World.ofDisk disk) = .ok (0, w₀)
        ∧ Run (FaultyStep env) w₀ [(.destroy keyA, ⟨-1, none⟩)] w
        ∧ objstoreDestroy (steady false) w = .ok (0, w₁)
        ∧ objstoreInit (steady false) (World.ofDisk w₁.disk) = .ok (0, w₂)
        ∧ ¬ w₂.Referenced := by
  have hr := steady_reliable false
  obtain ⟨disk, w₀, hown, hinit, hobj, hbmp, hdisk, -, hspace⟩ := exists_planted (Or.inr (Eq.refl 20256#32))
  have hd₀ : (w₀.objects 0).direct 0 = 20256#32 := by
    rw [hobj, planted_direct]
    rfl
  -- the first pass frees block 20256
  let freed : World := { w₀ with
    blkBmp := w₀.blkBmp.clear (20256#32).toNat
    log := .unlock .blkBmp :: .lock .blkBmp :: w₀.log }
  let u : World := freed.setObj 0 { freed.objects 0 with
    direct := Function.update (freed.objects 0).direct 0 0#32 }
  have hpass : destroyObject.direct 0 0 w₀ = .ok (.next u) := by
    have hne : (w₀.objects 0).direct 0 ≠ 0#32 := by
      rw [hd₀]
      decide
    unfold destroyObject.direct
    rw [if_pos hne, hd₀, freeBlock_eq _ (by decide)]
    rfl
  have hdirect : Loop.run (destroyObject.direct 0) (Loop.range 4) w₀ = .ok (.next u) := by
    have hrange := Loop.drop_range (n := 4) 0 (by decide)
    rw [List.drop_zero] at hrange
    have hzero : (⟨0, by decide⟩ : Fin 4) = 0 := rfl
    rw [hrange, Loop.run_cons, hzero, hpass]
    apply destroyObject.direct_empty
    intro i hi
    have hine : i ≠ 0 := by
      rintro rfl
      revert hi
      decide
    have hui : (u.objects 0).direct i = Function.update (w₀.objects 0).direct 0 0#32 i := rfl
    rw [hui, Function.update_of_ne hine, hobj, planted_direct, if_neg hine]
  have hind : (u.objects 0).indirect 0 = 20257#32 := by
    have hsame : (u.objects 0).indirect 0 = (w₀.objects 0).indirect 0 := rfl
    rw [hsame, hobj, planted_indirect]
    rfl
  let env := failsOnce (w₀.log.length + 3)
  have hlog : u.log.length = w₀.log.length + 2 := rfl
  have hcall := @destroyObject_unread env w₀ rfl keyA 0 u (findObject_planted _ hobj)
    (by rw [hobj]; exact planted_size _) hdirect (by rw [hind]; decide)
    (by simp [env, failsOnce, hlog]) (by simp [env, failsOnce, hlog])
  rw [hind] at hcall
  let w : World := (u.emit (.cmalloc true)).emit (.readBlock 20257#32 false)
  have hlog' : w.log = [.readBlock 20257#32 false, .cmalloc true, .unlock .blkBmp, .lock .blkBmp] ++ w₀.log :=
    rfl
  have hstep : FaultyStep env w₀ (.destroy keyA, ⟨-1, none⟩) w := by
    refine ⟨keyA_short.lt, ?_, ?_, ?_⟩
    . simp only [Op.exec, hcall, bind, Except.bind]
      rfl
    . unfold World.Exhausted at hspace ⊢
      rw [hlog']
      simpa using hspace
    . rw [World.since_eq hlog']
      simp
  obtain ⟨w₁, hdestroy, hunmounted⟩ := objstoreDestroy_spec hr w
  obtain ⟨w₂, hinit₂, hmounted⟩ := objstoreInit_spec hr (World.ofDisk w₁.disk)
  refine ⟨env, disk, w₀, w, w₁, w₂, rfl, hown, hinit, .snoc .nil hstep, hdestroy, hinit₂, ?_⟩
  -- the inode was not written, the bitmap was
  have hclean : objstoreDestroy.dirty w (objBlock 0) = false := by
    rw [dirty_eq_false_iff]
    intro o _
    have : w.objBmp = Bitmap.zero objBmpLn := hbmp
    rw [this, Bitmap.bit_zero]
  have hobj₂ : w₂.objects 0 = planted 20256#32 0 := by
    have hkeep : w₁.disk (objBlockNo (objBlock 0)) = w₀.disk (objBlockNo (objBlock 0)) :=
      objstoreDestroy_clean rfl hdestroy (objBlock 0) hclean
    rw [hmounted.objects_eq, World.disk_ofDisk, ← hobj, hdisk]
    unfold diskObj
    rw [hkeep]
  intro hreferenced
  have hd₂ : (w₂.objects 0).direct 0 = 20256#32 := by
    rw [hobj₂, planted_direct]
    rfl
  have hbit := (hreferenced 0 (by rw [hobj₂]; exact planted_size _)).1 0 (by rw [hd₂]; decide)
  rw [hd₂] at hbit
  cases (hunmounted.marked hmounted 20256#32).mp hbit with
  | inl hres =>
    unfold Reserved at hres
    exact absurd hres (by decide)
  | inr hmarked =>
    have hfree : w.blkBmp.bit (20256#32).toNat = false := by
      have : w.blkBmp = w₀.blkBmp.clear (20256#32).toNat := rfl
      rw [this, Bitmap.bit_clear]
      simp
    exact absurd (hfree.symm.trans hmarked) (by decide)

/-- The same without a direct pointer: nothing has been freed by then, and the store comes back as it was. -/
theorem careful_referenced_planted
    : ∃ (env : Env) (w₀ w w₁ w₂ : World), env.cached = false
        ∧ Run (CarefulStep env) w₀ [(.destroy keyA, ⟨-1, none⟩)] w
        ∧ objstoreDestroy (steady false) w = .ok (0, w₁)
        ∧ objstoreInit (steady false) (World.ofDisk w₁.disk) = .ok (0, w₂)
        ∧ w₂.Referenced := by
  obtain ⟨disk, w₀, hown, hinit, hobj, -, hdisk, hblank, hspace⟩ := exists_planted (Or.inl (Eq.refl 0#32))
  have hd₀ : ∀ (i : Fin 4), (w₀.objects 0).direct i = 0#32 := by
    intro i
    rw [hobj, planted_direct, ite_self]
  have hind : ∀ (i : Fin 4), (w₀.objects 0).indirect i = if i = 0 then 20257#32 else 0#32 := by
    intro i
    rw [hobj, planted_indirect]
  let env := failsOnce (w₀.log.length + 1)
  have hcall := @destroyObject_unread env w₀ rfl keyA 0 w₀ (findObject_planted _ hobj)
    (by rw [hobj]; exact planted_size _) (destroyObject.direct_empty 0 _ (fun i _ => hd₀ i))
    (by rw [hind]; decide) (by simp [env, failsOnce]) (by simp [env, failsOnce])
  rw [hind, if_pos rfl] at hcall
  let w : World := (w₀.emit (.cmalloc true)).emit (.readBlock 20257#32 false)
  have hlog : w.log = [.readBlock 20257#32 false, .cmalloc true] ++ w₀.log := rfl
  have hstep : FaultyStep env w₀ (.destroy keyA, ⟨-1, none⟩) w := by
    refine ⟨keyA_short.lt, ?_, ?_, ?_⟩
    . simp only [Op.exec, hcall, bind, Except.bind]
      rfl
    . unfold World.Exhausted at hspace ⊢
      rw [hlog]
      simpa using hspace
    . rw [World.since_eq hlog]
      simp
  have hcareful : (Op.destroy keyA).Careful w₀ w := by
    intro o hfind _
    rw [findObject_planted _ hobj] at hfind
    cases hfind
    constructor
    . intro i j hne hj
      rw [hind] at hne hj
      split at hne
      . next hi =>
        rw [if_pos hi, hblank, ptrAt_zero] at hj
        exact absurd rfl hj
      . exact absurd rfl hne
    . intro i hread
      rw [World.since_eq hlog, hind] at hread
      have hi : i = 0 := by
        apply Classical.byContradiction
        intro hi
        rw [if_neg hi] at hread
        revert hread
        decide
      subst hi
      right
      rw [← hdisk]
      exact ⟨hd₀, fun k hk => absurd hk (Fin.not_lt_zero k)⟩
  have hrun : Run (CarefulStep env) w₀ [(.destroy keyA, ⟨-1, none⟩)] w := .snoc .nil ⟨hstep, hcareful⟩
  obtain ⟨w₁, w₂, hdestroy, hinit₂, hreferenced⟩ :=
    careful_referenced rfl (steady_reliable false) hown hinit hrun
  exact ⟨env, w₀, w, w₁, w₂, rfl, hrun, hdestroy, hinit₂, hreferenced⟩

end ObjStore
