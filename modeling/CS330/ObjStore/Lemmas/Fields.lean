import CS330.ObjStore.Lemmas.Reach

/-!
This module contains what is left of the ownership invariant when block transfers fail: leaked blocks and
unusable pointer blocks apart, the blocks in the fields of the inodes stay in use, and so they do after the
next unmount and mount.
-/

namespace ObjStore

open View

-- a field of an inode that may hold a block number
inductive Obj.Field where
  | direct (i : Fin 4)
  | indirect (i : Fin 4)
  deriving DecidableEq

namespace Obj

def field (obj : Obj) : Field → BlockNo
  | .direct i => obj.direct i
  | .indirect i => obj.indirect i

def setField (obj : Obj) (p : BlockNo) : Field → Obj
  | .direct i => { obj with direct := Function.update obj.direct i p }
  | .indirect i => { obj with indirect := Function.update obj.indirect i p }

theorem field_setField (obj : Obj) (p : BlockNo) (f f' : Field)
    : (obj.setField p f).field f' = if f' = f then p else obj.field f' := by
  cases f with
  | direct i =>
    cases f' with
    | direct i' => simp only [setField, field, Function.update_apply, Field.direct.injEq]
    | indirect i' => simp [setField, field]
  | indirect i =>
    cases f' with
    | direct i' => simp [setField, field]
    | indirect i' => simp only [setField, field, Function.update_apply, Field.indirect.injEq]

end Obj

namespace World

-- what the fields of all inodes hold
def held (w : World) (r : Slot × Obj.Field) : BlockNo :=
  (w.objects r.1).field r.2

def Marked (w : World) (b : BlockNo) : Prop :=
  w.blkBmp.bit b.toNat = true

def Sound (w : World) : Prop :=
  Backed 0#32 Reserved w.Marked w.held

-- the inode on the disk points nowhere but where the one in memory does
def Mirrored (w : World) (o : Slot) : Prop :=
  ∀ (f : Obj.Field), (diskObj w.disk o).field f ≠ 0#32 → (w.objects o).field f = (diskObj w.disk o).field f

/-- What the next mount finds is sound: the inodes that the unmount does not write are on the disk. -/
structure Restorable (w : World) : Prop where
  sound : w.Sound
  mirrored : ∀ (o : Slot), objstoreDestroy.dirty w (objBlock o) = false → w.Mirrored o

end World

variable {w w' : World}

theorem World.held_setField (w : World) (o : Slot) (f : Obj.Field) (p : BlockNo)
    : (w.setObj o ((w.objects o).setField p f)).held = Function.update w.held (o, f) p := by
  funext r
  obtain ⟨o', f'⟩ := r
  simp only [World.held, World.setObj, Function.update_apply, Prod.mk.injEq]
  by_cases ho : o' = o
  . subst ho
    simp only [↓reduceIte, true_and]
    exact Obj.field_setField _ _ _ _
  . simp only [ho, false_and, ↓reduceIte]

theorem World.held_setObj (w : World) (o : Slot) (obj : Obj) (hfield : obj.field = (w.objects o).field)
    : (w.setObj o obj).held = w.held := by
  funext r
  obtain ⟨o', f⟩ := r
  simp only [World.held, World.setObj]
  by_cases ho : o' = o
  . subst ho
    rw [Function.update_self, hfield]
  . rw [Function.update_of_ne ho]

theorem World.held_congr (h : w'.objects = w.objects) : w'.held = w.held := by
  funext r
  simp only [World.held, h]

theorem World.marked_congr (h : w'.blkBmp = w.blkBmp) : w'.Marked = w.Marked := by
  funext b
  simp only [World.Marked, h]

theorem World.Sound.mono (h : w.Sound) (hheld : w'.held = w.held)
    (hmarked : ∀ (b : BlockNo), w.Marked b → w'.Marked b)
    : w'.Sound := by
  unfold World.Sound
  rw [hheld]
  apply h.shrink (fun _ => Or.inr rfl)
  . intro b hb
    exact hmarked b (h.reserved_used b hb)
  . intro r hne
    exact hmarked _ (h.ptr_used r hne)

theorem World.Sound.congr (h : w.Sound) (hheld : w'.held = w.held) (hblk : w'.blkBmp = w.blkBmp)
    : w'.Sound := by
  apply h.mono hheld
  intro b hb
  rw [World.marked_congr hblk]
  exact hb

theorem World.Sound.of_own {v : View} (h : v.Own) (hobj : w.objects = v.objects)
    (hblk : w.blkBmp = v.blkBmp)
    : w.Sound := by
  -- the fields are among the places of the view
  let place (r : Slot × Obj.Field) : Ref :=
    match r.2 with
    | .direct i => .direct r.1 i
    | .indirect i => .indirect r.1 i
  have hheld : ∀ (r : Slot × Obj.Field), w.held r = v.ptr (place r) := by
    rintro ⟨o, f⟩
    cases f with
    | direct i => simp only [World.held, hobj, Obj.field, View.ptr, place]
    | indirect i => simp only [World.held, hobj, Obj.field, View.ptr, place]
  have hplace : ∀ (r r' : Slot × Obj.Field), place r = place r' → r = r' := by
    rintro ⟨o, f⟩ ⟨o', f'⟩ heq
    cases f <;> cases f' <;> simp_all [place]
  have hmarked : ∀ (b : BlockNo), w.Marked b ↔ v.Used b := by
    intro b
    unfold World.Marked View.Used
    rw [hblk]
  refine ⟨h.null_reserved, ?_, ?_, ?_, ?_⟩
  . intro b hb
    exact (hmarked b).mpr (h.reserved_used b hb)
  . intro r r' hne heq
    rw [hheld] at hne
    rw [hheld, hheld] at heq
    exact hplace r r' (h.inj _ _ hne heq)
  . intro r hne
    rw [hheld] at hne ⊢
    exact (hmarked _).mpr (h.ptr_used _ hne)
  . intro r hne
    rw [hheld] at hne ⊢
    exact h.ptr_not_reserved _ hne

/-! The dirty marks. -/

theorem objBlock_objInBlock (i : Fin objBlocks) (j : Fin objPerBlock) : objBlock (objInBlock i j) = i := by
  have hj := j.isLt
  apply Fin.ext
  simp only [objBlock, objInBlock, objPerBlock] at *
  omega

theorem dirty_eq_false_iff (w : World) (i : Fin objBlocks)
    : objstoreDestroy.dirty w i = false ↔ ∀ (o : Slot), objBlock o = i → w.objBmp.bit o = false := by
  constructor
  . intro h o ho
    exact dirty_eq_false w i h o ho
  . intro h
    unfold objstoreDestroy.dirty
    rw [List.any_eq_false]
    intro j _
    have hbit := h (objInBlock i j) (objBlock_objInBlock i j)
    have hword := Bitmap.bit_word w.objBmp (dirtyWord (objInBlock i j)) ((objInBlock i j).val % 64) (by omega)
    have hidx : 64 * (dirtyWord (objInBlock i j)).val + (objInBlock i j).val % 64 = objInBlock i j := by
      simp only [dirtyWord]
      omega
    rw [hidx, hbit] at hword
    simp only [decide_eq_true_eq, Decidable.not_not, Bitmap.and_one_eq_zero]
    exact hword.symm

-- marking an object makes its block dirty and no block clean
theorem dirty_set (o : Slot) (hbmp : w'.objBmp = w.objBmp.set o) (i : Fin objBlocks)
    (h : objstoreDestroy.dirty w' i = false)
    : objBlock o ≠ i ∧ objstoreDestroy.dirty w i = false := by
  have hlt : o.val < 64 * objBmpLn := by
    have := o.isLt
    simp only [objBmpLn, maxObjs] at *
    omega
  have hbits : ∀ (o' : Slot), objBlock o' = i → o'.val ≠ o.val ∧ w.objBmp.bit o' = false := by
    intro o' ho'
    have := (dirty_eq_false_iff w' i).mp h o' ho'
    rw [hbmp, Bitmap.bit_set _ _ hlt, Bool.or_eq_false_iff, decide_eq_false_iff_not] at this
    exact this
  constructor
  . intro ho
    exact (hbits o ho).1 rfl
  . rw [dirty_eq_false_iff]
    intro o' ho'
    exact (hbits o' ho').2

namespace World.Restorable

-- Fields that were in use stay as they are, and so does the part of the disk that holds the tables.
theorem grow (h : w.Restorable) (hsound : w'.Sound)
    (hheld : ∀ (r : Slot × Obj.Field), w.held r ≠ 0#32 → w'.held r = w.held r)
    (hdirty : ∀ (i : Fin objBlocks), objstoreDestroy.dirty w' i = false → objstoreDestroy.dirty w i = false)
    (hdisk : ∀ (b : BlockNo), Reserved b → w'.disk b = w.disk b)
    : w'.Restorable where
  sound := hsound
  mirrored := by
    intro o hclean f hne
    rw [diskObj_congr hdisk o] at hne ⊢
    have hmem := h.mirrored o (hdirty _ hclean) f hne
    rw [← hmem] at hne ⊢
    exact hheld (o, f) hne

-- the calls that leave the fields of all inodes and the bitmap alone
theorem edit (h : w.Restorable) (hheld : w'.held = w.held) (hblk : w'.blkBmp = w.blkBmp)
    (hdirty : ∀ (i : Fin objBlocks), objstoreDestroy.dirty w' i = false → objstoreDestroy.dirty w i = false)
    (hdisk : w'.disk = w.disk)
    : w'.Restorable := by
  apply h.grow _ _ hdirty
  . intro b _
    rw [hdisk]
  . exact h.sound.congr hheld hblk
  . intro r _
    rw [hheld]

-- a call that has changed the size or the key of an object, and marked it dirty
theorem mark (h : w.Restorable) (o : Slot) (obj : Obj) (hfield : obj.field = (w.objects o).field) (log : List Event)
    : World.Restorable { w with
        objects := Function.update w.objects o obj
        objBmp := w.objBmp.set o
        log := log } := by
  apply h.edit
  . exact w.held_setObj o obj hfield
  . rfl
  . intro i hclean
    exact (dirty_set o rfl i hclean).2
  . rfl

end World.Restorable

/-! Unmounting and mounting. -/

theorem World.Mounted.restorable {disk : BlockNo → Block} (h : (World.ofDisk disk).Mounted w)
    (hown : (diskView disk).Own)
    : w.Restorable where
  sound := World.Sound.of_own hown h.objects_eq h.blkBmp_eq
  mirrored := by
    intro o _ f _
    rw [h.objects_eq, h.disk_eq]

-- the bitmap comes back, with the reserved blocks marked
theorem World.Unmounted.marked {w₁ w₂ : World} (h₁ : w.Unmounted w₁) (h₂ : (World.ofDisk w₁.disk).Mounted w₂)
    (b : BlockNo)
    : w₂.Marked b ↔ (Reserved b ∨ w.Marked b) := by
  have hblocks : (fun i => w₁.disk (bmpBlockNo i)) = encodeBmp w.blkBmp := funext h₁.bitmap
  unfold World.Marked Reserved
  rw [h₂.blkBmp_eq, World.disk_ofDisk]
  unfold diskBmp
  rw [hblocks, decodeBmp_encodeBmp, bit_markReserved, Bool.or_eq_true, decide_eq_true_eq]

theorem World.Restorable.remount {w₁ w₂ : World} (h : w.Restorable) (h₁ : w.Unmounted w₁)
    (h₂ : (World.ofDisk w₁.disk).Mounted w₂)
    : w₂.Sound := by
  have hobj : ∀ (o : Slot), w₂.objects o = diskObj w₁.disk o := by
    intro o
    rw [h₂.objects_eq, World.disk_ofDisk]
  have hheld : ∀ (r : Slot × Obj.Field), w₂.held r = 0#32 ∨ w₂.held r = w.held r := by
    rintro ⟨o, f⟩
    simp only [World.held, hobj]
    cases h₁.objects (objBlock o) with
    | inl hstored =>
      obtain ⟨buf, hbuf⟩ := hstored
      right
      rw [diskObj_encodeObjs w₁.disk o w.objects buf hbuf]
    | inr hclean =>
      obtain ⟨hdirty, hdisk⟩ := hclean
      have heq : diskObj w₁.disk o = diskObj w.disk o := by
        unfold diskObj
        rw [hdisk]
      rw [heq]
      by_cases hne : (diskObj w.disk o).field f = 0#32
      . exact Or.inl hne
      . exact Or.inr (h.mirrored o hdirty f hne).symm
  apply h.sound.shrink hheld
  . intro b hb
    exact (h₁.marked h₂ b).mpr (Or.inl hb)
  . intro r hne
    have heq := (hheld r).resolve_left hne
    rw [heq] at hne ⊢
    exact (h₁.marked h₂ _).mpr (Or.inr (h.sound.ptr_used r hne))

-- an unmount writes only those blocks of the object array that are marked
namespace objstoreDestroy

variable {i : Fin objBlocks}

theorem writeBlock_keeps (env : Env) (b : BlockNo) (buf : Block) (u : World) (hb : objBlockNo i ≠ b)
    (hu : u.objBmp = w.objBmp ∧ u.disk (objBlockNo i) = w.disk (objBlockNo i))
    : (writeBlock env b buf u).2.objBmp = w.objBmp
      ∧ (writeBlock env b buf u).2.disk (objBlockNo i) = w.disk (objBlockNo i) := by
  unfold writeBlock
  split
  . exact hu
  . exact ⟨hu.1, (Function.update_of_ne hb _ _).trans hu.2⟩

end objstoreDestroy

theorem objstoreDestroy_clean {env : Env} (hc : env.cached = false) {r : Int}
    (h : objstoreDestroy env w = .ok (r, w')) (i : Fin objBlocks)
    (hclean : objstoreDestroy.dirty w i = false)
    : w'.disk (objBlockNo i) = w.disk (objBlockNo i) := by
  let I (u : World) : Prop := u.objBmp = w.objBmp ∧ u.disk (objBlockNo i) = w.disk (objBlockNo i)
  simp only [objstoreDestroy, objstoreDestroy.flushAll, hc, Bool.false_eq_true, ↓reduceIte, bind,
    Except.bind] at h
  have hpage : I (cmalloc env w).2 := by
    unfold cmalloc
    split <;> exact ⟨rfl, rfl⟩
  generalize cmalloc env w = res at h hpage
  obtain ⟨page, w₁⟩ := res
  cases page with
  | none =>
    cases h
    exact hpage.2
  | some page =>
    simp only at h
    have hloop₁ : Loop.Ends I (Loop.run (objstoreDestroy.bitmap env) (Loop.range blkBmpBlocks) w₁) := by
      apply Loop.run_ends _ _ w₁ hpage
      intro k u hu
      have hne : objBlockNo i ≠ bmpBlockNo k := by
        intro heq
        have hnat := congrArg BitVec.toNat heq
        rw [toNat_objBlockNo, toNat_bmpBlockNo] at hnat
        have := k.isLt
        omega
      have hwrite := objstoreDestroy.writeBlock_keeps env (bmpBlockNo k) (encodeBmp u.blkBmp k) u hne hu
      unfold objstoreDestroy.bitmap
      generalize writeBlock env (bmpBlockNo k) (encodeBmp u.blkBmp k) u = res at hwrite ⊢
      obtain ⟨ok, u'⟩ := res
      cases ok with
      | false => exact hwrite
      | true => exact hwrite
    have hpass : ∀ (k : Fin objBlocks) (s : Block × World), I s.2
        → Loop.Leaves (fun s => I s.2) (objstoreDestroy.objects env k s) := by
      rintro k ⟨buf, u⟩ hu
      simp only [objstoreDestroy.objects]
      split
      . next hdirty =>
        have hne : objBlockNo i ≠ objBlockNo k := by
          intro heq
          have hnat := congrArg BitVec.toNat heq
          rw [toNat_objBlockNo, toNat_objBlockNo] at hnat
          have hik : i = k := Fin.ext (by omega)
          subst hik
          rw [objstoreDestroy.dirty_congr hu.1, hclean] at hdirty
          exact absurd hdirty (by decide)
        have hwrite := objstoreDestroy.writeBlock_keeps env (objBlockNo k) (encodeObjs k u.objects buf) u
          hne hu
        generalize writeBlock env (objBlockNo k) (encodeObjs k u.objects buf) u = res at hwrite ⊢
        obtain ⟨ok, u'⟩ := res
        cases ok with
        | false => exact hwrite
        | true => exact hwrite
      . exact hu
    generalize Loop.run (objstoreDestroy.bitmap env) (Loop.range blkBmpBlocks) w₁ = flow at h hloop₁
    cases flow with
    | error e => cases h
    | ok flow =>
      cases flow with
      | stop u => exact hloop₁.elim
      | ret r u =>
        cases h
        exact hloop₁.2
      | next u =>
        have hloop₂ := Loop.run_ends hpass (Loop.range objBlocks) (encodeBmp u.blkBmp 0, u) hloop₁
        simp only at h
        generalize Loop.run (objstoreDestroy.objects env) (Loop.range objBlocks) (encodeBmp u.blkBmp 0, u)
          = flow at h hloop₂
        cases flow with
        | error e => cases h
        | ok flow =>
          cases flow with
          | stop s => exact hloop₂.elim
          | next s =>
            cases h
            exact hloop₂.2
          | ret r s =>
            cases h
            exact hloop₂.2

end ObjStore
