import CS330.ObjStore.Lemmas.Mount
import CS330.ObjStore.Lemmas.Table

/-!
This module contains what holds in every world that a store can reach from a disk: the invariants hold
after the mount and every call keeps them.
-/

namespace ObjStore

open View

def diskView (disk : BlockNo → Block) : View where
  objects := diskObj disk
  objBmp := Bitmap.zero objBmpLn
  blkBmp := diskBmp disk
  data := fun b => if b = 0#32 then Buf.zero blockSize else disk b

variable {env : Env} {w w' : World} {disk : BlockNo → Block}

theorem World.Mounted.view_eq (h : w.Mounted w') : w'.view env = diskView w.disk := by
  apply View.ext h.objects_eq h.objBmp_eq h.blkBmp_eq
  funext b
  by_cases hb : b = 0#32
  . simp [World.view, diskView, hb]
  . have hb' : ¬ 0#32 = b := fun h => hb h.symm
    rw [World.view_data _ _ _ hb]
    simp only [diskView, hb, ↓reduceIte, World.look, DirectMapped.look, h.cacheInfo_eq, hb',
      h.disk_eq, ite_self]

theorem diskObj_congr {disk disk' : BlockNo → Block}
    (h : ∀ (b : BlockNo), Reserved b → disk' b = disk b) (o : Slot)
    : diskObj disk' o = diskObj disk o := by
  have hnat := toNat_objBlockNo (objBlock o)
  have hlt := (objBlock o).isLt
  have hres : Reserved (objBlockNo (objBlock o)) := by
    unfold Reserved
    simp only [resBlocks, blkBmpBlocks, objBlocks] at *
    omega
  unfold diskObj
  rw [h _ hres]

theorem diskView_clean (disk : BlockNo → Block) : (diskView disk).Clean := by
  intro o _
  have hne : objBlockNo (objBlock o) ≠ 0#32 := by
    intro heq
    have hnat := toNat_objBlockNo (objBlock o)
    rw [heq] at hnat
    simp at hnat
  simp only [diskView, diskObj, hne, ↓reduceIte]

theorem Reaches.inv {I : World → Prop} (hr : env.Reliable)
    (hinit : ∀ (w₀ : World), (World.ofDisk disk).Mounted w₀ → I w₀)
    (hkeep : ∀ (u : World) (c : Op × Reply) (u' : World), I u → Step env u c u' → I u')
    (h : Reaches env disk w)
    : I w := by
  obtain ⟨w₀, calls, hmount, hrun⟩ := h
  obtain ⟨w₀', hmount', hmounted⟩ := objstoreInit_spec hr (World.ofDisk disk)
  rw [hmount] at hmount'
  cases hmount'
  exact Run.inv (hinit w₀ hmounted) hkeep hrun

theorem Reaches.ok (hr : env.Reliable) (hown : (diskView disk).Own) (h : Reaches env disk w)
    : w.Ok env := by
  apply h.inv hr
  . intro w₀ hmounted
    apply hmounted.ok
    rw [hmounted.view_eq]
    exact hown
  . intro u c u' hok hstep
    exact Step.ok hr hok hstep

theorem Reaches.step {c : Op × Reply} (h : Reaches env disk w) (hstep : Step env w c w')
    : Reaches env disk w' := by
  obtain ⟨w₀, calls, hmount, hrun⟩ := h
  exact ⟨w₀, calls ++ [c], hmount, hrun.snoc hstep⟩

theorem Reaches.inv_effect {I : World → Prop} (hr : env.Reliable) (hown : (diskView disk).Own)
    (hinit : ∀ (w₀ : World), (World.ofDisk disk).Mounted w₀ → I w₀)
    (hkeep : ∀ (u : World) (op : Op) (r : Reply) (u' : World), u.Ok env → op.Accepts u
      → Effect env u op r u' → I u → I u')
    (h : Reaches env disk w)
    : I w := by
  have hboth : w.Ok env ∧ I w := by
    apply h.inv hr (I := fun w => w.Ok env ∧ I w)
    . intro w₀ hmounted
      refine ⟨?_, hinit w₀ hmounted⟩
      apply hmounted.ok
      rw [hmounted.view_eq]
      exact hown
    . rintro u ⟨op, r⟩ u' ⟨hok, hu⟩ hstep
      exact ⟨Step.ok hr hok hstep, hkeep u op r u' hok hstep.1 (Step.effect hr hok hstep) hu⟩
  exact hboth.2

theorem Reaches.table (hr : env.Reliable) (hown : (diskView disk).Own) (htable : Table (diskObj disk))
    (h : Reaches env disk w)
    : Table w.objects := by
  apply h.inv_effect hr hown (I := fun w => Table w.objects)
  . intro w₀ hmounted
    rw [hmounted.objects_eq]
    exact htable
  . intro u op r u' _ hacc heff hu
    exact heff.table hacc hu

theorem Reaches.not_exhausted (hr : env.Reliable) (h : Reaches env disk w) : ¬ w.Exhausted := by
  apply h.inv hr (I := fun w => ¬ w.Exhausted)
  . intro w₀ hmounted
    rw [hmounted.exhausted]
    simp [World.Exhausted, World.ofDisk]
  . intro u c u' _ hstep
    exact hstep.2.2

/-! The blank disk. -/

theorem diskObj_blank (o : Slot) : diskObj blankDisk o = Obj.zero := by
  apply Obj.ofBytes_eq
  intro k hk
  rw [show blankDisk (objBlockNo (objBlock o)) = Buf.zero blockSize from rfl, Buf.get_zero]
  simp only [Obj.byte, Obj.zero, LE.byte, Buf.zero]
  split
  . simp
  . split
    . rfl
    . split
      . simp
      . simp

theorem bit_diskBmp_blank (n : Nat) : (diskBmp blankDisk).bit n = decide (n < resBlocks) := by
  unfold diskBmp
  rw [bit_markReserved]
  have : decodeBmp (fun i => blankDisk (bmpBlockNo i)) = Bitmap.zero blkBmpLn := by
    funext k
    exact Buf.word_zero _
  rw [this, Bitmap.bit_zero, Bool.or_false]

theorem View.ptr_of_zero {v : View} (h : ∀ (o : Slot), v.objects o = Obj.zero) (r : Ref) : v.ptr r = 0#32 := by
  cases r with
  | direct o i =>
    simp only [View.ptr, h]
    rfl
  | indirect o i =>
    simp only [View.ptr, h]
    rfl
  | entry o i j =>
    simp only [View.ptr, h]
    rfl

theorem ptr_blank (r : Ref) : (diskView blankDisk).ptr r = 0#32 :=
  View.ptr_of_zero diskObj_blank r

theorem own_blank : (diskView blankDisk).Own where
  null_reserved := by
    exact (by decide : 0 < resBlocks)
  reserved_used := by
    intro b hb
    unfold Used
    simp only [diskView, bit_diskBmp_blank, decide_eq_true_eq]
    exact hb
  inj := by
    intro r _ hne
    exact absurd (ptr_blank r) hne
  ptr_used := by
    intro r hne
    exact absurd (ptr_blank r) hne
  ptr_not_reserved := by
    intro r hne
    exact absurd (ptr_blank r) hne
  used_owned := by
    intro b hused hres
    unfold Used at hused
    simp only [diskView, bit_diskBmp_blank, decide_eq_true_eq] at hused
    exact absurd hused hres

theorem table_blank : Table (diskObj blankDisk) where
  dead := by
    intro o _
    rw [diskObj_blank]
    exact Table.zero_name
  live := by
    intro o hlive
    rw [diskObj_blank] at hlive
    exact absurd rfl hlive
  unique := by
    intro o o' hne
    rw [diskObj_blank] at hne
    exact absurd Table.zero_name hne

end ObjStore
