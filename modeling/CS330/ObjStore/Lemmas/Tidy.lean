import CS330.ObjStore.Lemmas.Reach

/-!
This module contains which pointers of an object are null: all of them in a free slot, and every pointer
block behind one that is missing.
-/

namespace ObjStore

open View

structure Obj.Tidy (obj : Obj) : Prop where
  direct_free : obj.size = 0#64 → ∀ (i : Fin 4), obj.direct i = 0#32
  indirect_free : obj.size = 0#64 → ∀ (i : Fin 4), obj.indirect i = 0#32
  indirect_le : ∀ (i j : Fin 4), j ≤ i → obj.indirect i ≠ 0#32 → obj.indirect j ≠ 0#32

variable {env : Env} {w w' : World} {disk : BlockNo → Block} {o : Slot}

namespace Obj.Tidy

theorem zero : Obj.zero.Tidy where
  direct_free := fun _ _ => rfl
  indirect_free := fun _ _ => rfl
  indirect_le := fun _ _ _ hi => hi

theorem edit {obj obj' : Obj} (h : obj.Tidy) (hdirect : obj'.direct = obj.direct)
    (hindirect : obj'.indirect = obj.indirect) (hsize : obj'.size = 0#64 → obj.size = 0#64)
    : obj'.Tidy where
  direct_free := by
    intro h0
    rw [hdirect]
    exact h.direct_free (hsize h0)
  indirect_free := by
    intro h0
    rw [hindirect]
    exact h.indirect_free (hsize h0)
  indirect_le := by
    rw [hindirect]
    exact h.indirect_le

theorem write {job : Job} {v v' : View} (h : (v.objects job.o).Tidy)
    (hlive : (v.objects job.o).size ≠ 0#64) (hprog : job.Progress v v' 4100)
    : (v'.objects job.o).Tidy where
  direct_free := by
    rw [hprog.size_eq]
    exact fun h0 => absurd h0 hlive
  indirect_free := by
    rw [hprog.size_eq]
    exact fun h0 => absurd h0 hlive
  indirect_le := by
    intro i j hji hi
    cases hprog.indirect_rest i hi with
    | inl hold =>
      have hj := h.indirect_le i j hji hold
      rw [hprog.indirect_old j hj]
      exact hj
    | inr hneed =>
      apply hprog.indirect_new j (by omega)
      have : j.val ≤ i.val := hji
      omega

end Obj.Tidy

def Tidy (objects : Slot → Obj) : Prop :=
  ∀ (o : Slot), (objects o).Tidy

namespace Tidy

theorem update {objects : Slot → Obj} (h : Tidy objects) {obj : Obj} (hobj : obj.Tidy)
    : Tidy (Function.update objects o obj) := by
  intro o'
  by_cases ho : o' = o
  . rw [ho, Function.update_self]
    exact hobj
  . rw [Function.update_of_ne ho]
    exact h o'

theorem ptr_free {v : View} (h : Tidy v.objects) (ho : (v.objects o).size = 0#64) (r : Ref)
    (hr : r.slot = o)
    : v.ptr r = 0#32 := by
  subst hr
  cases r with
  | direct o i => exact (h o).direct_free ho i
  | indirect o i => exact (h o).indirect_free ho i
  | entry o i j =>
    have hnull : (v.objects o).indirect i = 0#32 := (h o).indirect_free ho i
    simp only [ptr, hnull, ↓reduceIte]

end Tidy

theorem Effect.tidy {op : Op} {r : Reply} (h : Effect env w op r w') (hacc : op.Accepts w)
    (htidy : Tidy w.objects)
    : Tidy w'.objects := by
  cases h with
  | createFailed key w' _ h =>
    rw [h.objects_eq]
    exact htidy
  | created key o w' hsize _ h =>
    rw [h.objects_eq]
    apply htidy.update
    exact (htidy o).edit h.direct_eq h.indirect_eq (fun _ => hsize)
  | found key => exact htidy
  | renameFailed key newname w' _ h =>
    rw [h.objects_eq]
    exact htidy
  | renamed key newname o w' _ _ h =>
    rw [h.objects_eq]
    apply htidy.update
    exact (htidy o).edit h.direct_eq h.indirect_eq id
  | destroyFailed key _ => exact htidy
  | destroyed key o w' _ _ h =>
    rw [h.objects_eq]
    exact htidy.update .zero
  | writeFailed objid buf size offset => exact htidy
  | written o buf size offset hmax hfit w' v hprog hview _ _ =>
    obtain ⟨⟨o', hid, hlive⟩, hpos, -, hoff⟩ := hacc
    have := Slot.id_inj hid
    subst this
    have hobj : w'.objects = (v.finish o (BitVec.ofNat 64 (offset + size))).objects :=
      congrArg View.objects hview
    have hv : Tidy v.objects := by
      intro o'
      by_cases ho : o' = o
      . rw [ho]
        exact Obj.Tidy.write (htidy o) hlive hprog
      . rw [hprog.other o' ho]
        exact htidy o'
    rw [hobj]
    apply hv.update
    refine (hv o).edit rfl rfl ?_
    intro h0
    exact absurd h0 (size_ne_zero hpos hmax hoff)
  | read objid buf size offset r buf' w' h =>
    rw [h.objects_eq]
    exact htidy

theorem Reaches.tidy (hr : env.Reliable) (hown : (diskView disk).Own) (htidy : Tidy (diskObj disk))
    (h : Reaches env disk w)
    : Tidy w.objects := by
  apply h.inv_effect hr hown (I := fun w => Tidy w.objects)
  . intro w₀ hmounted
    rw [hmounted.objects_eq]
    exact htidy
  . intro u op r u' _ hacc heff hu
    exact heff.tidy hacc hu

theorem tidy_blank : Tidy (diskObj blankDisk) := by
  intro o
  rw [diskObj_blank]
  exact .zero

end ObjStore
