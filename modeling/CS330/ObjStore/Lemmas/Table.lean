import CS330.ObjStore.Lemmas.Step

/-!
This module contains the invariant of the object table, which ties the size, the key and the slot of an
object together, and that every call keeps it.
-/

namespace ObjStore

open View

/-- Free slots have no name, all others have a name of their own that fits into the key field. -/
structure Table (objects : Slot → Obj) : Prop where
  dead : ∀ (o : Slot), (objects o).size = 0#64 → (objects o).name = []
  live : ∀ (o : Slot), (objects o).size ≠ 0#64
    → (objects o).name ≠ [] ∧ (objects o).name.length < keySize
  unique : ∀ (o o' : Slot), (objects o).name ≠ [] → (objects o).name = (objects o').name → o = o'

namespace Table

variable {objects : Slot → Obj}

theorem live_iff (h : Table objects) (o : Slot) : (objects o).size ≠ 0#64 ↔ (objects o).name ≠ [] := by
  constructor
  . intro hsize
    exact (h.live o hsize).1
  . intro hname hsize
    exact hname (h.dead o hsize)

theorem update (h : Table objects) (o : Slot) (obj : Obj) (hsize : obj.size ≠ 0#64)
    (hname : obj.name ≠ []) (hlen : obj.name.length < keySize)
    (hnew : ∀ (o' : Slot), o' ≠ o → (objects o').name ≠ obj.name)
    : Table (Function.update objects o obj) where
  dead := by
    intro o' hdead
    by_cases ho : o' = o
    . subst ho
      rw [Function.update_self] at hdead
      exact absurd hdead hsize
    . rw [Function.update_of_ne ho] at hdead ⊢
      exact h.dead o' hdead
  live := by
    intro o' hlive
    by_cases ho : o' = o
    . subst ho
      rw [Function.update_self]
      exact ⟨hname, hlen⟩
    . rw [Function.update_of_ne ho] at hlive ⊢
      exact h.live o' hlive
  unique := by
    intro o₁ o₂ hne heq
    by_cases h1 : o₁ = o
    . by_cases h2 : o₂ = o
      . rw [h1, h2]
      . rw [h1, Function.update_self, Function.update_of_ne h2] at heq
        exact absurd heq.symm (hnew o₂ h2)
    . rw [Function.update_of_ne h1] at hne heq
      by_cases h2 : o₂ = o
      . rw [h2, Function.update_self] at heq
        exact absurd heq (hnew o₁ h1)
      . rw [Function.update_of_ne h2] at heq
        exact h.unique o₁ o₂ hne heq

theorem zero_name : Obj.zero.name = [] := rfl

theorem erase (h : Table objects) (o : Slot) : Table (Function.update objects o Obj.zero) where
  dead := by
    intro o' hdead
    by_cases ho : o' = o
    . subst ho
      rw [Function.update_self]
      exact zero_name
    . rw [Function.update_of_ne ho] at hdead ⊢
      exact h.dead o' hdead
  live := by
    intro o' hlive
    by_cases ho : o' = o
    . subst ho
      rw [Function.update_self] at hlive
      exact absurd rfl hlive
    . rw [Function.update_of_ne ho] at hlive ⊢
      exact h.live o' hlive
  unique := by
    intro o₁ o₂ hne heq
    have h1 : o₁ ≠ o := by
      rintro rfl
      rw [Function.update_self] at hne
      exact hne zero_name
    rw [Function.update_of_ne h1] at hne heq
    have h2 : o₂ ≠ o := by
      rintro rfl
      rw [Function.update_self] at heq
      exact hne (heq.trans zero_name)
    rw [Function.update_of_ne h2] at heq
    exact h.unique o₁ o₂ hne heq

end Table

variable {env : Env} {w w' : World}

theorem Table.findObject_iff (h : Table w.objects) (key : CStr) (hkey : key.Short) (o : Slot)
    : findObject key w = some o ↔ (w.objects o).name = key.chars := by
  constructor
  . exact findObject_some key hkey.lt o
  . intro hname
    cases hfind : findObject key w with
    | none =>
      rw [findObject_none key hkey.lt] at hfind
      exact absurd hname (hfind o)
    | some o' =>
      have hname' := findObject_some key hkey.lt o' hfind
      have hne : (w.objects o').name ≠ [] := by
        rw [hname']
        exact hkey.chars_ne_nil
      rw [h.unique o' o hne (hname'.trans hname.symm)]

theorem Effect.written_objects {o : Slot} {buf : Mem} {size offset : Nat} {hfit : InBlock size offset}
    {v : View} (hprog : (Job.ofWrite o buf size offset hfit).Progress (w.view env) v 4100)
    (hview : w'.view env = v.finish o (BitVec.ofNat 64 (offset + size)))
    : (∀ (o' : Slot), o' ≠ o → w'.objects o' = w.objects o')
      ∧ (w'.objects o).name = (w.objects o).name
      ∧ (w'.objects o).size = BitVec.ofNat 64 (offset + size) := by
  have hobj : w'.objects = (v.finish o (BitVec.ofNat 64 (offset + size))).objects :=
    congrArg View.objects hview
  have hkey : (v.objects o).key = (w.objects o).key := hprog.key_eq
  rw [hobj]
  refine ⟨?_, ?_, ?_⟩
  . intro o' ho'
    simp only [View.finish, View.edit, View.setObj, Function.update_of_ne ho']
    exact hprog.other o' ho'
  . simp only [View.finish, View.edit, View.setObj, Function.update_self, Obj.name, hkey]
  . simp only [View.finish, View.edit, View.setObj, Function.update_self]

theorem size_ne_zero {size offset : Nat} (hsize : 1 ≤ size) (hmax : size ≤ maxSize)
    (hoffset : offset < 2 ^ 63)
    : BitVec.ofNat 64 (offset + size) ≠ 0#64 := by
  intro heq
  have := congrArg BitVec.toNat heq
  rw [BitVec.toNat_ofNat, Nat.mod_eq_of_lt (by simp only [maxSize, blockSize] at hmax; omega)] at this
  simp at this
  omega

theorem Slot.id_inj {o o' : Slot} (h : o.id = o'.id) : o = o' := by
  unfold Slot.id at h
  exact Fin.ext (by omega)

/-- Every call keeps the table invariant. -/
theorem Effect.table {op : Op} {r : Reply} (h : Effect env w op r w') (hacc : op.Accepts w)
    (htable : Table w.objects)
    : Table w'.objects := by
  cases h with
  | createFailed key w' _ h =>
    rw [h.objects_eq]
    exact htable
  | created key o w' hsize hnew h =>
    have hname := createObject.fresh_name key hacc.lt (w.objects o)
    rw [h.objects_eq]
    apply htable.update
    . exact (by decide : 1#64 ≠ 0#64)
    . rw [hname]
      exact hacc.chars_ne_nil
    . rw [hname]
      exact hacc.length_lt
    . intro o' ho' heq
      exact ho' (hnew o' (heq.trans hname))
  | found key => exact htable
  | renameFailed key newname w' _ h =>
    rw [h.objects_eq]
    exact htable
  | renamed key newname o w' hname hnew h =>
    have hname' := renameObject.renamed_name newname hacc.2.lt (w.objects o)
    rw [h.objects_eq]
    apply htable.update
    . have : (w.objects o).size ≠ 0#64 := by
        rw [htable.live_iff, hname]
        exact hacc.1.chars_ne_nil
      exact this
    . rw [hname']
      exact hacc.2.chars_ne_nil
    . rw [hname']
      exact hacc.2.length_lt
    . intro o' _ heq
      exact hnew o' (heq.trans hname')
  | destroyFailed key _ => exact htable
  | destroyed key o w' _ _ h =>
    rw [h.objects_eq]
    exact htable.erase o
  | writeFailed objid buf size offset => exact htable
  | written o buf size offset hmax hfit w' v hprog hview _ _ =>
    obtain ⟨⟨o', hid, hlive⟩, hpos, -, hoff⟩ := hacc
    have := Slot.id_inj hid
    subst this
    obtain ⟨hother, hname, hsize⟩ := Effect.written_objects hprog hview
    have hupd : w'.objects = Function.update w.objects o (w'.objects o) := by
      funext o'
      by_cases ho : o' = o
      . rw [ho, Function.update_self]
      . rw [Function.update_of_ne ho]
        exact hother o' ho
    rw [hupd]
    apply htable.update
    . rw [hsize]
      exact size_ne_zero hpos hmax hoff
    . rw [hname]
      exact (htable.live o hlive).1
    . rw [hname]
      exact (htable.live o hlive).2
    . intro o' ho' heq
      rw [hname] at heq
      exact ho' (htable.unique o o' (htable.live o hlive).1 heq.symm).symm
  | read objid buf size offset r buf' w' h =>
    rw [h.objects_eq]
    exact htable

end ObjStore
