import CS330.ObjStore.Lemmas.Twin
import CS330.ObjStore.Metadata
import CS330.ObjStore.Remount

/-!
This module contains what is left of a store that is built without the cache when its process dies before the
unmount: the two tables as they were mounted, and every object that was neither written to nor destroyed.
-/

namespace ObjStore

open View

variable {env : Env} {w w' w₀ : World} {o : Slot} {op : Op} {r : Reply}

-- A step that leaves the contents of the object in slot `o` alone.
def SparingStep (env : Env) (o : Slot) (w : World) (c : Op × Reply) (w' : World) : Prop :=
  Step env w c w' ∧ c.1.Spares w o

-- The object has the same pointers, and the same contents behind them.
structure World.Spared (env : Env) (o : Slot) (w w' : World) : Prop where
  direct_eq : (w'.objects o).direct = (w.objects o).direct
  indirect_eq : (w'.objects o).indirect = (w.objects o).indirect
  same : SameContents o (w.view env) (w'.view env)

theorem World.Spared.of_objects_eq (hobj : w'.objects o = w.objects o) (hsame : SameContents o (w.view env) (w'.view env))
    : World.Spared env o w w' :=
  ⟨by rw [hobj], by rw [hobj], hsame⟩

theorem World.Edited.spared {o' : Slot} {obj : Obj} (h : World.Edited env o' obj w w') (o : Slot)
    : World.Spared env o w w' := by
  have hobj : w'.objects o = Function.update w.objects o' obj o := congrFun h.objects_eq o
  refine ⟨?_, ?_, h.sameContents o⟩
  . rw [hobj, Function.update_apply]
    split
    . next ho => rw [ho, h.direct_eq]
    . rfl
  . rw [hobj, Function.update_apply]
    split
    . next ho => rw [ho, h.indirect_eq]
    . rfl

theorem Effect.spared (h : Effect env w op r w') (hspares : op.Spares w o) : World.Spared env o w w' := by
  have hsame := h.sameContents o hspares
  cases h with
  | createFailed key w' _ h => exact .of_objects_eq (congrFun h.objects_eq o) hsame
  | created key o' w' _ _ h => exact h.spared o
  | found key => exact .of_objects_eq rfl hsame
  | renameFailed key newname w' _ h => exact .of_objects_eq (congrFun h.objects_eq o) hsame
  | renamed key newname o' w' _ _ h => exact h.spared o
  | destroyFailed key _ => exact .of_objects_eq rfl hsame
  | destroyed key o' w' hfind _ h =>
    have ho : o ≠ o' := by
      rintro rfl
      exact hspares hfind
    refine .of_objects_eq ?_ hsame
    rw [h.objects_eq, Function.update_of_ne ho]
  | writeFailed objid buf size offset => exact .of_objects_eq rfl hsame
  | written o' buf size offset _ _ w' v hprog hview _ _ =>
    have ho : o ≠ o' := by
      rintro rfl
      exact hspares rfl
    exact .of_objects_eq ((Effect.written_objects hprog hview).1 o ho) hsame
  | read objid buf size offset r buf' w' h => exact .of_objects_eq (congrFun h.objects_eq o) hsame

theorem run_spared (hr : env.Reliable) (hok : w₀.Ok env) {calls : List (Op × Reply)}
    (hrun : Run (SparingStep env o) w₀ calls w)
    : w.Ok env ∧ World.Spared env o w₀ w := by
  apply Run.inv (I := fun u => u.Ok env ∧ World.Spared env o w₀ u) _ _ hrun
  . exact ⟨hok, rfl, rfl, .refl o _⟩
  . rintro u ⟨op, r⟩ u' ⟨hu, hspared⟩ ⟨hstep, hspares⟩
    have h := (Step.effect hr hu hstep).spared hspares
    exact ⟨Step.ok hr hu hstep, h.direct_eq.trans hspared.direct_eq, h.indirect_eq.trans hspared.indirect_eq,
      hspared.same.trans h.same⟩

-- Two worlds in which an object has the same pointers into the same blocks.
theorem View.SameContents.of_pointers {v v' : View} (hdirect : (v'.objects o).direct = (v.objects o).direct)
    (hindirect : (v'.objects o).indirect = (v.objects o).indirect) (hdata : v'.data = v.data)
    : SameContents o v v' where
  indirect_iff := by
    intro i
    rw [hindirect]
  cell_eq := by
    intro r _ ho
    have hptr : v'.ptr r = v.ptr r := by
      subst ho
      cases r with
      | direct o i => exact congrFun hdirect i
      | indirect o i => exact congrFun hindirect i
      | entry o i j =>
        have hsame : (v'.objects o).indirect = (v.objects o).indirect := hindirect
        simp only [ptr, hdata, hsame]
    unfold cell
    rw [hptr, hdata]

theorem diskBmp_congr {disk disk' : BlockNo → Block} (h : ∀ (b : BlockNo), Reserved b → disk' b = disk b)
    : diskBmp disk' = diskBmp disk := by
  unfold diskBmp
  congr 2
  funext i
  apply h
  have := i.isLt
  simp only [Reserved, toNat_bmpBlockNo, resBlocks, blkBmpBlocks] at this ⊢
  omega

theorem readReply_eq (hr : env.Reliable) (htag : w.Tagged) (htag' : w'.Tagged)
    (hsame : SameContents o (w.view env) (w'.view env)) (buf : Mem) (size offset : Nat)
    : readReply env o.id buf size offset w' = readReply env o.id buf size offset w := by
  have hrel := objstoreRead_rel hr hr htag htag' o.id buf size offset (by
    intro o' hid
    rw [← Slot.id_inj hid]
    exact hsame)
  unfold readReply
  generalize objstoreRead env o.id buf size offset w = x at hrel ⊢
  generalize objstoreRead env o.id buf size offset w' = y at hrel ⊢
  cases hrel with
  | error e => rfl
  | ok h =>
    obtain ⟨h1, h2, -, -⟩ := h
    simp only [Except.map, h1, h2]

end ObjStore
