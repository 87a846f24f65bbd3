import CS330.ObjStore.Ownership

/-!
This module contains that operations on one object are not seen through another: its contents, its size
and the id found for its key stay what they are.
-/

namespace ObjStore

open View

-- The call leaves the contents of the object in slot `o` alone.
def Op.Spares (w : World) (o : Slot) : Op → Prop
  | .destroy key => findObject key w ≠ some o
  | .write objid _ _ _ => objid ≠ o.id
  | _ => True

/-- The call is about another object than the one in slot `o`, or about another key. -/
def Op.Avoids (w : World) (o : Slot) : Op → Prop
  | .rename key _ => (w.objects o).name ≠ key.chars
  | .destroy key => (w.objects o).name ≠ key.chars
  | .write objid _ _ _ => objid ≠ o.id
  | _ => True

-- A disk that satisfies both invariants once it is mounted.
structure Sound (disk : BlockNo → Block) : Prop where
  own : (diskView disk).Own
  table : Table (diskObj disk)

theorem sound_blank : Sound blankDisk :=
  ⟨own_blank, table_blank⟩

variable {env : Env} {w w' : World} {op : Op} {r : Reply}

theorem World.Reads.sameContents (h : w.Reads env w') (o : Slot)
    : SameContents o (w.view env) (w'.view env) := by
  rw [h.view_eq]
  exact SameContents.refl o _

theorem World.Edited.sameContents {o' : Slot} {obj : Obj} (h : World.Edited env o' obj w w') (o : Slot)
    : SameContents o (w.view env) (w'.view env) where
  indirect_iff := by
    intro i
    have := congrFun (congrArg View.objects h.view_eq) o
    rw [this]
    simp only [View.edit, View.setObj, Function.update_apply]
    split
    . next heq =>
      rw [heq, h.indirect_eq]
      rfl
    . rfl
  cell_eq := by
    intro r _ _
    exact (h.cell_eq r).symm

theorem Effect.sameContents (h : Effect env w op r w') (o : Slot) (hspares : op.Spares w o)
    : SameContents o (w.view env) (w'.view env) := by
  cases h with
  | createFailed key w' _ h => exact h.sameContents o
  | created key o' w' _ _ h => exact h.sameContents o
  | found key => exact SameContents.refl o _
  | renameFailed key newname w' _ h => exact h.sameContents o
  | renamed key newname o' w' _ _ h => exact h.sameContents o
  | destroyFailed key _ => exact SameContents.refl o _
  | destroyed key o' w' hfind _ h =>
    have ho : o ≠ o' := by
      rintro rfl
      exact hspares hfind
    refine ⟨?_, ?_⟩
    . intro i
      have hobj : (w'.view env).objects = Function.update w.objects o' Obj.zero := h.objects_eq
      rw [hobj, Function.update_of_ne ho]
      rfl
    . intro r _ hr
      rw [h.cell_eq r (by rw [hr]; exact ho)]
  | writeFailed objid buf size offset => exact SameContents.refl o _
  | written o' buf size offset hmax hfit w' v hprog hview _ _ =>
    have ho : o ≠ o' := by
      rintro rfl
      exact hspares rfl
    rw [hview]
    refine ⟨?_, ?_⟩
    . intro i
      have hobj : v.objects o = (w.view env).objects o := hprog.other o ho
      simp only [View.finish, View.edit, View.setObj, Function.update_of_ne ho, hobj]
    . intro r hdata hr
      rw [cell_finish, hprog.frame r hdata]
      -- the places that are written belong to the other object
      intro s _ _ heq
      have := dataRef_slot o' s
      rw [heq] at hr
      exact ho (hr.symm.trans this)
  | read objid buf size offset r buf' w' h => exact h.sameContents o

theorem Effect.sameLabel (h : Effect env w op r w') (hacc : op.Accepts w) (o : Slot)
    (hlive : (w.objects o).size ≠ 0#64) (havoids : op.Avoids w o)
    : (w'.objects o).size = (w.objects o).size ∧ (w'.objects o).name = (w.objects o).name := by
  cases h with
  | createFailed key w' _ h =>
    rw [h.objects_eq]
    exact ⟨rfl, rfl⟩
  | created key o' w' hsize _ h =>
    have ho : o ≠ o' := by
      rintro rfl
      exact hlive hsize
    rw [h.objects_eq, Function.update_of_ne ho]
    exact ⟨rfl, rfl⟩
  | found key => exact ⟨rfl, rfl⟩
  | renameFailed key newname w' _ h =>
    rw [h.objects_eq]
    exact ⟨rfl, rfl⟩
  | renamed key newname o' w' hname _ h =>
    have ho : o ≠ o' := by
      rintro rfl
      exact havoids hname
    rw [h.objects_eq, Function.update_of_ne ho]
    exact ⟨rfl, rfl⟩
  | destroyFailed key _ => exact ⟨rfl, rfl⟩
  | destroyed key o' w' hfind _ h =>
    have ho : o ≠ o' := by
      rintro rfl
      exact havoids (findObject_some key hacc.lt o hfind)
    rw [h.objects_eq, Function.update_of_ne ho]
    exact ⟨rfl, rfl⟩
  | writeFailed objid buf size offset => exact ⟨rfl, rfl⟩
  | written o' buf size offset hmax hfit w' v hprog hview _ _ =>
    have ho : o ≠ o' := by
      rintro rfl
      exact havoids rfl
    rw [(Effect.written_objects hprog hview).1 o ho]
    exact ⟨rfl, rfl⟩
  | read objid buf size offset r buf' w' h =>
    rw [h.objects_eq]
    exact ⟨rfl, rfl⟩

theorem Op.Avoids.spares {o : Slot} (h : op.Avoids w o) (hacc : op.Accepts w) : op.Spares w o := by
  cases op with
  | create key => trivial
  | find key => trivial
  | rename key newname => trivial
  | destroy key =>
    intro hfind
    exact h (findObject_some key hacc.lt o hfind)
  | write objid buf size offset => exact h
  | read objid buf size offset => trivial

theorem objstoreRead_same {env' : Env} (hr : env.Reliable) (hr' : env'.Reliable) (htag : w.Tagged)
    (htag' : w'.Tagged) (o : Slot) (hsame : SameContents o (w.view env) (w'.view env')) (buf : Mem)
    (size offset : Nat) (halign : offset % blockSize = 0)
    : ∃ (value : Int) (buf' : Mem) (u u' : World),
        objstoreRead env o.id buf size offset w = .ok (value, buf', u)
        ∧ objstoreRead env' o.id buf size offset w' = .ok (value, buf', u') := by
  have hfit : InBlock size offset := by
    unfold InBlock
    rw [halign]
    omega
  obtain ⟨value, buf', u, heq⟩ := objstoreRead_returns hr htag o buf size offset hfit
  have hrel := objstoreRead_rel hr hr' htag htag' o.id buf size offset (by
    intro o' hid
    rw [← Slot.id_inj hid]
    exact hsame)
  rw [heq] at hrel ⊢
  generalize objstoreRead env' o.id buf size offset w' = res at hrel ⊢
  cases hrel with
  | @ok a b hab =>
    obtain ⟨value', buf'', u'⟩ := b
    obtain ⟨h1, h2, -, -⟩ := hab
    simp only at h1 h2
    subst h1 h2
    exact ⟨value, buf', u, u', rfl, rfl⟩

theorem fillupSizeDetails_congr (o : Slot) (h : (w'.objects o).size = (w.objects o).size)
    : fillupSizeDetails (o + 2) w' = fillupSizeDetails (o + 2) w := by
  have h1 : ¬ o.val + 2 < 2 := by omega
  have h2 : o.val + 2 - 2 < maxObjs := by
    have := o.isLt
    omega
  have h3 : (⟨o.val + 2 - 2, h2⟩ : Slot) = o := Fin.ext (by simp)
  unfold fillupSizeDetails
  simp only [h1, h2, ↓reduceIte, ↓reduceDIte, h3, h]

theorem Table.findObjectId_eq (h : Table w.objects) (o : Slot) (hlive : (w.objects o).size ≠ 0#64)
    (key : CStr) (hkey : key.chars = (w.objects o).name)
    : findObjectId key w = o.id := by
  obtain ⟨hne, hlen⟩ := h.live o hlive
  rw [← hkey, CStr.length_chars] at hlen
  have hpos : 0 < key.len := by
    rw [← CStr.length_chars, hkey]
    exact List.length_pos_of_ne_nil hne
  unfold findObjectId
  rw [(h.findObject_iff key ⟨hpos, hlen⟩ o).mpr hkey.symm]
  rfl

theorem reaches_isolated (hr : env.Reliable) {disk : BlockNo → Block} (hsound : Sound disk)
    (h : Reaches env disk w) (hstep : Step env w (op, r) w') (o : Slot)
    (hlive : (w.objects o).size ≠ 0#64) (havoids : op.Avoids w o)
    : (∀ (buf : Mem) (n offset : Nat), n ≤ maxSize → offset % blockSize = 0
          → ∃ (value : Int) (buf' : Mem) (u u' : World),
              objstoreRead env o.id buf n offset w = .ok (value, buf', u)
              ∧ objstoreRead env o.id buf n offset w' = .ok (value, buf', u'))
      ∧ fillupSizeDetails (o + 2) w' = fillupSizeDetails (o + 2) w
      ∧ ∀ (key : CStr), key.chars = (w.objects o).name
          → findObjectId key w = o.id ∧ findObjectId key w' = o.id := by
  have hok := h.ok hr hsound.own
  have hok' := (h.step hstep).ok hr hsound.own
  have htable := h.table hr hsound.own hsound.table
  have htable' := (h.step hstep).table hr hsound.own hsound.table
  have heff := Step.effect hr hok hstep
  have hsame := heff.sameContents o (havoids.spares hstep.1)
  obtain ⟨hsize, hname⟩ := heff.sameLabel hstep.1 o hlive havoids
  refine ⟨?_, ?_, ?_⟩
  . intro buf n offset _ halign
    exact objstoreRead_same hr hr hok.tagged hok'.tagged o hsame buf n offset halign
  . exact fillupSizeDetails_congr o hsize
  . intro key hkey
    refine ⟨htable.findObjectId_eq o hlive key hkey, ?_⟩
    apply htable'.findObjectId_eq o
    . rw [hsize]
      exact hlive
    . rw [hname]
      exact hkey

theorem keyB_nonzero (k : Nat) (hk : k < 1) : (if k = 0 then 98#8 else 0#8) ≠ 0#8 := by
  have : k = 0 := by omega
  subst this
  decide

def keyB : CStr where
  mem := fun k => if k = 0 then 98#8 else 0#8
  len := 1
  nul := rfl
  nonzero := keyB_nonzero

theorem keyB_short : keyB.Short :=
  ⟨by decide, by decide⟩

theorem reaches_isolated_created
    : ∃ (w w' : World) (o : Slot) (r : Reply), Reaches (steady true) blankDisk w
        ∧ Step (steady true) w (.create keyB, r) w'
        ∧ findObjectId keyA w = o.id ∧ findObjectId keyA w' = o.id := by
  have hr := steady_reliable true
  obtain ⟨w, o, hstarted⟩ := exists_started true
  have hreach := hstarted.reaches
  have hok := hreach.ok hr own_blank
  obtain ⟨r, w', hexec, -⟩ := (Op.create keyB).exec_cases hr hok keyB_short.lt
  have hfree : ¬ w'.Exhausted := by
    intro hfull
    apply hreach.not_exhausted hr
    cases createObject_cases w keyB keyB_short.lt with
    | inl h =>
      obtain ⟨log, heq, hlog, -⟩ := h
      rw [Op.exec_create heq] at hexec
      cases hexec
      exact hlog.mp hfull
    | inr h =>
      obtain ⟨o, log, -, -, heq, hlog⟩ := h
      rw [Op.exec_create heq] at hexec
      cases hexec
      exact hlog.mp hfull
  have hstep : Step (steady true) w (.create keyB, r) w' := ⟨keyB_short, hexec, hfree⟩
  have hkey := (reaches_isolated hr sound_blank hreach hstep o hstarted.live trivial).2.2 keyA
    hstarted.name_eq.symm
  exact ⟨w, w', o, r, hreach, hstep, hkey⟩

end ObjStore
