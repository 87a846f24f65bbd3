import CS330.ExampleStore.Contents

/-!
This module contains what the small store makes of keys: how they are created, destroyed and renamed.
-/

namespace ExampleStore

open ObjStore (Block CStr Mem Env Fault blockSize)

variable {env : Env} {w w' : World} {s : Items} {item : Item} {i j : Slot} {key : CStr}

-- without contents there is nothing that the cache could have to do with
theorem Holds.hollow (hshows : (w.obj i).Shows i item) (hdata : item.data = []) : Holds env w i item where
  shows := hshows
  starts := by
    rw [hdata]
    exact starts_nil _
  line := fun _ hne => absurd hdata hne

theorem behind_obj (w : World) (i : Slot)
    : { w with table := initObjectCached env ⟨maxObjs, by decide⟩ w.table }.obj i = w.obj i := by
  have hne : i.index ≠ ⟨maxObjs, by decide⟩ := by
    intro heq
    exact absurd (congrArg Fin.val heq) (Nat.ne_of_lt i.isLt)
  cases hc : env.cached with
  | true => simp only [World.obj, initObjectCached, hc, ↓reduceIte, Table.setObj_ne _ _ hne]
  | false => simp only [World.obj, initObjectCached, hc, Bool.false_eq_true, ↓reduceIte]

-- what is written behind the last object does not matter
theorem behind (w : World) (i : Slot)
    : Outside w { w with table := initObjectCached env ⟨maxObjs, by decide⟩ w.table } i where
  alike := fun j _ => ⟨behind_obj w j, rfl, rfl⟩
  rest := by
    intro n hn
    cases hc : env.cached with
    | false => simp only [initObjectCached, hc, Bool.false_eq_true, ↓reduceIte]
    | true =>
      by_cases hne : n = ⟨maxObjs, by decide⟩
      . simp only [initObjectCached, hc, ↓reduceIte, hne, Table.setObj_self]
      . simp only [initObjectCached, hc, ↓reduceIte, Table.setObj_ne _ _ hne]

theorem copy_nul (b : Buf keySize) (hlen : key.len < keySize)
    : ∃ (k : Fin keySize), b.copy 0 key.mem (key.len + 1) k = 0#8 := by
  refine ⟨⟨key.len, hlen⟩, ?_⟩
  rw [Buf.copy_in _ _ _ _ _ (by simp)]
  exact key.nul

theorem copy_cstr (b : Buf keySize) (hlen : key.len < keySize)
    : (b.copy 0 key.mem (key.len + 1)).cstr = key.chars := by
  rw [cstr_eq_iff _ (copy_nul b hlen), CStr.strcmp_iff]
  intro k hk
  rw [Buf.get_lt _ _ (by omega), Buf.copy_in _ _ _ _ _ (by simp; omega)]
  rfl

namespace Represents

theorem destroy (h : Represents env w s) (key : CStr)
    : (destroyObject env key w).1 = (s.destroy key.chars).1
        ∧ Represents env (destroyObject env key w).2 (s.destroy key.chars).2 := by
  unfold destroyObject Items.destroy
  rw [h.findObject_eq]
  cases hfind : s.find key.chars with
  | none => exact ⟨rfl, h⟩
  | some i =>
    obtain ⟨-, hkey, hnul, -, -, -⟩ := (h.holds i).shows
    let w₁ : World := { w with table := removeObjectCached env i.index w.table }
    have hobj : (w₁.obj i).key = (w.obj i).key := by
      cases hc : env.cached with
      | true => simp [w₁, World.obj, removeObjectCached, hc]
      | false => simp [w₁, World.obj, removeObjectCached, hc]
    have hout : Outside w w₁ i := by
      cases hc : env.cached with
      | true =>
        simp only [w₁, removeObjectCached, hc, ↓reduceIte]
        exact Outside.setObj w i _
      | false =>
        simp only [w₁, removeObjectCached, hc, Bool.false_eq_true, ↓reduceIte]
        exact Outside.refl w i
    let gone : Object := { w₁.obj i with id := 0#64, size := 0#64 }
    have hgone : Holds env (w₁.setObj i.index gone) i { s i with live := false, data := [] } := by
      apply Holds.hollow
      . rw [World.obj_setObj]
        refine ⟨rfl, ?_, ?_, rfl, Nat.zero_le _, fun _ => rfl⟩
        . simp only [gone, hobj]
          exact hkey
        . simp only [gone, hobj]
          exact hnul
      . rfl
    exact ⟨rfl, h.update hgone (hout.trans (Outside.setObj w₁ i gone))⟩

theorem rename (h : Represents env w s) (key newname : CStr)
    : ∃ (w' : World), renameObject key newname w = .ok ((s.rename key.chars newname.chars).1, w')
        ∧ Represents env w' (s.rename key.chars newname.chars).2 := by
  unfold renameObject Items.rename
  rw [h.findObjectId_eq, CStr.length_chars]
  cases hfind : s.find key.chars with
  | none => exact ⟨w, rfl, h⟩
  | some i =>
    have hi := h.holds i
    have hpos : ¬ i.id < 0 := by
      unfold Slot.id
      omega
    by_cases hlong : 32 < newname.len
    . refine ⟨w, ?_, ?_⟩
      . simp only [Option.elim_some, hpos, hlong, ↓reduceIte]
      . simp only [hlong, ↓reduceIte]
        exact h
    . simp only [Option.elim_some, hpos, hlong, ↓reduceIte, objAt_id]
      have hlen : newname.len < keySize := by
        simp only [keySize]
        omega
      refine ⟨_, rfl, h.update ?_ (Outside.setObj w i _)⟩
      constructor
      . rw [World.obj_setObj]
        obtain ⟨hid, -, -, hsize, hfits, hdead⟩ := hi.shows
        exact ⟨hid, copy_cstr _ hlen, copy_nul _ hlen, hsize, hfits, hdead⟩
      . unfold World.block
        rw [World.obj_setObj]
        exact hi.starts
      . intro hc hne
        obtain ⟨hloaded, -, hempty, -⟩ := hi.line hc hne
        constructor
        . rw [World.obj_setObj]
          exact hloaded
        . rw [World.obj_setObj]
          simp
        . exact hempty
        . rw [World.obj_setObj]
          intro _ hdirty
          cases hdirty

end Represents

namespace createObject

theorem hasKey_setObj (t : Table) (obj : Object) (h : j ≠ i)
    : (t.setObj i.index obj).hasKey key j = t.hasKey key j := by
  have hne : j.index ≠ i.index := by
    rw [Ne, Slot.index_inj]
    exact h
  unfold Table.hasKey
  rw [Table.setObj_ne _ _ hne]

-- a free object has been found
theorem scan_some (free : Slot) (l : List Slot) (t : Table)
    : scan key l (some free) t = (if l.any (t.hasKey key) then none else some (some free), t) := by
  induction l with
  | nil => rfl
  | cons i l ih =>
    rw [scan, if_neg (by simp), ih, List.any_cons]
    cases t.hasKey key i with
    | true => rfl
    | false => rfl

theorem scan_none (l : List Slot) (hnodup : l.Nodup) (t : Table)
    : scan key l none t
        =
      match l.find? (fun i => decide ((t.objs i.index).id = 0#64) || t.hasKey key i) with
      | none => (some none, t)
      | some i =>
        if (t.objs i.index).id ≠ 0#64 then
          (none, t)
        else
          (if l.any (t.hasKey key) then none else some (some i),
            t.setObj i.index { t.objs i.index with id := BitVec.ofNat 64 (i + 2) }) := by
  induction l with
  | nil => rfl
  | cons i l ih =>
    obtain ⟨hnot, hnodup⟩ := List.nodup_cons.mp hnodup
    by_cases hid : (t.objs i.index).id = 0#64
    . -- the first branch: the id is set, and the others are compared
      have hkey : t.hasKey key i = false := by simp [Table.hasKey, hid]
      have hany : l.any ((t.setObj i.index { t.objs i.index with id := BitVec.ofNat 64 (i + 2) }).hasKey key)
          = l.any (t.hasKey key) := by
        rw [Bool.eq_iff_iff, List.any_eq_true, List.any_eq_true]
        apply exists_congr
        intro j
        apply and_congr_right
        intro hj
        rw [hasKey_setObj]
        rintro rfl
        exact hnot hj
      rw [scan, if_pos ⟨hid, rfl⟩, scan_some, hany, List.find?_cons_of_pos (by simp [hid])]
      simp only [hid, ne_eq, not_true_eq_false, ↓reduceIte, List.any_cons, hkey, Bool.false_or]
    . rw [scan, if_neg (fun hand => hid hand.1)]
      cases hkey : t.hasKey key i with
      | true =>
        rw [List.find?_cons_of_pos (by simp [hkey])]
        simp [hid]
      | false =>
        rw [List.find?_cons_of_neg (by simp [hid, hkey]), List.any_cons, hkey, Bool.false_or]
        exact ih hnodup

end createObject

namespace Represents

theorem scan_eq (h : Represents env w s) (key : CStr)
    : createObject.scan key (Loop.range maxObjs) none w.table
        =
      match (Loop.range maxObjs).find? (fun i => !(s i).live || s.hasKey key.chars i) with
      | none => (some none, w.table)
      | some i =>
        if (s i).live then
          (none, w.table)
        else
          (if (s.find key.chars).isSome then none else some (some i),
            w.table.setObj i.index { w.obj i with id := BitVec.ofNat 64 (i + 2) }) := by
  have hfree : (fun i : Slot => decide ((w.table.objs i.index).id = 0#64) || w.table.hasKey key i)
      = fun i => !(s i).live || s.hasKey key.chars i := by
    funext i
    rw [h.hasKey_eq]
    congr 1
    rw [Bool.eq_iff_iff, decide_eq_true_iff, Bool.not_eq_true', ← Bool.not_eq_true, ← (h.holds i).shows.id_ne_iff]
    exact not_not.symm
  have hany : (Loop.range maxObjs).any (w.table.hasKey key) = (s.find key.chars).isSome := by
    rw [h.hasKey_eq]
    unfold Items.find
    rw [Bool.eq_iff_iff, List.find?_isSome, List.any_eq_true]
  have hnodup : (Loop.range maxObjs).Nodup := by
    rw [Loop.range_eq]
    exact List.nodup_finRange _
  rw [createObject.scan_none _ hnodup, hfree, hany]
  cases (Loop.range maxObjs).find? (fun i => !(s i).live || s.hasKey key.chars i) with
  | none => rfl
  | some i =>
    have hid : (w.table.objs i.index).id ≠ 0#64 ↔ (s i).live = true := (h.holds i).shows.id_ne_iff
    simp only [hid]
    rfl

-- a free place comes to life, for an old key or for a new one
theorem revive (h : Represents env w s) (hdead : (s i).live = false) {obj : Object}
    (hid : obj.id = BitVec.ofNat 64 (i + 2)) {k : List Byte} (hkey : obj.key.cstr = k)
    (hnul : ∃ (n : Fin keySize), obj.key n = 0#8) (hsize : obj.size = (w.obj i).size)
    (hobj : w'.obj i = obj) (hout : Outside w w' i)
    : Represents env w' (Function.update s i { s i with live := true, key := k }) := by
  have hshows := (h.holds i).shows
  apply h.update _ hout
  apply Holds.hollow
  . rw [hobj]
    exact ⟨hid, hkey, hnul, hsize.trans hshows.size, hshows.fits, fun _ => hshows.dead hdead⟩
  . exact hshows.dead hdead

theorem create (h : Represents env w s) (hlen : key.len < keySize)
    : ∃ (w' : World), createObject env key w = .ok ((s.create key.chars).1, w')
        ∧ Represents env w' (s.create key.chars).2 := by
  unfold createObject Items.create
  rw [h.scan_eq]
  cases (Loop.range maxObjs).find? (fun i => !(s i).live || s.hasKey key.chars i) with
  | none => exact ⟨w, rfl, h⟩
  | some i =>
    obtain ⟨-, hkey, hnul, -, -, -⟩ := (h.holds i).shows
    simp only
    cases hlive : (s i).live with
    | true =>
      simp only [↓reduceIte]
      exact ⟨w, rfl, h⟩
    | false =>
      let taken : Object := { w.obj i with id := BitVec.ofNat 64 (i + 2) }
      let w₁ : World := w.setObj i.index taken
      have htaken : w₁.obj i = taken := World.obj_setObj w i taken
      have hout₁ : Outside w w₁ i := Outside.setObj w i _
      simp only [Bool.false_eq_true, ↓reduceIte]
      cases hfind : (s.find key.chars).isSome with
      | true =>
        simp only [↓reduceIte]
        exact ⟨w₁, rfl, h.revive hlive (rfl : taken.id = _) hkey hnul rfl htaken hout₁⟩
      | false =>
        let obj : Object := { w₁.obj i with key := (w₁.obj i).key.copy 0 key.mem (key.len + 1) }
        let w₂ : World := w₁.setObj i.index obj
        let w₃ : World := { w₂ with table := initObjectCached env ⟨maxObjs, by decide⟩ w₂.table }
        have hobj : obj.id = BitVec.ofNat 64 (i + 2) := by
          simp only [obj, htaken, taken]
        have hvalue : obj.id.toInt = i.id := by
          have hlt : i.val < 16 := i.isLt
          rw [hobj, BitVec.toInt_eq_toNat_of_lt (by rw [BitVec.toNat_ofNat]; omega), BitVec.toNat_ofNat]
          simp only [Slot.id]
          omega
        have hcreate : createObject.finish env key w (some (some i), w₁.table) = .ok (i.id, w₃) := by
          rw [← hvalue]
          simp only [createObject.finish, hlen, ↓reduceIte, Table.setObj_self]
          rfl
        have hout : Outside w w₃ i := hout₁.trans ((Outside.setObj w₁ i obj).trans (behind w₂ i))
        refine ⟨w₃, hcreate, h.revive hlive hobj (copy_cstr _ hlen) (copy_nul _ hlen) ?_ ?_ hout⟩
        . simp only [obj, htaken, taken]
        . rw [(behind_obj w₂ i : w₃.obj i = w₂.obj i), World.obj_setObj]

end Represents

end ExampleStore
