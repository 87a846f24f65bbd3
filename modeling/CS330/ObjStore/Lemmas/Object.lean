import CS330.ObjStore.Lemmas.Codec
import CS330.ObjStore.Lemmas.Update
import CS330.ObjStore.Run

/-!
This module contains what the functions of the object table do for keys shorter than the key field:
lookup, creation and renaming.
-/

namespace ObjStore

def Obj.name (obj : Obj) : List Byte :=
  obj.key.cstr

namespace CStr

variable {key : CStr}

theorem length_chars : key.chars.length = key.len := by
  simp [chars]

theorem Short.chars_ne_nil (h : key.Short) : key.chars ≠ [] := by
  intro hnil
  have := @length_chars key
  rw [hnil] at this
  have := h.pos
  simp at *
  omega

theorem Short.length_lt (h : key.Short) : key.chars.length < keySize := by
  rw [length_chars]
  exact h.lt

theorem strcmp_iff (key : CStr) (p : Nat → Byte)
    : key.strcmp p = true ↔ ∀ (k : Nat), k ≤ key.len → p k = key.mem k := by
  simp only [strcmp, List.all_eq_true, List.mem_range, beq_iff_eq]
  constructor
  . intro h k hk
    exact h k (by omega)
  . intro h k hk
    exact h k (by omega)

end CStr

variable {w : World}

theorem Obj.name_eq_iff (obj : Obj) (key : CStr) (hkey : key.len < keySize)
    : obj.name = key.chars ↔ ∀ (k : Nat), k ≤ key.len → obj.key.get k = key.mem k :=
  Buf.cstr_eq_iff obj.key key.mem key.len hkey key.nul key.nonzero

theorem World.keyEq_iff (w : World) (o : Slot) (key : CStr) (hkey : key.len < keySize)
    : w.keyEq o key = true ↔ (w.objects o).name = key.chars := by
  rw [Obj.name_eq_iff _ _ hkey]
  unfold World.keyEq
  rw [CStr.strcmp_iff]
  have hmem : ∀ (k : Nat), k ≤ key.len
      → w.objMem (Obj.sizeof * o + 8 + k) = (w.objects o).key.get k := by
    intro k hk
    have hlt : k < keySize := by omega
    rw [Buf.get_lt _ _ hlt]
    exact w.objMem_key o ⟨k, hlt⟩
  constructor
  . intro h k hk
    rw [← hmem k hk]
    exact h k hk
  . intro h k hk
    rw [hmem k hk]
    exact h k hk

theorem findObject_some (key : CStr) (hkey : key.len < keySize) (o : Slot)
    (h : findObject key w = some o)
    : (w.objects o).name = key.chars := by
  have := List.find?_some h
  exact (w.keyEq_iff o key hkey).mp this

theorem findObject_none (key : CStr) (hkey : key.len < keySize)
    : findObject key w = none ↔ ∀ (o : Slot), (w.objects o).name ≠ key.chars := by
  unfold findObject
  rw [List.find?_eq_none]
  constructor
  . intro h o hname
    exact h o (Loop.mem_range o) ((w.keyEq_iff o key hkey).mpr hname)
  . intro h o _ heq
    exact h o ((w.keyEq_iff o key hkey).mp heq)

namespace createObject

theorem scan_spec (w : World) (key : CStr) (is : List Slot) (free : Option Slot)
    : (scan w key is free = none ∧ ∃ (i : Slot), i ∈ is ∧ w.keyEq i key = true)
      ∨ ∃ (free' : Option Slot), scan w key is free = some free'
        ∧ (∀ (i : Slot), free = some i → free' = some i)
        ∧ (∀ (i : Slot), i ∈ is → w.keyEq i key = true → free' = some i ∧ (w.objects i).size = 0#64)
        ∧ (∀ (i : Slot), free' = some i → free = some i ∨ (w.objects i).size = 0#64)
        ∧ (free' = none → ∀ (i : Slot), i ∈ is → (w.objects i).size ≠ 0#64) := by
  induction is generalizing free with
  | nil =>
    right
    refine ⟨free, rfl, fun _ h => h, ?_, fun _ h => Or.inl h, ?_⟩
    . intro i hi
      simp at hi
    . intro _ i hi
      simp at hi
  | cons i is ih =>
    unfold scan
    by_cases hfree : free = none ∧ (w.objects i).size = 0#64
    . rw [if_pos hfree]
      cases ih (some i) with
      | inl h =>
        obtain ⟨h1, j, h2, h3⟩ := h
        exact Or.inl ⟨h1, j, List.mem_cons_of_mem _ h2, h3⟩
      | inr h =>
        obtain ⟨free', h1, h2, h3, h4, h5⟩ := h
        have hi := h2 i rfl
        right
        refine ⟨free', h1, ?_, ?_, ?_, ?_⟩
        . intro j hj
          rw [hfree.1] at hj
          cases hj
        . intro j hj heq
          cases List.mem_cons.mp hj with
          | inl hji =>
            subst hji
            exact ⟨hi, hfree.2⟩
          | inr hji => exact h3 j hji heq
        . intro j hj
          right
          rw [hi] at hj
          rw [← Option.some.inj hj]
          exact hfree.2
        . intro hnone
          rw [hi] at hnone
          cases hnone
    . rw [if_neg hfree]
      by_cases hdup : w.keyEq i key = true
      . rw [if_pos hdup]
        exact Or.inl ⟨rfl, i, List.mem_cons_self, hdup⟩
      . rw [if_neg hdup]
        cases ih free with
        | inl h =>
          obtain ⟨h1, j, h2, h3⟩ := h
          exact Or.inl ⟨h1, j, List.mem_cons_of_mem _ h2, h3⟩
        | inr h =>
          obtain ⟨free', h1, h2, h3, h4, h5⟩ := h
          right
          refine ⟨free', h1, h2, ?_, h4, ?_⟩
          . intro j hj heq
            cases List.mem_cons.mp hj with
            | inl hji =>
              subst hji
              exact absurd heq hdup
            | inr hji => exact h3 j hji heq
          . intro hnone j hj
            cases List.mem_cons.mp hj with
            | inl hji =>
              subst hji
              intro hsize
              apply hfree
              refine ⟨?_, hsize⟩
              cases hf : free with
              | none => rfl
              | some k =>
                rw [h2 k hf] at hnone
                cases hnone
            | inr hji => exact h5 hnone j hji

-- The object that `create_object` puts into a free slot.
def fresh (key : CStr) (obj : Obj) : Obj :=
  { obj with size := 1#64, key := copied key 0 (key.len + 1) obj.key }

theorem fresh_name (key : CStr) (hkey : key.len < keySize) (obj : Obj)
    : (fresh key obj).name = key.chars := by
  rw [Obj.name_eq_iff _ _ hkey]
  intro k hk
  have hlt : k < keySize := by omega
  have hin : 0 ≤ k ∧ k < 0 + (key.len + 1) := by omega
  rw [Buf.get_lt _ _ hlt]
  simp only [fresh, copied, hin, and_self, ↓reduceIte]

end createObject

-- What a call that names an object leaves behind, whatever `strcpy` has written.
theorem createObject_ends {key : CStr} {r : Int} {w' : World} (h : createObject key w = .ok (r, w'))
    : w' = (w.lock .objCl).unlock .objCl
      ∨ ∃ (o : Slot) (objects : Slot → Obj), w' = markObjDirty o
          ((({ w.lock .objCl with objects := objects } : World).setObj o
            { objects o with size := 1#64 }).unlock .objCl) := by
  unfold createObject at h
  generalize createObject.scan (w.lock .objCl) key (Loop.range maxObjs) none = found at h
  cases found with
  | none =>
    cases h
    exact .inl rfl
  | some free =>
    cases free with
    | none =>
      cases h
      exact .inl rfl
    | some o =>
      obtain ⟨objects, -, h⟩ := Loop.bind_eq_ok.mp h
      cases h
      exact .inr ⟨o, objects, rfl⟩

theorem renameObject_ends (key newname : CStr) (w : World)
    : (renameObject key newname w).2 = (w.lock .objCl).unlock .objCl
      ∨ ∃ (o : Slot), (renameObject key newname w).2 = markObjDirty o
          (((w.lock .objCl).setObj o { w.objects o with key := fun i => newname.mem i }).unlock .objCl) := by
  unfold renameObject
  generalize renameObject.scan (w.lock .objCl) key newname (Loop.range maxObjs) none = found
  cases found with
  | none => exact .inl rfl
  | some objIndex =>
    cases objIndex with
    | none => exact .inl rfl
    | some o => exact .inr ⟨o, rfl⟩

-- `create_object` fails on a duplicate key or when no slot is free; else it fills a free slot. The first free
-- slot is not compared with the key.
theorem createObject_cases (w : World) (key : CStr) (hkey : key.len < keySize)
    : (∃ (log : List Event), createObject key w = .ok (-1, { w with log := log }) ∧ w.Logged log
        ∧ ((∃ (o : Slot), (w.objects o).name = key.chars) ∨ ∀ (o : Slot), (w.objects o).size ≠ 0#64))
      ∨ ∃ (o : Slot) (log : List Event), (w.objects o).size = 0#64
        ∧ (∀ (o' : Slot), (w.objects o').name = key.chars → o' = o)
        ∧ createObject key w
          = .ok (o.id, { w with
              objects := Function.update w.objects o (createObject.fresh key (w.objects o))
              objBmp := w.objBmp.set o
              log := log })
        ∧ w.Logged log := by
  unfold createObject
  have hspec := createObject.scan_spec (w.lock .objCl) key (Loop.range maxObjs) none
  generalize createObject.scan (w.lock .objCl) key (Loop.range maxObjs) none = res at hspec ⊢
  cases hspec with
  | inl h =>
    obtain ⟨rfl, i, -, hdup⟩ := h
    left
    refine ⟨.unlock .objCl :: .lock .objCl :: w.log, rfl, by simp [World.Logged], Or.inl ⟨i, ?_⟩⟩
    exact (w.keyEq_iff i key hkey).mp hdup
  | inr h =>
    obtain ⟨free, rfl, -, hother, hsize, hfull⟩ := h
    cases free with
    | none =>
      left
      refine ⟨.unlock .objCl :: .lock .objCl :: w.log, rfl, by simp [World.Logged], Or.inr ?_⟩
      intro o
      exact hfull rfl o (Loop.mem_range o)
    | some o =>
      right
      have hdead : (w.objects o).size = 0#64 := by
        cases hsize o rfl with
        | inl h => cases h
        | inr h => exact h
      refine ⟨o, .unlock .objBmp :: .lock .objBmp :: .unlock .objCl :: .lock .objCl :: w.log, hdead,
        ?_, ?_, by simp [World.Logged]⟩
      . intro o' hname
        have hdup := (w.keyEq_iff o' key hkey).mpr hname
        have := (hother o' (Loop.mem_range o') hdup).1
        exact (Option.some.inj this).symm
      . simp only [createObject.finish]
        rw [createObject.strcpy_eq _ _ _ _ _ (by omega)]
        simp only [bind, Except.bind, markObjDirty_eq, World.setObj, World.unlock, World.lock,
          World.emit, Function.update_self, Function.update_idem]
        rfl

namespace renameObject

theorem scan_spec (w : World) (key newname : CStr) (is : List Slot) (objIndex : Option Slot)
    : (scan w key newname is objIndex = none ∧ ∃ (i : Slot), i ∈ is ∧ w.keyEq i newname = true)
      ∨ ∃ (res : Option Slot), scan w key newname is objIndex = some res
        ∧ (∀ (i : Slot), i ∈ is → w.keyEq i newname = false)
        ∧ (∀ (i : Slot), res = some i → objIndex = some i ∨ w.keyEq i key = true)
        ∧ (res = none → objIndex = none ∧ ∀ (i : Slot), i ∈ is → w.keyEq i key = false) := by
  induction is generalizing objIndex with
  | nil =>
    right
    refine ⟨objIndex, rfl, ?_, fun _ h => Or.inl h, fun h => ⟨h, ?_⟩⟩
    . intro i hi
      simp at hi
    . intro i hi
      simp at hi
  | cons i is ih =>
    unfold scan
    dsimp only
    by_cases hnew : w.keyEq i newname = true
    . rw [if_pos hnew]
      exact Or.inl ⟨rfl, i, List.mem_cons_self, hnew⟩
    . rw [if_neg hnew]
      cases ih (if w.keyEq i key = true then some i else objIndex) with
      | inl h =>
        obtain ⟨h1, j, h2, h3⟩ := h
        exact Or.inl ⟨h1, j, List.mem_cons_of_mem _ h2, h3⟩
      | inr h =>
        obtain ⟨res, h1, h2, h3, h4⟩ := h
        right
        refine ⟨res, h1, ?_, ?_, ?_⟩
        . intro j hj
          cases List.mem_cons.mp hj with
          | inl hji =>
            subst hji
            simpa using hnew
          | inr hji => exact h2 j hji
        . intro j hj
          cases h3 j hj with
          | inr h => exact Or.inr h
          | inl h =>
            by_cases hkey : w.keyEq i key = true
            . rw [if_pos hkey] at h
              right
              rw [← Option.some.inj h]
              exact hkey
            . rw [if_neg hkey] at h
              exact Or.inl h
        . intro hnone
          obtain ⟨h5, h6⟩ := h4 hnone
          by_cases hkey : w.keyEq i key = true
          . rw [if_pos hkey] at h5
            cases h5
          . rw [if_neg hkey] at h5
            refine ⟨h5, ?_⟩
            intro j hj
            cases List.mem_cons.mp hj with
            | inl hji =>
              subst hji
              simpa using hkey
            | inr hji => exact h6 j hji

-- The object after `memcpy(object->key, newname, KEY_SIZE)`.
def renamed (newname : CStr) (obj : Obj) : Obj :=
  { obj with key := fun i => newname.mem i }

theorem renamed_name (newname : CStr) (hnew : newname.len < keySize) (obj : Obj)
    : (renamed newname obj).name = newname.chars := by
  rw [Obj.name_eq_iff _ _ hnew]
  intro k hk
  have hlt : k < keySize := by omega
  rw [Buf.get_lt _ _ hlt]
  rfl

end renameObject

-- `rename_object` fails when `newname` is taken or `key` is not; else it changes one key field.
theorem renameObject_cases (w : World) (key newname : CStr) (hkey : key.len < keySize)
    (hnew : newname.len < keySize)
    : (∃ (log : List Event), renameObject key newname w = (-1, { w with log := log }) ∧ w.Logged log
        ∧ ((∃ (o : Slot), (w.objects o).name = newname.chars)
          ∨ ∀ (o : Slot), (w.objects o).name ≠ key.chars))
      ∨ ∃ (o : Slot) (log : List Event), (w.objects o).name = key.chars
        ∧ (∀ (o' : Slot), (w.objects o').name ≠ newname.chars)
        ∧ renameObject key newname w
          = (o.id, { w with
              objects := Function.update w.objects o (renameObject.renamed newname (w.objects o))
              objBmp := w.objBmp.set o
              log := log })
        ∧ w.Logged log := by
  unfold renameObject
  have hspec := renameObject.scan_spec (w.lock .objCl) key newname (Loop.range maxObjs) none
  generalize renameObject.scan (w.lock .objCl) key newname (Loop.range maxObjs) none = res
    at hspec ⊢
  cases hspec with
  | inl h =>
    obtain ⟨rfl, i, -, hdup⟩ := h
    left
    refine ⟨.unlock .objCl :: .lock .objCl :: w.log, rfl, by simp [World.Logged], Or.inl ⟨i, ?_⟩⟩
    exact (w.keyEq_iff i newname hnew).mp hdup
  | inr h =>
    obtain ⟨res, rfl, hother, hfound, hnone⟩ := h
    cases res with
    | none =>
      left
      refine ⟨.unlock .objCl :: .lock .objCl :: w.log, rfl, by simp [World.Logged], Or.inr ?_⟩
      intro o hname
      have h1 := (hnone rfl).2 o (Loop.mem_range o)
      have h2 := (w.keyEq_iff o key hkey).mpr hname
      have h3 : (w.lock .objCl).keyEq o key = w.keyEq o key := rfl
      rw [h3, h2] at h1
      cases h1
    | some o =>
      right
      refine ⟨o, .unlock .objBmp :: .lock .objBmp :: .unlock .objCl :: .lock .objCl :: w.log, ?_, ?_,
        ?_, by simp [World.Logged]⟩
      . cases hfound o rfl with
        | inl h => cases h
        | inr h => exact (w.keyEq_iff o key hkey).mp h
      . intro o' hname
        have h1 := hother o' (Loop.mem_range o')
        have h2 := (w.keyEq_iff o' newname hnew).mpr hname
        have h3 : (w.lock .objCl).keyEq o' newname = w.keyEq o' newname := rfl
        rw [h3, h2] at h1
        cases h1
      . simp only [renameObject.finish, markObjDirty_eq, World.setObj, World.unlock, World.lock, World.emit]
        rfl

end ObjStore
