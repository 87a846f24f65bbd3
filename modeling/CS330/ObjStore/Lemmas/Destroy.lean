import CS330.ObjStore.Lemmas.Object

/-!
This module contains the correctness of `destroy_object`: it gives back exactly the blocks that the
places of the object hold.
-/

namespace ObjStore

open View

structure World.Frees (env : Env) (S : Ref → Prop) (w w' : World) : Prop where
  objBmp_eq : w'.objBmp = w.objBmp
  data_eq : (w'.view env).data = (w.view env).data
  used_iff : ∀ (b : BlockNo), (w'.view env).Used b
    ↔ (w.view env).Used b ∧ ¬ ∃ (r : Ref), S r ∧ (w.view env).ptr r ≠ 0#32 ∧ (w.view env).ptr r = b
  tagged : w'.Tagged
  noTable : w'.NoTable
  exhausted : w'.Exhausted ↔ w.Exhausted

variable {env : Env} {w w' w'' : World} {S S' : Ref → Prop}

namespace World.Frees

theorem refl (hok : w.Ok env) (hS : ∀ (r : Ref), ¬ S r) : w.Frees env S w where
  objBmp_eq := rfl
  data_eq := rfl
  used_iff := by
    intro b
    constructor
    . intro h
      refine ⟨h, ?_⟩
      rintro ⟨r, hr, -⟩
      exact hS r hr
    . intro h
      exact h.1
  tagged := hok.tagged
  noTable := hok.noTable
  exhausted := Iff.rfl

theorem congr (h : w.Frees env S w')
    (hS : ∀ (r : Ref), (w.view env).ptr r ≠ 0#32 → (S' r ↔ S r))
    : w.Frees env S' w' where
  objBmp_eq := h.objBmp_eq
  data_eq := h.data_eq
  used_iff := by
    intro b
    rw [h.used_iff b]
    have : (∃ (r : Ref), S r ∧ (w.view env).ptr r ≠ 0#32 ∧ (w.view env).ptr r = b)
        ↔ ∃ (r : Ref), S' r ∧ (w.view env).ptr r ≠ 0#32 ∧ (w.view env).ptr r = b := by
      constructor
      . rintro ⟨r, h1, h2, h3⟩
        exact ⟨r, (hS r h2).mpr h1, h2, h3⟩
      . rintro ⟨r, h1, h2, h3⟩
        exact ⟨r, (hS r h2).mp h1, h2, h3⟩
    rw [this]
  tagged := h.tagged
  noTable := h.noTable
  exhausted := h.exhausted

theorem setObj (h : w.Frees env S w') (o : Slot) (obj : Obj) : w.Frees env S (w'.setObj o obj) :=
  ⟨h.objBmp_eq, h.data_eq, h.used_iff, h.tagged, h.noTable, h.exhausted⟩

theorem emit (h : w.Frees env S w') (e : Event) (he : e ≠ .noSpace) : w.Frees env S (w'.emit e) where
  objBmp_eq := h.objBmp_eq
  data_eq := h.data_eq
  used_iff := h.used_iff
  tagged := h.tagged
  noTable := h.noTable
  exhausted := by
    rw [← h.exhausted]
    simp [World.Exhausted, World.emit, he.symm]

theorem freeBlock (hown : (w.view env).Own) (h : w.Frees env S w') (r : Ref)
    (hr : (w.view env).ptr r ≠ 0#32)
    : ∃ (w'' : World), ObjStore.freeBlock ((w.view env).ptr r) w' = .ok w''
        ∧ w''.objects = w'.objects ∧ w.Frees env (fun r' => S r' ∨ r' = r) w'' := by
  have hlt := Bitmap.bit_lt _ _ (hown.ptr_used r hr)
  refine ⟨_, freeBlock_eq _ hlt, rfl, h.objBmp_eq, h.data_eq, ?_, h.tagged, h.noTable, ?_⟩
  . intro b
    have hb : (w'.view env).Used b ↔ w'.blkBmp.bit b.toNat = true := Iff.rfl
    have hiff := h.used_iff b
    rw [hb] at hiff
    simp only [View.Used, World.view, Bitmap.bit_clear, Bool.and_eq_true, Bool.not_eq_true',
      decide_eq_false_iff_not, hiff]
    constructor
    . rintro ⟨hne, hused, hkeep⟩
      refine ⟨hused, ?_⟩
      rintro ⟨r', hS, h2, h3⟩
      cases hS with
      | inl hS => exact hkeep ⟨r', hS, h2, h3⟩
      | inr heq =>
        subst heq
        exact hne (congrArg BitVec.toNat h3.symm)
    . rintro ⟨hused, hkeep⟩
      refine ⟨?_, hused, ?_⟩
      . intro hnat
        exact hkeep ⟨r, Or.inr rfl, hr, (BitVec.eq_of_toNat_eq hnat).symm⟩
      . rintro ⟨r', hS, h2, h3⟩
        exact hkeep ⟨r', Or.inl hS, h2, h3⟩
  . rw [← h.exhausted]
    simp [World.Exhausted]

theorem read (hr : env.Reliable) (hown : (w.view env).Own) (h : w.Frees env S w') (r : Ref)
    (hp : (w.view env).ptr r ≠ 0#32) (buf : Block)
    : ∃ (w'' : World), readChBlk env ((w.view env).ptr r) buf w'
          = (true, (w.view env).data ((w.view env).ptr r), w'')
        ∧ w''.objects = w'.objects ∧ w.Frees env S w'' := by
  obtain ⟨w'', hread, hview, hkeeps⟩ := readChBlk_spec hr h.tagged _ hp buf
  rw [h.data_eq] at hread
  refine ⟨w'', hread, congrArg View.objects hview, ?_, ?_, ?_, hkeeps.tagged, ?_, ?_⟩
  . exact (congrArg View.objBmp hview).trans h.objBmp_eq
  . rw [hview]
    exact h.data_eq
  . rw [hview]
    exact h.used_iff
  . apply hkeeps.noTable _ h.noTable
    exact Nat.le_of_not_lt (hown.ptr_not_reserved r hp)
  . exact hkeeps.exhausted.trans h.exhausted

end World.Frees

def View.EntriesBefore (o : Slot) (i : Fin 4) (j : Nat) (r : Ref) : Prop :=
  ∃ (k : Fin 1024), k.val < j ∧ r = .entry o i k

def View.IndirectsBefore (o : Slot) (i : Nat) (r : Ref) : Prop :=
  ∃ (k : Fin 4), k.val < i ∧ (r = .indirect o k ∨ ∃ (j : Fin 1024), r = .entry o k j)

def View.DirectsBefore (o : Slot) (i : Nat) (r : Ref) : Prop :=
  ∃ (k : Fin 4), k.val < i ∧ r = .direct o k

theorem View.entriesBefore_succ (o : Slot) (i : Fin 4) (j : Fin 1024) (r : Ref)
    : EntriesBefore o i (j + 1) r ↔ (EntriesBefore o i j r ∨ r = .entry o i j) := by
  constructor
  . rintro ⟨k, hk, rfl⟩
    by_cases hkj : k = j
    . exact Or.inr (by rw [hkj])
    . have : k.val ≠ j.val := fun h => hkj (Fin.ext h)
      exact Or.inl ⟨k, by omega, rfl⟩
  . rintro (⟨k, hk, rfl⟩ | rfl)
    . exact ⟨k, by omega, rfl⟩
    . exact ⟨j, by omega, rfl⟩

theorem View.indirectsBefore_succ (o : Slot) (i : Fin 4) (r : Ref)
    : IndirectsBefore o (i + 1) r
        ↔ ((IndirectsBefore o i r ∨ EntriesBefore o i 1024 r) ∨ r = .indirect o i) := by
  constructor
  . rintro ⟨k, hk, hr⟩
    by_cases hki : k = i
    . subst hki
      cases hr with
      | inl h => exact Or.inr h
      | inr h =>
        obtain ⟨j, rfl⟩ := h
        exact Or.inl (Or.inr ⟨j, j.isLt, rfl⟩)
    . have : k.val ≠ i.val := fun h => hki (Fin.ext h)
      exact Or.inl (Or.inl ⟨k, by omega, hr⟩)
  . rintro ((⟨k, hk, hr⟩ | ⟨j, hj, rfl⟩) | rfl)
    . exact ⟨k, by omega, hr⟩
    . exact ⟨i, by omega, Or.inr ⟨j, rfl⟩⟩
    . exact ⟨i, by omega, Or.inl rfl⟩

theorem View.directsBefore_succ (o : Slot) (i : Fin 4) (r : Ref)
    : DirectsBefore o (i + 1) r ↔ (DirectsBefore o i r ∨ r = .direct o i) := by
  constructor
  . rintro ⟨k, hk, rfl⟩
    by_cases hki : k = i
    . exact Or.inr (by rw [hki])
    . have : k.val ≠ i.val := fun h => hki (Fin.ext h)
      exact Or.inl ⟨k, by omega, rfl⟩
  . rintro (⟨k, hk, rfl⟩ | rfl)
    . exact ⟨k, by omega, rfl⟩
    . exact ⟨i, by omega, rfl⟩

theorem View.slot_iff (o : Slot) (r : Ref)
    : r.slot = o ↔ (DirectsBefore o 4 r ∨ IndirectsBefore o 4 r) := by
  constructor
  . rintro rfl
    cases r with
    | direct o i => exact Or.inl ⟨i, i.isLt, rfl⟩
    | indirect o i => exact Or.inr ⟨i, i.isLt, Or.inl rfl⟩
    | entry o i j => exact Or.inr ⟨i, i.isLt, Or.inr ⟨j, rfl⟩⟩
  . rintro (⟨k, -, rfl⟩ | ⟨k, -, (rfl | ⟨j, rfl⟩)⟩)
    . rfl
    . rfl
    . rfl

theorem frees_entry (hown : (w.view env).Own) (o : Slot) (i : Fin 4)
    (hind : (w.objects o).indirect i ≠ 0#32) (j : Fin 1024)
    (h : w.Frees env (fun r => S r ∨ EntriesBefore o i j r) w')
    : ∃ (w'' : World),
        freePointerBlock.entry ((w.view env).data ((w.objects o).indirect i)) j w' = .ok (.next w'')
        ∧ w''.objects = w'.objects ∧ w.Frees env (fun r => S r ∨ EntriesBefore o i (j + 1) r) w'' := by
  have hptr : ptrAt ((w.view env).data ((w.objects o).indirect i)) j
      = (w.view env).ptr (.entry o i j) := (if_neg hind).symm
  unfold freePointerBlock.entry
  rw [hptr]
  by_cases hnull : (w.view env).ptr (.entry o i j) = 0#32
  . rw [if_neg (by simp [hnull])]
    refine ⟨w', rfl, rfl, h.congr ?_⟩
    intro r hr
    rw [entriesBefore_succ]
    have : r ≠ .entry o i j := by
      rintro rfl
      exact hr hnull
    simp [this]
  . rw [if_pos hnull]
    obtain ⟨w'', heq, hobj, hfrees⟩ := h.freeBlock hown _ hnull
    rw [heq]
    refine ⟨w'', rfl, hobj, hfrees.congr ?_⟩
    intro r _
    rw [entriesBefore_succ, or_assoc]

theorem freePointerBlock_spec (hr : env.Reliable) (hown : (w.view env).Own) (o : Slot) (i : Fin 4)
    (hind : (w.objects o).indirect i ≠ 0#32) (h : w.Frees env S w')
    : ∃ (w'' : World),
        freePointerBlock env ((w.objects o).indirect i) w' = .ok (0, w'')
        ∧ w''.objects = w'.objects
        ∧ w.Frees env (fun r => (S r ∨ EntriesBefore o i 1024 r) ∨ r = .indirect o i) w'' := by
  have hp : (w.view env).ptr (.indirect o i) ≠ 0#32 := hind
  unfold freePointerBlock
  rw [cmalloc_eq hr]
  obtain ⟨w₁, hread, hobj₁, h₁⟩ :=
    (h.emit (.cmalloc true) (by simp)).read hr hown _ hp (Buf.zero blockSize)
  have hread' : readChBlk env ((w.objects o).indirect i) (Buf.zero blockSize) (w'.emit (.cmalloc true))
      = (true, (w.view env).data ((w.objects o).indirect i), w₁) := hread
  simp only [hread']
  let P (j : Nat) (u : World) : Prop :=
    u.objects = w'.objects ∧ w.Frees env (fun r => S r ∨ EntriesBefore o i j r) u
  let Q (res : Except Fault (Loop.Flow Int World)) : Prop :=
    ∃ (u : World), res = .ok (.next u) ∧ P 1024 u
  have hrun : Q (Loop.run (freePointerBlock.entry ((w.view env).data ((w.objects o).indirect i)))
      (Loop.range 1024) w₁) := by
    apply Loop.run_inv (P := P)
    . rintro j u ⟨hobj, hfrees⟩
      obtain ⟨u', heq, hobj', hfrees'⟩ := frees_entry hown o i hind j hfrees
      rw [heq]
      exact ⟨hobj'.trans hobj, hfrees'⟩
    . intro u hu
      exact ⟨u, rfl, hu⟩
    . refine ⟨hobj₁, h₁.congr ?_⟩
      intro r _
      have : ¬ EntriesBefore o i 0 r := by
        rintro ⟨k, hk, -⟩
        omega
      simp [this]
  obtain ⟨u, heq, hobj, hfrees⟩ := hrun
  obtain ⟨w'', hfree, hobj'', hfrees''⟩ := hfrees.freeBlock hown _ hp
  have hfree' : freeBlock ((w.objects o).indirect i) u = .ok w'' := hfree
  rw [heq]
  simp only [bind, Except.bind, hfree']
  exact ⟨w'', rfl, hobj''.trans hobj, hfrees''⟩

namespace destroyObject

structure Gone (env : Env) (w : World) (o : Slot) (d i : Nat) (w' : World) : Prop where
  frees : w.Frees env (fun r => DirectsBefore o d r ∨ IndirectsBefore o i r) w'
  other : ∀ (o' : Slot), o' ≠ o → w'.objects o' = w.objects o'
  direct_eq : ∀ (k : Fin 4), (w'.objects o).direct k
    = if k.val < d then 0#32 else (w.objects o).direct k
  indirect_eq : ∀ (k : Fin 4), (w'.objects o).indirect k
    = if k.val < i then 0#32 else (w.objects o).indirect k

theorem update_lt {n : Nat} (f g : Fin 4 → BlockNo) (i : Fin 4) (hi : i.val = n)
    (hf : ∀ (k : Fin 4), f k = if k.val < n then 0#32 else g k) (k : Fin 4)
    : Function.update f i 0#32 k = if k.val < n + 1 then 0#32 else g k := by
  simp only [Function.update_apply, hf]
  by_cases hk : k = i
  . subst hk
    simp [hi]
  . have hne : k.val ≠ n := fun h => hk (Fin.ext (h.trans hi.symm))
    have hiff : k.val < n + 1 ↔ k.val < n := by omega
    simp [hk, hiff]

theorem gone_direct (hown : (w.view env).Own) (o : Slot) (i : Fin 4) (h : Gone env w o i 0 w')
    : ∃ (w'' : World), direct o i w' = .ok (.next w'') ∧ Gone env w o (i + 1) 0 w'' := by
  have hptr : (w'.objects o).direct i = (w.view env).ptr (.direct o i) := by
    rw [h.direct_eq i, if_neg (by omega)]
    rfl
  unfold direct
  rw [hptr]
  by_cases hnull : (w.view env).ptr (.direct o i) = 0#32
  . rw [if_neg (by simp [hnull])]
    refine ⟨w', rfl, h.frees.congr ?_, h.other, ?_, h.indirect_eq⟩
    . intro r hr
      rw [directsBefore_succ]
      have : r ≠ .direct o i := by
        rintro rfl
        exact hr hnull
      simp [this]
    . intro k
      have hupd := update_lt (w'.objects o).direct (w.objects o).direct i rfl h.direct_eq k
      rw [← hupd]
      have : (w'.objects o).direct i = 0#32 := hptr.trans hnull
      rw [← this, Function.update_eq_self]
  . rw [if_pos hnull]
    obtain ⟨w₁, heq, hobj, hfrees⟩ := h.frees.freeBlock hown _ hnull
    rw [heq]
    refine ⟨_, rfl, (hfrees.congr ?_).setObj _ _, ?_, ?_, ?_⟩
    . intro r _
      rw [directsBefore_succ]
      constructor
      . rintro ((h1 | h1) | h1)
        . exact Or.inl (Or.inl h1)
        . exact Or.inr h1
        . exact Or.inl (Or.inr h1)
      . rintro ((h1 | h1) | h1)
        . exact Or.inl (Or.inl h1)
        . exact Or.inr h1
        . exact Or.inl (Or.inr h1)
    . intro o' ho'
      simp only [World.setObj, Function.update_of_ne ho', hobj]
      exact h.other o' ho'
    . intro k
      simp only [World.setObj, Function.update_self, hobj]
      exact update_lt _ _ i rfl h.direct_eq k
    . intro k
      simp only [World.setObj, Function.update_self, hobj]
      exact h.indirect_eq k

theorem gone_indirect (hr : env.Reliable) (hown : (w.view env).Own) (o : Slot) (i : Fin 4)
    (h : Gone env w o 4 i w')
    : ∃ (w'' : World), indirect env o i w' = .ok (.next w'') ∧ Gone env w o 4 (i + 1) w'' := by
  have hptr : (w'.objects o).indirect i = (w.objects o).indirect i := by
    rw [h.indirect_eq i, if_neg (by omega)]
  unfold indirect
  rw [hptr]
  by_cases hnull : (w.objects o).indirect i = 0#32
  . rw [if_neg (by simp [hnull])]
    refine ⟨w', rfl, h.frees.congr ?_, h.other, h.direct_eq, ?_⟩
    . intro r hr
      rw [indirectsBefore_succ]
      -- without the pointer block, neither it nor its entries hold anything
      have h1 : r ≠ .indirect o i := by
        rintro rfl
        exact hr hnull
      have h2 : ¬ EntriesBefore o i 1024 r := by
        rintro ⟨j, -, rfl⟩
        exact hr (if_pos hnull)
      simp [h1, h2]
    . intro k
      have hupd := update_lt (w'.objects o).indirect (w.objects o).indirect i rfl h.indirect_eq k
      rw [← hupd]
      have : (w'.objects o).indirect i = 0#32 := hptr.trans hnull
      rw [← this, Function.update_eq_self]
  . rw [if_pos hnull]
    obtain ⟨w₁, heq, hobj, hfrees⟩ := freePointerBlock_spec hr hown o i hnull h.frees
    simp only [heq, bind, Except.bind]
    refine ⟨_, rfl, (hfrees.congr ?_).setObj _ _, ?_, ?_, ?_⟩
    . intro r _
      rw [indirectsBefore_succ]
      simp only [or_assoc]
    . intro o' ho'
      simp only [World.setObj, Function.update_of_ne ho', hobj]
      exact h.other o' ho'
    . intro k
      simp only [World.setObj, Function.update_self, hobj]
      exact h.direct_eq k
    . intro k
      simp only [World.setObj, Function.update_self, hobj]
      exact update_lt _ _ i rfl h.indirect_eq k

theorem gone_directs (hok : w.Ok env) (o : Slot)
    : ∃ (w' : World), Loop.run (direct o) (Loop.range 4) w = .ok (.next w')
        ∧ Gone env w o 4 0 w' := by
  let P (k : Nat) (u : World) : Prop := Gone env w o k 0 u
  let Q (res : Except Fault (Loop.Flow Int World)) : Prop :=
    ∃ (u : World), res = .ok (.next u) ∧ P 4 u
  have hrun : Q (Loop.run (direct o) (Loop.range 4) w) := by
    apply Loop.run_inv (P := P)
    . intro i u hu
      obtain ⟨u', heq, hu'⟩ := gone_direct hok.own o i hu
      rw [heq]
      exact hu'
    . intro u hu
      exact ⟨u, rfl, hu⟩
    . refine ⟨World.Frees.refl hok ?_, fun _ _ => rfl, ?_, ?_⟩
      . rintro r (⟨k, hk, -⟩ | ⟨k, hk, -⟩)
        . omega
        . omega
      . simp
      . simp
  exact hrun

theorem gone_indirects (hr : env.Reliable) (hown : (w.view env).Own) (o : Slot)
    (h : Gone env w o 4 0 w')
    : ∃ (w'' : World), Loop.run (indirect env o) (Loop.range 4) w' = .ok (.next w'')
        ∧ Gone env w o 4 4 w'' := by
  let P (k : Nat) (u : World) : Prop := Gone env w o 4 k u
  let Q (res : Except Fault (Loop.Flow Int World)) : Prop :=
    ∃ (u : World), res = .ok (.next u) ∧ P 4 u
  have hrun : Q (Loop.run (indirect env o) (Loop.range 4) w') := by
    apply Loop.run_inv (P := P)
    . intro i u hu
      obtain ⟨u', heq, hu'⟩ := gone_indirect hr hown o i hu
      rw [heq]
      exact hu'
    . intro u hu
      exact ⟨u, rfl, hu⟩
    . exact h
  exact hrun

end destroyObject

-- The world that `destroy_object` leaves behind when it has found `o`.
structure World.Destroyed (env : Env) (w : World) (o : Slot) (w' : World) : Prop where
  objects_eq : w'.objects = Function.update w.objects o Obj.zero
  objBmp_eq : w'.objBmp = w.objBmp.set o
  data_eq : (w'.view env).data = (w.view env).data
  used_iff : ∀ (b : BlockNo), (w'.view env).Used b ↔ (w.view env).Used b
    ∧ ¬ ∃ (r : Ref), r.slot = o ∧ (w.view env).ptr r ≠ 0#32 ∧ (w.view env).ptr r = b
  tagged : w'.Tagged
  noTable : w'.NoTable
  exhausted : w'.Exhausted ↔ w.Exhausted

theorem destroyObject_found (hr : env.Reliable) (hok : w.Ok env) (key : CStr) (o : Slot)
    (hfind : findObject key w = some o) (hsize : (w.objects o).size ≠ 0#64)
    : ∃ (w' : World), destroyObject env key w = .ok (0, w') ∧ w.Destroyed env o w' := by
  obtain ⟨w₁, hrun₁, h₁⟩ := destroyObject.gone_directs hok o
  obtain ⟨w₂, hrun₂, h₂⟩ := destroyObject.gone_indirects hr hok.own o h₁
  unfold destroyObject
  rw [hfind]
  simp only [destroyObject.finish, hsize, ↓reduceIte, hrun₁, hrun₂, bind, Except.bind, markObjDirty_eq]
  refine ⟨_, rfl, ?_, ?_, h₂.frees.data_eq, ?_, h₂.frees.tagged, h₂.frees.noTable, ?_⟩
  . funext o'
    simp only [World.setObj, Function.update_apply]
    by_cases ho : o' = o
    . simp only [ho, ↓reduceIte]
      apply Obj.ext
      . rfl
      . rfl
      . funext k
        have := h₂.direct_eq k
        rw [if_pos k.isLt] at this
        exact this
      . funext k
        have := h₂.indirect_eq k
        rw [if_pos k.isLt] at this
        exact this
    . simp only [ho, ↓reduceIte]
      exact h₂.other o' ho
  . simp only [World.setObj, h₂.frees.objBmp_eq]
  . intro b
    have := h₂.frees.used_iff b
    simp only [← slot_iff] at this
    exact this
  . rw [← h₂.frees.exhausted]
    simp [World.Exhausted, World.setObj]

theorem destroyObject_failed (key : CStr)
    (h : findObject key w = none ∨ ∃ (o : Slot), findObject key w = some o ∧ (w.objects o).size = 0#64)
    : destroyObject env key w = .ok (-1, w) := by
  unfold destroyObject
  cases h with
  | inl h =>
    rw [h]
    rfl
  | inr h =>
    obtain ⟨o, h1, h2⟩ := h
    rw [h1]
    simp only [destroyObject.finish, h2, ↓reduceIte]

namespace World.Destroyed

variable {o : Slot}

theorem ptr_eq (h : w.Destroyed env o w') (r : Ref)
    : (w'.view env).ptr r = if r.slot = o then 0#32 else (w.view env).ptr r := by
  have hobj : (w'.view env).objects = Function.update w.objects o Obj.zero := h.objects_eq
  cases r with
  | direct o' i =>
    simp only [View.ptr, hobj, Ref.slot, Function.update_apply]
    by_cases ho : o' = o
    . simp [ho, Obj.zero]
    . simp [ho, World.view]
  | indirect o' i =>
    simp only [View.ptr, hobj, Ref.slot, Function.update_apply]
    by_cases ho : o' = o
    . simp [ho, Obj.zero]
    . simp [ho, World.view]
  | entry o' i j =>
    simp only [View.ptr, hobj, Ref.slot, Function.update_apply, h.data_eq]
    by_cases ho : o' = o
    . simp [ho, Obj.zero]
    . simp only [ho, ↓reduceIte]
      rfl

theorem ok (h : w.Destroyed env o w') (hok : w.Ok env) : w'.Ok env where
  tagged := h.tagged
  noTable := h.noTable
  own := Owned.congr (hok.own.release (fun r => r.slot = o)) h.used_iff h.ptr_eq

theorem cell_eq (h : w.Destroyed env o w') (r : Ref) (hr : r.slot ≠ o)
    : (w'.view env).cell r = (w.view env).cell r := by
  unfold View.cell
  rw [h.ptr_eq r, if_neg hr, h.data_eq]

end World.Destroyed

end ObjStore
