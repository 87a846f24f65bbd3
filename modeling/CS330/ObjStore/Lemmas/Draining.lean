import CS330.ObjStore.Lemmas.Filling

/-!
This module contains the same for `destroy_object`, which empties the fields one by one and may give up at a
pointer block that it cannot read.
-/

namespace ObjStore

open View

variable {env : Env} {w w' w'' : World}

-- No block has been freed but those of `S`, and nothing else has been done.
structure World.Freed (S : BlockNo → Prop) (w w' : World) : Prop where
  objects_eq : w'.objects = w.objects
  objBmp_eq : w'.objBmp = w.objBmp
  disk_eq : w'.disk = w.disk
  log : ∃ (es : List Event), w'.log = es ++ w.log
  kept : ∀ (x : BlockNo), w.Marked x → ¬ S x → w'.Marked x

namespace World.Freed

variable {S : BlockNo → Prop}

theorem trans (h : World.Freed S w w') (h' : World.Freed S w' w'') : World.Freed S w w'' where
  objects_eq := h'.objects_eq.trans h.objects_eq
  objBmp_eq := h'.objBmp_eq.trans h.objBmp_eq
  disk_eq := h'.disk_eq.trans h.disk_eq
  log := by
    obtain ⟨es, hes⟩ := h.log
    obtain ⟨es', hes'⟩ := h'.log
    exact ⟨es' ++ es, by rw [hes', hes, List.append_assoc]⟩
  kept := fun x hx hS => h'.kept x (h.kept x hx hS) hS

theorem emit (S : BlockNo → Prop) (w : World) (e : Event) : World.Freed S w (w.emit e) :=
  ⟨rfl, rfl, rfl, ⟨[e], rfl⟩, fun _ hx _ => hx⟩

end World.Freed

theorem freeBlock_freed {S : BlockNo → Prop} {b : BlockNo} (hb : S b) (h : freeBlock b w = .ok w')
    : World.Freed S w w' := by
  by_cases hlt : b.toNat < 64 * blkBmpLn
  . rw [freeBlock_eq b hlt] at h
    cases h
    refine ⟨rfl, rfl, rfl, ⟨[.unlock .blkBmp, .lock .blkBmp], rfl⟩, ?_⟩
    intro x hx hS
    have hne : x.toNat ≠ b.toNat := by
      intro heq
      rw [BitVec.eq_of_toNat_eq heq] at hS
      exact hS hb
    unfold World.Marked at hx ⊢
    simp only [Bitmap.bit_clear, hne, decide_false, Bool.not_false, Bool.true_and]
    exact hx
  . have hge : ¬ b.toNat / 64 < blkBmpLn := by
      simp only [blkBmpLn] at hlt ⊢
      omega
    simp only [freeBlock, hge, ↓reduceDIte] at h
    cases h

-- what `free_pointer_block` frees when it can read the block
def World.Behind (w : World) (b x : BlockNo) : Prop :=
  x = b ∨ ∃ (j : Fin 1024), ptrAt (w.disk b) j ≠ 0#32 ∧ x = ptrAt (w.disk b) j

theorem freePointerBlock_freed (hc : env.cached = false) {b : BlockNo} {r : Int}
    (h : freePointerBlock env b w = .ok (r, w'))
    : (r = 0 ∧ World.Freed (w.Behind b) w w')
      ∨ (r ≠ 0 ∧ World.Freed (fun _ => False) w w'
        ∧ ∃ (es : List Event), w'.log = es ++ w.log
          ∧ (Event.cmalloc false ∈ es ∨ Event.readBlock b false ∈ es)) := by
  rcases freePointerBlock_cases h with ⟨hpage, rfl⟩ | ⟨page, w₁, hpage, hcases⟩
  . unfold cmalloc at hpage
    split at hpage
    . cases hpage
      exact .inr ⟨by decide, .emit _ w _, [.cmalloc false], rfl, .inl (by simp)⟩
    . cases hpage
  . unfold cmalloc at hpage
    split at hpage
    . cases hpage
    . cases hpage
      simp only [readChBlk, hc, readBlock, Bool.false_eq_true, ↓reduceIte] at hcases
      rcases hcases with ⟨buf, hread, rfl⟩ | ⟨buf, w₂, u, hread, hrun, hfree, rfl⟩
      . split at hread
        . cases hread
          exact .inr ⟨by decide, (World.Freed.emit _ w _).trans (.emit _ _ _),
            [.readBlock b false, .cmalloc true], rfl, .inr (by simp)⟩
        . cases hread
      . split at hread
        . cases hread
        . cases hread
          have hstart : World.Freed (w.Behind b) w ((w.emit (.cmalloc true)).emit (.readBlock b true)) :=
            (World.Freed.emit _ w _).trans (.emit _ _ _)
          have hloop : Loop.Falls (World.Freed (w.Behind b) w)
              (Loop.run (freePointerBlock.entry (w.disk b)) (Loop.range 1024)
                ((w.emit (.cmalloc true)).emit (.readBlock b true))) := by
            apply Loop.run_falls _ _ _ hstart
            intro j u hu
            unfold freePointerBlock.entry
            split
            . next hne =>
              cases heq : freeBlock (ptrAt (w.disk b) j) u with
              | error e => trivial
              | ok u' => exact hu.trans (freeBlock_freed (.inr ⟨j, hne, rfl⟩) heq)
            . exact hu
          have hrun' : Loop.run (freePointerBlock.entry (w.disk b)) (Loop.range 1024)
              ((w.emit (.cmalloc true)).emit (.readBlock b true)) = .ok (.next u) := hrun
          rw [hrun'] at hloop
          exact .inl ⟨rfl, hloop.trans (freeBlock_freed (.inl rfl) hfree)⟩

/--
How far the destruction of object `o` may have got: fields of it have been emptied. The pointer blocks from
`n` on are still there.
-/
structure World.Draining (o : Slot) (n : Nat) (w u : World) : Prop where
  sound : u.Sound
  other : ∀ (o' : Slot), o' ≠ o → u.objects o' = w.objects o'
  shrunk : ∀ (f : Obj.Field), (u.objects o).field f = 0#32 ∨ (u.objects o).field f = (w.objects o).field f
  ahead : ∀ (i : Fin 4), n ≤ i → (u.objects o).indirect i = (w.objects o).indirect i
  objBmp_eq : u.objBmp = w.objBmp
  disk_eq : u.disk = w.disk
  log : ∃ (es : List Event), u.log = es ++ w.log

namespace World.Draining

variable {o : Slot} {n : Nat} {u u' : World} {S : BlockNo → Prop}

theorem held_cases (h : World.Draining o n w u) (r : Slot × Obj.Field)
    : u.held r = 0#32 ∨ u.held r = w.held r := by
  obtain ⟨o', f⟩ := r
  by_cases ho : o' = o
  . subst ho
    exact h.shrunk f
  . simp only [World.held, h.other o' ho]
    exact Or.inr trivial

theorem drop (h : World.Draining o n w u) (f : Obj.Field) {m : Nat} (hm : n ≤ m)
    (hf : ∀ (i : Fin 4), f = .indirect i → i.val < m) (hfreed : World.Freed S u u')
    (hres : ∀ (x : BlockNo), Reserved x → ¬ S x)
    (hheld : ∀ (r : Slot × Obj.Field), r ≠ (o, f) → u.held r ≠ 0#32 → ¬ S (u.held r))
    : World.Draining o m w (u'.setObj o ((u'.objects o).setField 0#32 f)) := by
  have hfield : ∀ (f' : Obj.Field), ((u'.setObj o ((u'.objects o).setField 0#32 f)).objects o).field f'
      = if f' = f then 0#32 else (u.objects o).field f' := by
    intro f'
    simp only [World.setObj, Function.update_self, Obj.field_setField, hfreed.objects_eq]
  refine ⟨?_, ?_, ?_, ?_, hfreed.objBmp_eq.trans h.objBmp_eq, hfreed.disk_eq.trans h.disk_eq, ?_⟩
  . have hempty : (u'.setObj o ((u'.objects o).setField 0#32 f)).held
        = Function.update u.held (o, f) 0#32 := by
      rw [World.held_setField, World.held_congr hfreed.objects_eq]
    unfold World.Sound
    rw [hempty]
    apply h.sound.shrink
    . intro r
      by_cases hr : r = (o, f)
      . subst hr
        exact Or.inl (Function.update_self _ _ _)
      . exact Or.inr (Function.update_of_ne hr _ _)
    . intro x hx
      exact hfreed.kept x (h.sound.reserved_used x hx) (hres x hx)
    . intro r hne
      by_cases hr : r = (o, f)
      . subst hr
        exact absurd (Function.update_self _ _ _) hne
      . rw [Function.update_of_ne hr] at hne ⊢
        exact hfreed.kept _ (h.sound.ptr_used r hne) (hheld r hr hne)
  . intro o' ho'
    simp only [World.setObj, Function.update_of_ne ho', hfreed.objects_eq]
    exact h.other o' ho'
  . intro f'
    rw [hfield]
    split
    . exact Or.inl rfl
    . exact h.shrunk f'
  . intro i hi
    have hne : Obj.Field.indirect i ≠ f := by
      intro heq
      have := hf i heq.symm
      omega
    have hkeep := hfield (.indirect i)
    rw [if_neg hne] at hkeep
    exact hkeep.trans (h.ahead i (Nat.le_trans hm hi))
  . obtain ⟨es, hes⟩ := h.log
    obtain ⟨es', hes'⟩ := hfreed.log
    exact ⟨es' ++ es, by
      rw [List.append_assoc, ← hes]
      exact hes'⟩

theorem freed (h : World.Draining o n w u) (hfreed : World.Freed (fun _ => False) u u')
    : World.Draining o n w u' where
  sound := h.sound.mono (World.held_congr hfreed.objects_eq) (fun x hx => hfreed.kept x hx id)
  other := by
    rw [hfreed.objects_eq]
    exact h.other
  shrunk := by
    rw [hfreed.objects_eq]
    exact h.shrunk
  ahead := by
    rw [hfreed.objects_eq]
    exact h.ahead
  objBmp_eq := hfreed.objBmp_eq.trans h.objBmp_eq
  disk_eq := hfreed.disk_eq.trans h.disk_eq
  log := by
    obtain ⟨es, hes⟩ := h.log
    obtain ⟨es', hes'⟩ := hfreed.log
    exact ⟨es' ++ es, by rw [hes', hes, List.append_assoc]⟩

end World.Draining

namespace destroyObject

variable {o : Slot} {u : World}

theorem direct_draining (i : Fin 4) (hu : World.Draining o 0 w u)
    : Loop.Falls (World.Draining o 0 w) (direct o i u) := by
  unfold direct
  split
  . next hne =>
    cases heq : freeBlock ((u.objects o).direct i) u with
    | error e => trivial
    | ok u' =>
      have hfreed := freeBlock_freed (S := fun x => x = u.held (o, .direct i)) rfl heq
      apply hu.drop (.direct i) (Nat.le_refl 0) (by simp) hfreed
      . rintro x hx rfl
        exact hu.sound.ptr_not_reserved (o, .direct i) hne hx
      . intro r hr hne' heq
        exact hr (hu.sound.inj r (o, .direct i) hne' heq)
  . exact hu

-- the pointer block that could not be read is the first of those that are left
def GaveUp (o : Slot) (w u : World) : Prop :=
  ∃ (i : Fin 4) (es : List Event), World.Draining o i w u ∧ u.log = es ++ w.log
    ∧ (Event.cmalloc false ∈ es ∨ Event.readBlock ((w.objects o).indirect i) false ∈ es)

-- how the loop over the pointer blocks ends
def Outcome (o : Slot) (w : World) : Except Fault (Loop.Flow Int World) → Prop
  | .ok (.next u) => World.Draining o 4 w u
  | .ok (.stop _) => False
  | .ok (.ret _ u) => GaveUp o w u
  | .error _ => True

theorem indirect_draining (hc : env.cached = false) (hproper : w.Proper o) (i : Fin 4)
    (hu : World.Draining o i w u)
    : Loop.StepPost (World.Draining o (i + 1) w) (Outcome o w) (indirect env o i u) := by
  have hsame := hu.ahead i (Nat.le_refl _)
  unfold indirect
  split
  . next hne =>
    cases heq : freePointerBlock env ((u.objects o).indirect i) u with
    | error e => trivial
    | ok res =>
      obtain ⟨r, u'⟩ := res
      simp only [bind, Except.bind]
      cases freePointerBlock_freed hc heq with
      | inl hdone =>
        obtain ⟨rfl, hfreed⟩ := hdone
        rw [if_neg (by decide)]
        apply hu.drop (.indirect i) (Nat.le_succ i.val) _ hfreed
        . intro x hx hbehind
          cases hbehind with
          | inl hself =>
            subst hself
            exact hu.sound.ptr_not_reserved (o, .indirect i) hne hx
          | inr hentry =>
            obtain ⟨j, hj, rfl⟩ := hentry
            rw [hu.disk_eq, hsame] at hj hx
            exact (hproper i j (hsame ▸ hne) hj).1 hx
        . intro r hr hne' hbehind
          cases hbehind with
          | inl hself => exact hr (hu.sound.inj r (o, .indirect i) hne' hself)
          | inr hentry =>
            -- an entry is in no field of an inode
            obtain ⟨j, hj, heq'⟩ := hentry
            rw [hu.disk_eq, hsame] at hj heq'
            rw [(hu.held_cases r).resolve_left hne'] at heq'
            exact (hproper i j (hsame ▸ hne) hj).2 r heq'
        . intro k hk
          cases hk
          omega
      | inr hfail =>
        obtain ⟨hr, hfreed, es', hes', hevent⟩ := hfail
        obtain ⟨es, hes⟩ := hu.log
        have hgave : GaveUp o w u' := by
          refine ⟨i, es' ++ es, hu.freed hfreed, by rw [hes', hes, List.append_assoc], ?_⟩
          rw [hsame] at hevent
          exact hevent.imp (List.mem_append_left es) (List.mem_append_left es)
        rw [if_pos hr]
        exact hgave
  . next hnull =>
    exact ⟨hu.sound, hu.other, hu.shrunk, fun k hk => hu.ahead k (by omega), hu.objBmp_eq, hu.disk_eq, hu.log⟩

theorem finish_draining (hc : env.cached = false) (hproper : w.Proper o) (hsound : w.Sound) {r : Int}
    (h : finish env w (some o) = .ok (r, w')) (hsize : (w.objects o).size ≠ 0#64)
    : GaveUp o w w' ∨ ∃ (v : World), World.Draining o 4 w v ∧ w' = markObjDirty o
        (v.setObj o { v.objects o with size := 0#64, key := Buf.zero keySize }) := by
  have hstart : World.Draining o 0 w w :=
    ⟨hsound, fun _ _ => rfl, fun _ => Or.inr rfl, fun _ _ => rfl, rfl, rfl, [], rfl⟩
  obtain ⟨u, v, hrun₁, hends⟩ := finish_loops hsize h
  have hloop₁ := Loop.run_falls (fun i u hu => direct_draining i hu) (Loop.range 4) w hstart
  rw [hrun₁] at hloop₁
  have hloop₂ := Loop.run_inv (P := fun n => World.Draining o n w) (Q := Outcome o w)
    (fun i u hu => indirect_draining hc hproper i hu) (fun _ hu => hu) u hloop₁
  rcases hends with ⟨hrun₂, rfl⟩ | ⟨hrun₂, -, rfl⟩
  . rw [hrun₂] at hloop₂
    exact .inl hloop₂
  . rw [hrun₂] at hloop₂
    exact .inr ⟨v, hloop₂, rfl⟩

end destroyObject

theorem World.Draining.mirrored {o o' : Slot} {n : Nat} {u : World} (h : World.Draining o n w u)
    (hw : w.Restorable) (hne : o' ≠ o) (hclean : objstoreDestroy.dirty u (objBlock o') = false)
    : u.Mirrored o' := by
  rw [objstoreDestroy.dirty_congr h.objBmp_eq] at hclean
  have hmirrored := hw.mirrored o' hclean
  unfold World.Mirrored at hmirrored ⊢
  rw [h.disk_eq, h.other o' hne]
  exact hmirrored

theorem World.Draining.restorable {o : Slot} {v : World} (hv : World.Draining o 4 w v) (hw : w.Restorable)
    : (markObjDirty o (v.setObj o { v.objects o with size := 0#64, key := Buf.zero keySize })).Restorable := by
  have hfield : Obj.field { v.objects o with size := 0#64, key := Buf.zero keySize }
      = (v.objects o).field := by
    funext f
    cases f <;> rfl
  rw [markObjDirty_eq]
  constructor
  . exact hv.sound.congr (v.held_setObj o _ hfield) rfl
  . intro o' hclean f hne
    obtain ⟨hblock, hclean'⟩ := dirty_set (w := v) o rfl _ hclean
    have ho : o' ≠ o := by
      rintro rfl
      exact hblock rfl
    simp only [World.setObj, Function.update_of_ne ho] at hne ⊢
    exact hv.mirrored hw ho hclean' f hne

-- The events of a call that has led from `w` to `w'`.
def World.since (w w' : World) : List Event :=
  w'.log.take (w'.log.length - w.log.length)

theorem World.since_eq {es : List Event} (h : w'.log = es ++ w.log) : w.since w' = es := by
  unfold World.since
  rw [h, List.length_append, Nat.add_sub_cancel, List.take_left]

-- an object that is given up has lost none of the fields that its inode on the disk still has
theorem destroyObject.GaveUp.restorable {o : Slot} (h : GaveUp o w w') (hw : w.Restorable)
    (hpages : Event.cmalloc false ∉ w.since w')
    (hcareful : ∀ (i : Fin 4), Event.readBlock ((w.objects o).indirect i) false ∈ w.since w'
      → objstoreDestroy.dirty w (objBlock o) = true
        ∨ ((∀ (k : Fin 4), (diskObj w.disk o).direct k = 0#32)
          ∧ ∀ (k : Fin 4), k < i → (diskObj w.disk o).indirect k = 0#32))
    : w'.Restorable := by
  obtain ⟨i, es, hdrain, hlog, hevent⟩ := h
  rw [World.since_eq hlog] at hpages hcareful
  have hstored := hcareful i (hevent.resolve_left hpages)
  refine ⟨hdrain.sound, ?_⟩
  intro o' hclean
  by_cases ho : o' = o
  . subst ho
    rw [objstoreDestroy.dirty_congr hdrain.objBmp_eq] at hclean
    rw [hclean] at hstored
    obtain ⟨hdirect, hindirect⟩ := hstored.resolve_left (by simp)
    intro f hne
    rw [hdrain.disk_eq] at hne ⊢
    have hmem := hw.mirrored o' hclean f hne
    rw [← hmem]
    cases f with
    | direct k => exact absurd (hdirect k) hne
    | indirect k =>
      by_cases hk : k < i
      . exact absurd (hindirect k hk) hne
      . exact hdrain.ahead k (Nat.le_of_not_lt hk)
  . exact hdrain.mirrored hw ho hclean

end ObjStore
