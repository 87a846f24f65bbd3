import CS330.ObjStore.Visits
import CS330.ObjStore.Failures
import CS330.ObjStore.Lemmas.Destroy
import CS330.ObjStore.Lemmas.Tried

/-!
This module contains what `destroy_object` does when it fails. It gives up at a pointer block that it cannot
read, and what it has freed before stays free.
-/

namespace ObjStore

open View

variable {env : Env} {w w' w'' : World} {o : Slot} {S S' : BlockNo → Prop}

/-- Exactly the blocks of `S` have been freed between `w` and `w'`, and no block has another content. -/
structure World.Cleared (env : Env) (S : BlockNo → Prop) (w w' : World) : Prop where
  tagged : w'.Tagged
  data_eq : (w'.view env).data = (w.view env).data
  used_iff : ∀ (b : BlockNo), (w'.view env).Used b ↔ (w.view env).Used b ∧ ¬ S b

namespace World.Cleared

theorem refl (htag : w.Tagged) : w.Cleared env (fun _ => False) w :=
  ⟨htag, rfl, by simp⟩

theorem trans (h : w.Cleared env S w') (h' : w'.Cleared env S' w'') : w.Cleared env (fun b => S b ∨ S' b) w'' where
  tagged := h'.tagged
  data_eq := h'.data_eq.trans h.data_eq
  used_iff := by
    intro b
    rw [h'.used_iff, h.used_iff, not_or, and_assoc]

theorem congr (h : w.Cleared env S w') (hS : ∀ (b : BlockNo), S' b ↔ S b) : w.Cleared env S' w' where
  tagged := h.tagged
  data_eq := h.data_eq
  used_iff := by
    intro b
    rw [h.used_iff, hS]

theorem setObj (h : w.Cleared env S w') (o : Slot) (obj : Obj) : w.Cleared env S (w'.setObj o obj) :=
  ⟨h.tagged, h.data_eq, h.used_iff⟩

theorem of_eq (htag : w'.Tagged) (hdata : (w'.view env).data = (w.view env).data) (hbmp : w'.blkBmp = w.blkBmp)
    : w.Cleared env (fun _ => False) w' := by
  refine ⟨htag, hdata, ?_⟩
  intro b
  simp only [View.Used, World.view, hbmp, not_false_eq_true, and_true]

end World.Cleared

theorem freeBlock_cleared (env : Env) {b : BlockNo} (htag : w.Tagged) (h : freeBlock b w = .ok w')
    : w'.objects = w.objects ∧ w.Cleared env (fun x => x = b) w' := by
  refine ⟨freeBlock_objects h, freeBlock_tagged h htag, ?_, ?_⟩
  . unfold freeBlock at h
    split at h
    . cases h
      rfl
    . cases h
  . by_cases hlt : b.toNat < 64 * blkBmpLn
    . rw [freeBlock_eq b hlt] at h
      cases h
      intro x
      simp only [View.Used, World.view, Bitmap.bit_clear, Bool.and_eq_true, Bool.not_eq_true', decide_eq_false_iff_not,
        BitVec.toNat_inj]
      exact And.comm
    . have hge : ¬ b.toNat / 64 < blkBmpLn := by
        simp only [blkBmpLn] at hlt ⊢
        omega
      simp only [freeBlock, hge, ↓reduceDIte] at h
      cases h

theorem readChBlk_read {b : BlockNo} {buf blk : Block} (htag : w.Tagged) (hb : b ≠ 0#32)
    (h : readChBlk env b buf w = (true, blk, w'))
    : blk = (w.view env).data b ∧ w'.objects = w.objects ∧ w.Cleared env (fun _ => False) w' := by
  have hr := steady_reliable env.cached
  obtain ⟨u, heq, hview, hkeeps⟩ := readChBlk_spec hr htag b hb buf
  have hsteady : readChBlk (steady env.cached) b buf w = (true, blk, w') := readChBlk_calm h rfl (hr.calm _)
  rw [hsteady] at heq
  cases heq
  -- the view does not depend on the failures
  have hview' : w'.view env = w.view env := hview
  exact ⟨rfl, congrArg View.objects hview', .of_eq hkeeps.tagged (congrArg View.data hview')
    (congrArg View.blkBmp hview')⟩

/-- What `free_pointer_block` frees. -/
def View.Behind (v : View) (b x : BlockNo) : Prop :=
  (∃ (j : Fin 1024), ptrAt (v.data b) j ≠ 0#32 ∧ ptrAt (v.data b) j = x) ∨ x = b

/-- The pointer block cannot be had: there is no page for it, or it cannot be read. -/
def Refused (env : Env) (b : BlockNo) (w : World) : Prop :=
  (cmalloc env w).1 = none
    ∨ ∃ (page : Block), (cmalloc env w).1 = some page ∧ (readChBlk env b page (cmalloc env w).2).1 = false

theorem cmalloc_cleared (env : Env) (htag : w.Tagged) : w.Cleared env (fun _ => False) (cmalloc env w).2 := by
  unfold cmalloc
  split
  . exact .of_eq htag rfl rfl
  . exact .of_eq htag rfl rfl

theorem freePointerBlock_refused {b : BlockNo} (h : Refused env b w)
    : ∃ (u : World), freePointerBlock env b w = .ok (-1, u) ∧ u.objects = w.objects ∧ u.blkBmp = w.blkBmp := by
  unfold freePointerBlock
  have hobj := cmalloc_objects env w
  have hbmp : (cmalloc env w).2.blkBmp = w.blkBmp := by
    unfold cmalloc
    split
    . rfl
    . rfl
  unfold Refused at h
  generalize cmalloc env w = res at h hobj hbmp
  obtain ⟨page, u⟩ := res
  cases page with
  | none => exact ⟨u, rfl, hobj, hbmp⟩
  | some page =>
    have hread : (readChBlk env b page u).1 = false := by
      rcases h with h | ⟨page', h, hread⟩
      . cases h
      . cases h
        exact hread
    have hobj' := readChBlk_objects env b page u
    have hbmp' := readChBlk_blkBmp env b page u
    simp only
    generalize readChBlk env b page u = res at hread hobj' hbmp'
    obtain ⟨ok, blk, v⟩ := res
    cases ok with
    | true => cases hread
    | false => exact ⟨v, rfl, hobj'.trans hobj, hbmp'.trans hbmp⟩

theorem freePointerBlock_entries (env : Env) {blk : Block} (htag : w.Tagged)
    (h : Loop.run (freePointerBlock.entry blk) (Loop.range 1024) w = .ok (.next w'))
    : w'.objects = w.objects
      ∧ w.Cleared env (fun x => ∃ (j : Fin 1024), ptrAt blk j ≠ 0#32 ∧ ptrAt blk j = x) w' := by
  let P (n : Nat) (u : World) : Prop := u.objects = w.objects
    ∧ w.Cleared env (fun x => ∃ (j : Fin 1024), j.val < n ∧ ptrAt blk j ≠ 0#32 ∧ ptrAt blk j = x) u
  let Q (res : Except Fault (Loop.Flow Int World)) : Prop := ∀ (u : World), res = .ok (.next u) → P 1024 u
  have hrun : Q (Loop.run (freePointerBlock.entry blk) (Loop.range 1024) w) := by
    apply Loop.run_inv (P := P)
    . rintro j u ⟨hobj, hclear⟩
      unfold freePointerBlock.entry
      by_cases hnull : ptrAt blk j = 0#32
      . rw [if_neg (by simp [hnull])]
        refine ⟨hobj, hclear.congr ?_⟩
        intro x
        constructor
        . rintro ⟨k, hk, hne, rfl⟩
          have hkj : k ≠ j := fun heq => hne (heq ▸ hnull)
          have : k.val ≠ j.val := fun heq => hkj (Fin.ext heq)
          exact ⟨k, by omega, hne, rfl⟩
        . rintro ⟨k, hk, hrest⟩
          exact ⟨k, by omega, hrest⟩
      . rw [if_pos hnull]
        cases hfree : freeBlock (ptrAt blk j) u with
        | error e =>
          intro u' hu'
          cases hu'
        | ok u' =>
          obtain ⟨hobj', hclear'⟩ := freeBlock_cleared env hclear.tagged hfree
          refine ⟨hobj'.trans hobj, (hclear.trans hclear').congr ?_⟩
          intro x
          constructor
          . rintro ⟨k, hk, hne, rfl⟩
            by_cases hkj : k = j
            . exact .inr (by rw [hkj])
            . have : k.val ≠ j.val := fun heq => hkj (Fin.ext heq)
              exact .inl ⟨k, by omega, hne, rfl⟩
          . rintro (⟨k, hk, hrest⟩ | rfl)
            . exact ⟨k, by omega, hrest⟩
            . exact ⟨j, by omega, hnull, rfl⟩
    . intro u hu u' hu'
      cases hu'
      exact hu
    . refine ⟨rfl, (World.Cleared.refl htag).congr ?_⟩
      simp
  obtain ⟨hobj, hclear⟩ := hrun w' h
  exact ⟨hobj, hclear.congr (by simp)⟩

theorem freePointerBlock_freeing {b : BlockNo} {r : Int} (htag : w.Tagged) (hb : b ≠ 0#32)
    (hhad : ¬ Refused env b w) (h : freePointerBlock env b w = .ok (r, w'))
    : r = 0 ∧ w'.objects = w.objects ∧ w.Cleared env ((w.view env).Behind b) w' := by
  have hobj := cmalloc_objects env w
  have hclear := cmalloc_cleared env htag
  unfold Refused at hhad
  rw [not_or] at hhad
  rcases freePointerBlock_cases h with ⟨hpage, -⟩ | ⟨page, u, hpage, hcases⟩
  . rw [hpage] at hhad
    exact absurd rfl hhad.1
  . rw [hpage] at hhad hobj hclear
    rcases hcases with ⟨blk, hread, -⟩ | ⟨blk, v, u', hread, hrun, hfree, hr⟩
    . refine absurd ⟨page, rfl, ?_⟩ hhad.2
      simp only [hread]
    . obtain ⟨rfl, hobj₁, hclear₁⟩ := readChBlk_read hclear.tagged hb hread
      simp only at hclear hobj
      rw [hclear.data_eq] at hrun
      obtain ⟨hobj₂, hclear₂⟩ := freePointerBlock_entries env hclear₁.tagged hrun
      obtain ⟨hobj₃, hclear₃⟩ := freeBlock_cleared env hclear₂.tagged hfree
      refine ⟨hr, ((hobj₃.trans hobj₂).trans hobj₁).trans hobj, ?_⟩
      apply (((hclear.trans hclear₁).trans hclear₂).trans hclear₃).congr
      intro x
      simp only [or_self, false_or, View.Behind]

namespace destroyObject

/-- How far the destruction of `o` has got: it has emptied `d` direct and `i` indirect pointers. -/
structure Emptied (env : Env) (w : World) (o : Slot) (d i : Nat) (u : World) : Prop where
  cleared : w.Cleared env (fun b => ∃ (r : Ref), (DirectsBefore o d r ∨ IndirectsBefore o i r)
    ∧ (w.view env).ptr r ≠ 0#32 ∧ (w.view env).ptr r = b) u
  other : ∀ (o' : Slot), o' ≠ o → u.objects o' = w.objects o'
  size_eq : (u.objects o).size = (w.objects o).size
  key_eq : (u.objects o).key = (w.objects o).key
  direct_eq : ∀ (k : Fin 4), (u.objects o).direct k = if k.val < d then 0#32 else (w.objects o).direct k
  indirect_eq : ∀ (k : Fin 4), (u.objects o).indirect k = if k.val < i then 0#32 else (w.objects o).indirect k

variable {u v : World} {i : Fin 4} {flow : Loop.Flow Int World} {d n : Nat}

theorem emptied_zero (htag : w.Tagged) (o : Slot) : Emptied env w o 0 0 w := by
  refine ⟨(World.Cleared.refl htag).congr ?_, fun _ _ => rfl, rfl, rfl, by simp, by simp⟩
  intro b
  constructor
  . rintro ⟨r, (⟨k, hk, -⟩ | ⟨k, hk, -⟩), -⟩
    . omega
    . omega
  . intro hfalse
    exact hfalse.elim

theorem Emptied.setObj {d' n' : Nat} (h : Emptied env w o d n u) (hobj : v.objects = u.objects)
    (direct indirect : Fin 4 → BlockNo)
    (hcleared : w.Cleared env (fun b => ∃ (r : Ref), (DirectsBefore o d' r ∨ IndirectsBefore o n' r)
      ∧ (w.view env).ptr r ≠ 0#32 ∧ (w.view env).ptr r = b) v)
    (hdirect : ∀ (k : Fin 4), direct k = if k.val < d' then 0#32 else (w.objects o).direct k)
    (hindirect : ∀ (k : Fin 4), indirect k = if k.val < n' then 0#32 else (w.objects o).indirect k)
    : Emptied env w o d' n' (v.setObj o { v.objects o with direct := direct, indirect := indirect }) := by
  refine ⟨hcleared.setObj _ _, ?_, ?_, ?_, ?_, ?_⟩
  . intro o' ho'
    simp only [World.setObj, Function.update_of_ne ho', hobj]
    exact h.other o' ho'
  . simp only [World.setObj, Function.update_self, hobj]
    exact h.size_eq
  . simp only [World.setObj, Function.update_self, hobj]
    exact h.key_eq
  . intro k
    simp only [World.setObj, Function.update_self]
    exact hdirect k
  . intro k
    simp only [World.setObj, Function.update_self]
    exact hindirect k

theorem emptied_direct (h : Emptied env w o i 0 u) (heq : direct o i u = .ok flow)
    : ∃ (u' : World), flow = .next u' ∧ Emptied env w o (i + 1) 0 u' := by
  have hptr : (u.objects o).direct i = (w.view env).ptr (.direct o i) := by
    rw [h.direct_eq i, if_neg (by omega)]
    rfl
  unfold direct at heq
  rw [hptr] at heq
  by_cases hnull : (w.view env).ptr (.direct o i) = 0#32
  . rw [if_neg (by simp [hnull])] at heq
    cases heq
    refine ⟨u, rfl, h.cleared.congr ?_, h.other, h.size_eq, h.key_eq, ?_, h.indirect_eq⟩
    . intro b
      apply exists_congr
      intro r
      have : (w.view env).ptr r ≠ 0#32 → r ≠ .direct o i := by
        rintro hne rfl
        exact hne hnull
      rw [directsBefore_succ]
      tauto
    . intro k
      rw [← update_lt (u.objects o).direct (w.objects o).direct i rfl h.direct_eq k]
      have : (u.objects o).direct i = 0#32 := hptr.trans hnull
      rw [← this, Function.update_eq_self]
  . rw [if_pos hnull] at heq
    obtain ⟨u₁, hfree, hret⟩ := Loop.bind_eq_ok.mp heq
    cases hret
    obtain ⟨hobj, hclear⟩ := freeBlock_cleared env h.cleared.tagged hfree
    refine ⟨_, rfl, h.setObj hobj _ _ ((h.cleared.trans hclear).congr ?_) ?_ ?_⟩
    . intro b
      simp only [directsBefore_succ]
      constructor
      . rintro ⟨r, ((hd | rfl) | hi), hne, rfl⟩
        . exact .inl ⟨r, .inl hd, hne, rfl⟩
        . exact .inr rfl
        . exact .inl ⟨r, .inr hi, hne, rfl⟩
      . rintro (⟨r, (hd | hi), hne, rfl⟩ | rfl)
        . exact ⟨r, .inl (.inl hd), hne, rfl⟩
        . exact ⟨r, .inr hi, hne, rfl⟩
        . exact ⟨.direct o i, .inl (.inr rfl), hnull, rfl⟩
    . intro k
      rw [hobj]
      exact update_lt _ _ i rfl h.direct_eq k
    . intro k
      rw [hobj]
      exact h.indirect_eq k

-- the pass gives up, and has left everything as it was
theorem indirect_refused (hne : (u.objects o).indirect i ≠ 0#32) (h : Refused env ((u.objects o).indirect i) u)
    : ∃ (v : World), indirect env o i u = .ok (.ret (-1) v) ∧ v.objects = u.objects ∧ v.blkBmp = u.blkBmp := by
  obtain ⟨v, hfree, hobj, hbmp⟩ := freePointerBlock_refused h
  refine ⟨v, ?_, hobj, hbmp⟩
  unfold indirect
  rw [if_pos hne, hfree]
  rfl

theorem emptied_indirect (h : Emptied env w o 4 i u) (heq : indirect env o i u = .ok flow)
    (hhad : (w.objects o).indirect i ≠ 0#32 → ¬ Refused env ((w.objects o).indirect i) u)
    : ∃ (u' : World), flow = .next u' ∧ Emptied env w o 4 (i + 1) u' := by
  have hptr : (u.objects o).indirect i = (w.objects o).indirect i := by
    rw [h.indirect_eq i, if_neg (by omega)]
  unfold indirect at heq
  rw [hptr] at heq
  by_cases hnull : (w.objects o).indirect i = 0#32
  . rw [if_neg (by simp [hnull])] at heq
    cases heq
    refine ⟨u, rfl, h.cleared.congr ?_, h.other, h.size_eq, h.key_eq, h.direct_eq, ?_⟩
    . intro b
      apply exists_congr
      intro r
      have hself : (w.view env).ptr r ≠ 0#32 → r ≠ .indirect o i := by
        rintro hne rfl
        exact hne hnull
      have hentry : (w.view env).ptr r ≠ 0#32 → ¬ EntriesBefore o i 1024 r := by
        rintro hne ⟨j, -, rfl⟩
        exact hne (if_pos hnull)
      rw [indirectsBefore_succ]
      tauto
    . intro k
      rw [← update_lt (u.objects o).indirect (w.objects o).indirect i rfl h.indirect_eq k]
      have : (u.objects o).indirect i = 0#32 := hptr.trans hnull
      rw [← this, Function.update_eq_self]
  . rw [if_pos hnull] at heq
    obtain ⟨⟨r, u₁⟩, hfree, hret⟩ := Loop.bind_eq_ok.mp heq
    obtain ⟨rfl, hobj, hclear⟩ := freePointerBlock_freeing h.cleared.tagged hnull (hhad hnull) hfree
    cases hret
    refine ⟨_, rfl, h.setObj hobj _ _ ((h.cleared.trans hclear).congr ?_) ?_ ?_⟩
    . intro b
      simp only [indirectsBefore_succ, View.Behind, h.cleared.data_eq]
      constructor
      . rintro ⟨r, (hd | ((hi | ⟨j, -, rfl⟩) | rfl)), hne, rfl⟩
        . exact .inl ⟨r, .inl hd, hne, rfl⟩
        . exact .inl ⟨r, .inr hi, hne, rfl⟩
        . have hentry : (w.view env).ptr (.entry o i j) = ptrAt ((w.view env).data ((w.objects o).indirect i)) j :=
            if_neg hnull
          rw [hentry] at hne ⊢
          exact .inr (.inl ⟨j, hne, rfl⟩)
        . exact .inr (.inr rfl)
      . rintro (⟨r, (hd | hi), hne, rfl⟩ | ⟨j, hne, rfl⟩ | rfl)
        . exact ⟨r, .inl hd, hne, rfl⟩
        . exact ⟨r, .inr (.inl (.inl hi)), hne, rfl⟩
        . have hentry : (w.view env).ptr (.entry o i j) = ptrAt ((w.view env).data ((w.objects o).indirect i)) j :=
            if_neg hnull
          exact ⟨.entry o i j, .inr (.inl (.inr ⟨j, j.isLt, rfl⟩)), hentry ▸ hne, hentry⟩
        . exact ⟨.indirect o i, .inr (.inr rfl), hnull, rfl⟩
    . intro k
      rw [hobj]
      exact h.direct_eq k
    . intro k
      rw [hobj]
      exact update_lt _ _ i rfl h.indirect_eq k

theorem emptied_directs (env : Env) (htag : w.Tagged) (h : Loop.run (direct o) (Loop.range 4) w = .ok flow)
    : ∃ (u : World), flow = .next u ∧ Emptied env w o 4 0 u := by
  let P (k : Nat) (u : World) : Prop := Emptied env w o k 0 u
  let Q (res : Except Fault (Loop.Flow Int World)) : Prop :=
    ∀ (flow : Loop.Flow Int World), res = .ok flow → ∃ (u : World), flow = .next u ∧ P 4 u
  have hrun : Q (Loop.run (direct o) (Loop.range 4) w) := by
    apply Loop.run_inv (P := P)
    . intro i u hu
      cases heq : direct o i u with
      | error e =>
        intro flow hflow
        cases hflow
      | ok flow =>
        obtain ⟨u', rfl, hu'⟩ := emptied_direct hu heq
        exact hu'
    . rintro u hu flow hflow
      cases hflow
      exact ⟨u, rfl, hu⟩
    . exact emptied_zero htag o
  exact hrun flow h

theorem indirect_exits (env : Env) (o : Slot) (i : Fin 4) (u : World) (_ : True)
    : Loop.Exits (fun _ => True) (fun r _ => r = -1) (indirect env o i u) := by
  unfold indirect
  split
  . cases freePointerBlock env ((u.objects o).indirect i) u with
    | error e => trivial
    | ok res =>
      simp only [bind, Except.bind]
      split
      . exact rfl
      . trivial
  . trivial

theorem emptied_next (h : Emptied env w o 4 i u) (heq : indirect env o i u = .ok (.next v))
    : Emptied env w o 4 (i + 1) v := by
  have hptr : (u.objects o).indirect i = (w.objects o).indirect i := by
    rw [h.indirect_eq i, if_neg (by omega)]
  have hhad : (w.objects o).indirect i ≠ 0#32 → ¬ Refused env ((w.objects o).indirect i) u := by
    intro hne hrefused
    rw [← hptr] at hne hrefused
    obtain ⟨v', hret, -⟩ := indirect_refused hne hrefused
    rw [hret] at heq
    cases heq
  obtain ⟨v', hv', hempty⟩ := emptied_indirect h heq hhad
  cases hv'
  exact hempty

theorem emptied_ret {r : Int} (h : Emptied env w o 4 i u) (heq : indirect env o i u = .ok (.ret r v))
    : r = -1 ∧ (w.objects o).indirect i ≠ 0#32 ∧ Refused env ((w.objects o).indirect i) u
        ∧ v.objects = u.objects ∧ v.blkBmp = u.blkBmp := by
  have hptr : (u.objects o).indirect i = (w.objects o).indirect i := by
    rw [h.indirect_eq i, if_neg (by omega)]
  by_cases hrefused : (w.objects o).indirect i ≠ 0#32 ∧ Refused env ((w.objects o).indirect i) u
  . have hne := hrefused.1
    have href := hrefused.2
    rw [← hptr] at hne href
    obtain ⟨v', hret, hobj, hbmp⟩ := indirect_refused hne href
    rw [hret] at heq
    cases heq
    exact ⟨rfl, hrefused.1, hrefused.2, hobj, hbmp⟩
  . obtain ⟨v', hv', -⟩ := emptied_indirect h heq (fun hne href => hrefused ⟨hne, href⟩)
    cases hv'

theorem emptied_pass (h : Emptied env w o 4 0 u) {p : Fin 4 × World}
    (hp : p ∈ Loop.passes (indirect env o) (Loop.range 4) u)
    : Emptied env w o 4 p.1 p.2 :=
  Loop.passes_inv (P := fun i s => Emptied env w o 4 i s) (fun _ _ _ hi heq => emptied_next hi heq) h p hp

theorem emptied_indirects (h : Emptied env w o 4 0 u)
    (hrun : Loop.run (indirect env o) (Loop.range 4) u = .ok (.next v))
    : Emptied env w o 4 4 v := by
  let Q (res : Except Fault (Loop.Flow Int World)) : Prop := ∀ (v : World), res = .ok (.next v) → Emptied env w o 4 4 v
  have hall : Q (Loop.run (indirect env o) (Loop.range 4) u) := by
    apply Loop.run_inv (P := fun i s => Emptied env w o 4 i s)
    . intro i s hs
      have hexit := indirect_exits env o i s trivial
      generalize heq : indirect env o i s = x at hexit
      cases x with
      | error e =>
        intro v hv
        cases hv
      | ok flow =>
        cases flow with
        | next t => exact emptied_next hs heq
        | stop t => exact hexit.elim
        | ret r t =>
          intro v hv
          cases hv
    . intro s hs v hv
      cases hv
      exact hs
    . exact h
  exact hall v hrun

-- The pointer block `i` is the first block to be freed.
def First (w : World) (o : Slot) (i : Fin 4) : Prop :=
  (∀ (k : Fin 4), (w.objects o).direct k = 0#32) ∧ ∀ (k : Fin 4), k < i → (w.objects o).indirect k = 0#32

-- Nothing but a few null pointers has been passed over.
theorem emptied_unchanged_iff (h : Emptied env w o 4 i u)
    : (u.objects = w.objects ∧ u.blkBmp = w.blkBmp) ↔ First w o i := by
  constructor
  . rintro ⟨hobj, -⟩
    constructor
    . intro k
      have hk := h.direct_eq k
      rw [if_pos k.isLt, hobj] at hk
      exact hk
    . intro k hlt
      have hk := h.indirect_eq k
      rw [if_pos (Fin.lt_def.mp hlt), hobj] at hk
      exact hk
  . rintro ⟨hdirect, hindirect⟩
    have hnone : ¬ ∃ (r : Ref), (DirectsBefore o 4 r ∨ IndirectsBefore o i r) ∧ (w.view env).ptr r ≠ 0#32 := by
      rintro ⟨r, (⟨k, -, rfl⟩ | ⟨k, hk, (rfl | ⟨j, rfl⟩)⟩), hne⟩
      . exact hne (hdirect k)
      . exact hne (hindirect k hk)
      . exact hne (if_pos (hindirect k hk))
    constructor
    . funext o'
      by_cases ho : o' = o
      . subst ho
        apply Obj.ext h.size_eq h.key_eq
        . funext k
          rw [h.direct_eq k, hdirect k, ite_self]
        . funext k
          rw [h.indirect_eq k]
          split
          . next hk => exact (hindirect k hk).symm
          . rfl
      . exact h.other o' ho
    . apply Bitmap.ext_bit
      intro k
      by_cases hk : k < 2 ^ 32
      . have hused := h.cleared.used_iff (BitVec.ofNat 32 k)
        have hnot : ¬ ∃ (r : Ref), (DirectsBefore o 4 r ∨ IndirectsBefore o i r)
            ∧ (w.view env).ptr r ≠ 0#32 ∧ (w.view env).ptr r = BitVec.ofNat 32 k := by
          rintro ⟨r, hr, hne, -⟩
          exact hnone ⟨r, hr, hne⟩
        simp only [View.Used, World.view, BitVec.toNat_ofNat, Nat.mod_eq_of_lt hk] at hused
        rw [Bool.eq_iff_iff, hused]
        exact and_iff_left hnot
      . have hout : ∀ (m : Bitmap blkBmpLn), m.bit k = false := by
          intro m
          rw [← Bool.not_eq_true]
          intro hbit
          have := Bitmap.bit_lt m k hbit
          simp only [blkBmpLn] at this
          omega
        rw [hout, hout]

-- Whenever a pointer block of the object is refused, nothing has been freed before it.
def Harmless (env : Env) (w : World) (key : CStr) : Prop :=
  ∀ (o : Slot), findObject key w = some o → (w.objects o).size ≠ 0#64
    → ∀ (u : World), Loop.run (direct o) (Loop.range 4) w = .ok (.next u)
    → ∀ (p : Fin 4 × World), p ∈ Loop.passes (indirect env o) (Loop.range 4) u
    → (w.objects o).indirect p.1 ≠ 0#32 → Refused env ((w.objects o).indirect p.1) p.2 → First w o p.1

-- All pointer blocks of the object come first, so that there is one at most.
def Sole (w : World) (key : CStr) : Prop :=
  ∀ (o : Slot), findObject key w = some o → (w.objects o).size ≠ 0#64
    → ∀ (i : Fin 4), (w.objects o).indirect i ≠ 0#32 → First w o i

end destroyObject

/--
A `destroy_object` that returns -1 has changed neither the table nor the bitmap; one that returns 0 has cleared the
slot, and freed the blocks that its places hold.
-/
structure World.AllOrNothing (env : Env) (w : World) (key : CStr) (r : Int) (w' : World) : Prop where
  nothing : r = -1 → w'.objects = w.objects ∧ w'.blkBmp = w.blkBmp
  all : r = 0 → ∃ (o : Slot), findObject key w = some o ∧ w'.objects = Function.update w.objects o Obj.zero
    ∧ ∀ (b : BlockNo), (w'.view env).Used b ↔ (w.view env).Used b
      ∧ ¬ ∃ (place : Ref), place.slot = o ∧ (w.view env).ptr place ≠ 0#32 ∧ (w.view env).ptr place = b

open destroyObject

-- The two ways for a `destroy_object` that has found its object to return.
theorem destroyObject_ends {key : CStr} {r : Int} (htag : w.Tagged) (hfind : findObject key w = some o)
    (hsize : (w.objects o).size ≠ 0#64) (h : destroyObject env key w = .ok (r, w'))
    : ∃ (u : World), Loop.run (direct o) (Loop.range 4) w = .ok (.next u) ∧ Emptied env w o 4 0 u
        ∧ ((r = 0 ∧ ∃ (v : World), Loop.run (indirect env o) (Loop.range 4) u = .ok (.next v)
            ∧ w' = markObjDirty o (v.setObj o { v.objects o with size := 0#64, key := Buf.zero keySize }))
          ∨ (r = -1 ∧ Loop.run (indirect env o) (Loop.range 4) u = .ok (.ret (-1) w'))) := by
  unfold destroyObject at h
  rw [hfind] at h
  obtain ⟨u, v, hrun₁, hends⟩ := finish_loops hsize h
  obtain ⟨u', hu, hempty⟩ := emptied_directs env htag hrun₁
  cases hu
  refine ⟨u, hrun₁, hempty, ?_⟩
  rcases hends with ⟨hrun₂, rfl⟩ | ⟨hrun₂, rfl, rfl⟩
  . have hexit := Loop.run_exits (indirect_exits env o) (Loop.range 4) u trivial
    rw [hrun₂] at hexit
    have hr : r = -1 := hexit
    subst hr
    exact .inr ⟨rfl, hrun₂⟩
  . exact .inl ⟨rfl, v, hrun₂, rfl⟩

theorem destroyObject_allOrNothing_iff {key : CStr} {r : Int} (htag : w.Tagged)
    (h : destroyObject env key w = .ok (r, w'))
    : w.AllOrNothing env key r w' ↔ Harmless env w key := by
  by_cases hfound : ∃ (o : Slot), findObject key w = some o ∧ (w.objects o).size ≠ 0#64
  . obtain ⟨o, hfind, hsize⟩ := hfound
    obtain ⟨u, hrun₁, hempty, hends⟩ := destroyObject_ends htag hfind hsize h
    have hsame : ∀ (o' : Slot) (u' : World), findObject key w = some o'
        → Loop.run (direct o') (Loop.range 4) w = .ok (.next u') → o' = o ∧ u' = u := by
      intro o' u' hfind' hrun'
      rw [hfind] at hfind'
      cases hfind'
      rw [hrun₁] at hrun'
      cases hrun'
      exact ⟨rfl, rfl⟩
    rcases hends with ⟨rfl, v, hrun₂, rfl⟩ | ⟨rfl, hrun₂⟩
    . -- every pass has gone through
      refine iff_of_true ⟨fun h1 => absurd h1 (by decide), fun _ => ⟨o, hfind, ?_, ?_⟩⟩ ?_
      . have hgone := emptied_indirects hempty hrun₂
        funext o'
        rw [markObjDirty_eq]
        by_cases ho : o' = o
        . subst ho
          simp only [World.setObj, Function.update_self]
          refine Obj.ext rfl rfl ?_ ?_
          . funext k
            exact (hgone.direct_eq k).trans (if_pos k.isLt)
          . funext k
            exact (hgone.indirect_eq k).trans (if_pos k.isLt)
        . simp only [World.setObj, Function.update_of_ne ho]
          exact hgone.other o' ho
      . intro b
        have hused := (emptied_indirects hempty hrun₂).cleared.used_iff b
        simp only [← slot_iff] at hused
        rw [markObjDirty_eq]
        exact hused
      . intro o' hfind' _ u' hrun' p hp hne hrefused
        obtain ⟨rfl, rfl⟩ := hsame o' u' hfind' hrun'
        have hpass := emptied_pass hempty hp
        have hptr : (p.2.objects o').indirect p.1 = (w.objects o').indirect p.1 := by
          rw [hpass.indirect_eq, if_neg (by omega)]
        rw [← hptr] at hne hrefused
        obtain ⟨v', hret, -⟩ := indirect_refused hne hrefused
        rw [Loop.run_of_ret hret _ _ hp] at hrun₂
        cases hrun₂
    . have hiff : ∀ (p : Fin 4 × World), p ∈ Loop.passes (indirect env o) (Loop.range 4) u
          → indirect env o p.1 p.2 = .ok (.ret (-1) w')
          → ((w'.objects = w.objects ∧ w'.blkBmp = w.blkBmp) ↔ First w o p.1) := by
        intro p hp hret
        have hpass := emptied_pass hempty hp
        obtain ⟨-, -, -, hobj, hbmp⟩ := emptied_ret hpass hret
        rw [hobj, hbmp]
        exact emptied_unchanged_iff hpass
      constructor
      . intro hall o' hfind' _ u' hrun' p hp hne hrefused
        obtain ⟨rfl, rfl⟩ := hsame o' u' hfind' hrun'
        have hpass := emptied_pass hempty hp
        have hptr : (p.2.objects o').indirect p.1 = (w.objects o').indirect p.1 := by
          rw [hpass.indirect_eq, if_neg (by omega)]
        rw [← hptr] at hne hrefused
        obtain ⟨v', hret, -⟩ := indirect_refused hne hrefused
        have hsame' := Loop.run_of_ret hret _ _ hp
        rw [hrun₂] at hsame'
        cases hsame'
        exact (hiff p hp hret).mp (hall.nothing rfl)
      . intro hclean
        refine ⟨fun _ => ?_, fun h0 => absurd h0 (by decide)⟩
        obtain ⟨p, hp, hret⟩ := Loop.exists_pass_of_ret _ _ hrun₂
        obtain ⟨-, hne, hrefused, -⟩ := emptied_ret (emptied_pass hempty hp) hret
        exact (hiff p hp hret).mpr (hclean o hfind hsize u hrun₁ p hp hne hrefused)
  . have hnone : findObject key w = none ∨ ∃ (o : Slot), findObject key w = some o ∧ (w.objects o).size = 0#64 := by
      cases hfind : findObject key w with
      | none => exact .inl rfl
      | some o =>
        right
        refine ⟨o, rfl, ?_⟩
        by_contra hsize
        exact hfound ⟨o, hfind, hsize⟩
    rw [destroyObject_failed key hnone] at h
    cases h
    refine iff_of_true ⟨fun _ => ⟨rfl, rfl⟩, fun h0 => absurd h0 (by decide)⟩ ?_
    intro o hfind hsize
    exact absurd ⟨o, hfind, hsize⟩ hfound

/-! Every pointer block is refused in some pattern of failures. -/

variable {env' : Env}

theorem World.Tried.length_le {P : Prop} (h : World.Tried P w w') : w.log.length ≤ w'.log.length := by
  obtain ⟨es, heq, -⟩ := h
  rw [heq, List.length_append]
  omega

theorem freeBlock_length_le {b : BlockNo} (h : freeBlock b w = .ok w') : w.log.length ≤ w'.log.length := by
  unfold freeBlock at h
  split at h
  . cases h
    simp only [World.lock, World.unlock, World.emit, List.length_cons]
    omega
  . cases h

theorem freePointerBlock_length_le {b : BlockNo} {r : Int} (h : freePointerBlock env b w = .ok (r, w'))
    : w.log.length ≤ w'.log.length := by
  apply freePointerBlock_inv (I := fun u => w.log.length ≤ u.log.length) _ _ _ h (Nat.le_refl _)
  . intro u hu
    exact Nat.le_trans hu (cmalloc_tried env u).length_le
  . intro u buf hu
    exact Nat.le_trans hu (readChBlk_tried env b buf u).length_le
  . intro u u' b' hu hfree
    exact Nat.le_trans hu (freeBlock_length_le hfree)

theorem freePointerBlock_calm {b : BlockNo} (h : freePointerBlock env b w = .ok (0, w'))
    (hc : env'.cached = env.cached) (hcalm : env'.Calm w'.log.length)
    : freePointerBlock env' b w = .ok (0, w') := by
  rcases freePointerBlock_cases h with ⟨-, hr⟩ | ⟨page, u, hpage, ⟨-, -, hr⟩ | ⟨blk, v, u', hread, hrun, hfree, -⟩⟩
  . cases hr
  . cases hr
  . -- what follows does not depend on the environment
    have hloop : Loop.Ends (fun u => v.log.length ≤ u.log.length)
        (Loop.run (freePointerBlock.entry blk) (Loop.range 1024) v) := by
      apply Loop.run_ends _ _ v (Nat.le_refl _)
      intro j u' hu'
      unfold freePointerBlock.entry
      split
      . cases heq : freeBlock (ptrAt blk j) u' with
        | error e => trivial
        | ok u'' => exact Nat.le_trans hu' (freeBlock_length_le heq)
      . exact hu'
    rw [hrun] at hloop
    have hlater : v.log.length ≤ w'.log.length := Nat.le_trans hloop (freeBlock_length_le hfree)
    have hgrows := (readChBlk_tried env b page u).length_le
    rw [hread] at hgrows
    unfold freePointerBlock
    rw [cmalloc_calm hpage (hcalm.mono (Nat.le_trans hgrows hlater))]
    simp only
    rw [readChBlk_calm hread hc (hcalm.mono hlater)]
    exact Loop.bind_eq_ok.mpr ⟨_, hrun, Loop.bind_eq_ok.mpr ⟨w', hfree, rfl⟩⟩

namespace destroyObject

theorem indirect_length_le {i : Fin 4} {u v : World} (h : indirect env o i u = .ok (.next v))
    : u.log.length ≤ v.log.length := by
  unfold indirect at h
  split at h
  . obtain ⟨⟨r, u₁⟩, hfree, hret⟩ := Loop.bind_eq_ok.mp h
    have hle := freePointerBlock_length_le hfree
    simp only at hret
    split at hret
    . cases hret
    . cases hret
      exact hle
  . cases h
    exact Nat.le_refl _

theorem indirect_calm {i : Fin 4} {u v : World} (h : indirect env o i u = .ok (.next v))
    (hc : env'.cached = env.cached) (hcalm : env'.Calm v.log.length)
    : indirect env' o i u = .ok (.next v) := by
  unfold indirect at h ⊢
  split at h
  . next hne =>
    rw [if_pos hne]
    obtain ⟨⟨r, u₁⟩, hfree, hret⟩ := Loop.bind_eq_ok.mp h
    refine Loop.bind_eq_ok.mpr ⟨(r, u₁), ?_, hret⟩
    simp only at hret
    split at hret
    . cases hret
    . next hr =>
      cases hret
      have hzero : r = 0 := by simpa using hr
      subst hzero
      exact freePointerBlock_calm hfree hc hcalm
  . next hnull =>
    rw [if_neg hnull]
    exact h

end destroyObject

-- everything fails from the event `n` on
def failsFrom (cached : Bool) (n : Nat) : Env where
  cached := cached
  fails := fun m => decide (n ≤ m)
  junk := fun _ => Buf.zero blockSize

theorem failsFrom_calm (cached : Bool) (n : Nat) : (failsFrom cached n).Calm n := by
  intro m hm
  simp only [failsFrom, decide_eq_false_iff_not]
  omega

theorem exists_refused {key : CStr} (hok : w.Ok env) (hfind : findObject key w = some o)
    (hsize : (w.objects o).size ≠ 0#64) (i : Fin 4) (hne : (w.objects o).indirect i ≠ 0#32)
    : ∃ (env' : Env) (u v w' : World), env'.cached = env.cached ∧ destroyObject env' key w = .ok (-1, w')
        ∧ Loop.run (direct o) (Loop.range 4) w = .ok (.next u)
        ∧ (i, v) ∈ Loop.passes (indirect env' o) (Loop.range 4) u
        ∧ Refused env' ((w.objects o).indirect i) v := by
  have hr := steady_reliable env.cached
  have hok' : w.Ok (steady env.cached) := ⟨hok.tagged, hok.noTable, hok.own⟩
  obtain ⟨u, hrun₁, hgone⟩ := gone_directs hok' o
  obtain ⟨u', hrun₂, -⟩ := gone_indirects hr hok'.own o hgone
  have hstop : ∀ (j : Fin 4) (s t : World), indirect (steady env.cached) o j s ≠ .ok (.stop t) :=
    fun j s t => (indirect_exits (steady env.cached) o j s trivial).ne_stop t
  obtain ⟨v, hpass⟩ := Loop.exists_pass hstop (Loop.range 4) u u' hrun₂ (Loop.mem_range i)
  generalize henv : failsFrom env.cached v.log.length = env'
  have hc : env'.cached = env.cached := by
    rw [← henv]
    rfl
  have hpass' : (i, v) ∈ Loop.passes (indirect env' o) (Loop.range 4) u := by
    have hmono : ∀ (j : Fin 4) (s t : World), indirect (steady env.cached) o j s = .ok (.next t)
        → s.log.length ≤ t.log.length :=
      fun j s t h => indirect_length_le h
    have hagree : ∀ (j : Fin 4) (s t : World), indirect (steady env.cached) o j s = .ok (.next t)
        → t.log.length ≤ v.log.length → indirect env' o j s = .ok (.next t) := by
      intro j s t h hle
      rw [← henv]
      exact indirect_calm h rfl ((failsFrom_calm env.cached v.log.length).mono hle)
    exact Loop.passes_congr hmono hagree (Nat.le_refl v.log.length) _ u hpass
  have hrefused : Refused env' ((w.objects o).indirect i) v := by
    left
    simp [cmalloc, ← henv, failsFrom]
  obtain ⟨u₂, hu₂, hempty⟩ : ∃ (u₂ : World), (.next u : Loop.Flow Int World) = .next u₂ ∧ Emptied env' w o 4 0 u₂ :=
    emptied_directs env' hok.tagged hrun₁
  cases hu₂
  have hptr : (v.objects o).indirect i = (w.objects o).indirect i := by
    rw [(emptied_pass hempty hpass').indirect_eq, if_neg (by simp)]
  obtain ⟨w', hret, -⟩ := indirect_refused (hptr ▸ hne) (hptr ▸ hrefused)
  have hrun := Loop.run_of_ret hret _ u hpass'
  refine ⟨env', u, v, w', hc, ?_, hrun₁, hpass', hrefused⟩
  unfold destroyObject
  rw [hfind]
  simp only [destroyObject.finish, hsize, ↓reduceIte, hrun₁, hrun, bind, Except.bind]
  rfl

/--
For every pattern of failures: a call that returns was all or nothing exactly when it was refused no pointer block
after it had freed something. In a world where every block has one owner this is so in every pattern exactly when the
object has no block that comes before one of its pointer blocks.
-/
theorem destroy_allOrNothing_iff {disk : BlockNo → Block} (hvisit : Visits env anyCall disk w) (key : CStr)
    : (∀ (env' : Env) (r : Int) (w' : World), env'.cached = env.cached → destroyObject env' key w = .ok (r, w')
          → (w.AllOrNothing env' key r w' ↔ Harmless env' w key))
      ∧ (w.Ok env
          → ((∀ (env' : Env) (r : Int) (w' : World), env'.cached = env.cached
              → destroyObject env' key w = .ok (r, w') → w.AllOrNothing env' key r w')
            ↔ Sole w key)) := by
  have htag := hvisit.tagged
  refine ⟨fun env' r w' _ h => destroyObject_allOrNothing_iff htag h, fun hok => ⟨?_, ?_⟩⟩
  . intro hall o hfind hsize i hne
    obtain ⟨env', u, v, w', hc, hdestroy, hrun, hpass, hrefused⟩ := exists_refused hok hfind hsize i hne
    have hharmless := (destroyObject_allOrNothing_iff htag hdestroy).mp (hall env' (-1) w' hc hdestroy)
    exact hharmless o hfind hsize u hrun (i, v) hpass hne hrefused
  . intro hsole env' r w' _ h
    apply (destroyObject_allOrNothing_iff htag h).mpr
    intro o hfind hsize _ _ p _ hne _
    exact hsole o hfind hsize p.1 hne

/-! An object with one block and an empty pointer block. -/

theorem exists_planted_ok
    : ∃ (disk : BlockNo → Block) (w : World), (diskView disk).Own ∧ Visits (steady false) anyCall disk w
        ∧ w.Ok (steady false) ∧ w.objects = planted 20256#32 := by
  obtain ⟨disk, w, hown, hinit, hobj, -⟩ := exists_planted (Or.inr (Eq.refl 20256#32))
  refine ⟨disk, w, hown, .mounted hinit, ?_, hobj⟩
  have hmounted := objstoreInit_mounted hinit
  apply hmounted.ok
  rw [hmounted.view_eq]
  exact hown

theorem destroy_allOrNothing_iff_planted
    : ∃ (w : World), (w.objects 0).direct 0 ≠ 0#32 ∧ (w.objects 0).indirect 0 ≠ 0#32
        ∧ ((∀ (env' : Env) (r : Int) (w' : World), env'.cached = false → destroyObject env' keyA w = .ok (r, w')
            → w.AllOrNothing env' keyA r w')
          ↔ Sole w keyA) := by
  obtain ⟨disk, w, -, hvisit, hok, hobj⟩ := exists_planted_ok
  refine ⟨w, ?_, ?_, (destroy_allOrNothing_iff hvisit keyA).2 hok⟩
  . rw [hobj, planted_direct]
    decide
  . rw [hobj, planted_indirect]
    decide

-- the page for the pointer block fails when the other block has been freed
theorem not_allOrNothing_planted
    : ∃ (env : Env) (disk : BlockNo → Block) (w w' : World), (diskView disk).Own ∧ Visits (steady false) anyCall disk w
        ∧ w.objects = planted 20256#32 ∧ env.cached = false ∧ destroyObject env keyA w = .ok (-1, w')
        ∧ ¬ w.AllOrNothing env keyA (-1) w' := by
  obtain ⟨disk, w, hown, hvisit, hok, hobj⟩ := exists_planted_ok
  have hfind := findObject_planted _ hobj
  have hsize : (w.objects 0).size ≠ 0#64 := by
    rw [hobj]
    exact planted_size _
  have hne : (w.objects 0).indirect 0 ≠ 0#32 := by
    rw [hobj, planted_indirect]
    decide
  obtain ⟨env, u, v, w', hc, hdestroy, hrun, hpass, hrefused⟩ := exists_refused hok hfind hsize 0 hne
  refine ⟨env, disk, w, w', hown, hvisit, hobj, hc, hdestroy, ?_⟩
  rw [destroyObject_allOrNothing_iff hvisit.tagged hdestroy]
  intro hharmless
  have hfirst := (hharmless 0 hfind hsize u hrun (0, v) hpass hne hrefused).1 0
  rw [hobj, planted_direct] at hfirst
  revert hfirst
  decide

end ObjStore
