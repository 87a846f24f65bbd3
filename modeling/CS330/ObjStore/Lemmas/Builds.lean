import CS330.ObjStore.Lemmas.Read
import CS330.ObjStore.Lemmas.Object

/-!
This module contains that two builds of the object store which run side by side cannot be told apart:
every operation keeps their views equal and returns the same.
-/

namespace ObjStore

open View

structure World.Alike (env env' : Env) (w w' : World) : Prop where
  view_eq : w.view env = w'.view env'
  left : w.Tagged
  right : w'.Tagged

namespace World.Alike

variable {env env' : Env} {w w' w₁ w₁' : World}

theorem map (h : w.Alike env env' w') (f : View → View) (hview : w₁.view env = f (w.view env))
    (hview' : w₁'.view env' = f (w'.view env')) (htag : w₁.Tagged) (htag' : w₁'.Tagged)
    : w₁.Alike env env' w₁' where
  view_eq := by
    rw [hview, hview', h.view_eq]
  left := htag
  right := htag'

theorem emit (h : w.Alike env env' w') (e e' : Event) : (w.emit e).Alike env env' (w'.emit e') :=
  h.map id rfl rfl h.left h.right

theorem setObj (h : w.Alike env env' w') (o : Slot) (obj : Obj)
    : (w.setObj o obj).Alike env env' (w'.setObj o obj) :=
  h.map (fun v => v.setObj o obj) rfl rfl h.left h.right

theorem markObjDirty (h : w.Alike env env' w') (o : Slot)
    : (ObjStore.markObjDirty o w).Alike env env' (ObjStore.markObjDirty o w') := by
  rw [markObjDirty_eq, markObjDirty_eq]
  exact h.map (fun v => { v with objBmp := v.objBmp.set o }) rfl rfl h.left h.right

theorem objects_eq (h : w.Alike env env' w') : w.objects = w'.objects :=
  congrArg View.objects h.view_eq

theorem objMem_eq (h : w.Alike env env' w') : w.objMem = w'.objMem := by
  have h1 : w.objects = w'.objects := congrArg View.objects h.view_eq
  have h2 : w.objBmp = w'.objBmp := congrArg View.objBmp h.view_eq
  have h3 : w.blkBmp = w'.blkBmp := congrArg View.blkBmp h.view_eq
  funext addr
  unfold World.objMem
  rw [h1, h2, h3]

theorem keyEq_eq (h : w.Alike env env' w') (o : Slot) (key : CStr) : w.keyEq o key = w'.keyEq o key := by
  unfold World.keyEq
  rw [h.objMem_eq]

theorem readChBlk (hr : env.Reliable) (hr' : env'.Reliable) (h : w.Alike env env' w') (b : BlockNo)
    (hb : b ≠ 0#32) (buf : Block)
    : ∃ (blk : Block) (w₁ w₁' : World),
        ObjStore.readChBlk env b buf w = (true, blk, w₁)
        ∧ ObjStore.readChBlk env' b buf w' = (true, blk, w₁')
        ∧ w₁.Alike env env' w₁' ∧ w₁.objects = w.objects := by
  obtain ⟨w₁, hread, hview, hkeeps⟩ := readChBlk_spec hr h.left b hb buf
  obtain ⟨w₁', hread', hview', hkeeps'⟩ := readChBlk_spec hr' h.right b hb buf
  rw [← h.view_eq] at hread'
  exact ⟨_, w₁, w₁', hread, hread', h.map id hview hview' hkeeps.tagged hkeeps'.tagged,
    congrArg View.objects hview⟩

theorem writeChBlk (hr : env.Reliable) (hr' : env'.Reliable) (h : w.Alike env env' w') (b : BlockNo)
    (hb : b ≠ 0#32) (buf : Block)
    : ∃ (w₁ w₁' : World),
        ObjStore.writeChBlk env b buf w = (true, w₁)
        ∧ ObjStore.writeChBlk env' b buf w' = (true, w₁')
        ∧ w₁.Alike env env' w₁' ∧ w₁.objects = w.objects := by
  obtain ⟨w₁, hwrite, hview, hkeeps⟩ := writeChBlk_spec hr h.left b hb buf
  obtain ⟨w₁', hwrite', hview', hkeeps'⟩ := writeChBlk_spec hr' h.right b hb buf
  exact ⟨w₁, w₁', hwrite, hwrite',
    h.map (fun v => v.setData b buf) hview hview' hkeeps.tagged hkeeps'.tagged,
    congrArg View.objects hview⟩

theorem allocBlock (h : w.Alike env env' w')
    : ∃ (b : BlockNo) (w₁ w₁' : World),
        ObjStore.allocBlock w = (b, w₁) ∧ ObjStore.allocBlock w' = (b, w₁') ∧ b ≠ 0#32
        ∧ w₁.Alike env env' w₁' ∧ w₁.objects = w.objects := by
  have hne := allocBlock_ne_zero w
  have hbmp : w.blkBmp = w'.blkBmp := congrArg View.blkBmp h.view_eq
  cases allocBlock_cases w with
  | inl hsome =>
    obtain ⟨b, log, h1, h2, h3, h4, h5, -⟩ := hsome
    rw [h5] at hne
    cases allocBlock_cases w' with
    | inl hsome' =>
      obtain ⟨b', log', g1, g2, g3, g4, g5, -⟩ := hsome'
      rw [← hbmp] at g3 g4
      have hb : b' = b := by
        apply BitVec.eq_of_toNat_eq
        apply Nat.le_antisymm
        . apply Nat.le_of_not_lt
          intro hlt
          rw [g4 _ h1 hlt] at h3
          cases h3
        . apply Nat.le_of_not_lt
          intro hlt
          rw [h4 _ g1 hlt] at g3
          cases g3
      subst hb
      exact ⟨b', _, _, h5, g5, hne,
        h.map (fun v => v.mark b') rfl rfl h.left h.right, rfl⟩
    | inr hnone' =>
      obtain ⟨log', g1, -, -⟩ := hnone'
      have := g1 _ h1 h2
      rw [← hbmp, h3] at this
      cases this
  | inr hnone =>
    obtain ⟨log, h1, h2, -⟩ := hnone
    rw [h2] at hne
    cases allocBlock_cases w' with
    | inl hsome' =>
      obtain ⟨b', log', g1, g2, g3, -⟩ := hsome'
      rw [← hbmp, h1 _ g1 g2] at g3
      cases g3
    | inr hnone' =>
      obtain ⟨log', -, g2, -⟩ := hnone'
      exact ⟨-1, _, _, h2, g2, hne, h.map id rfl rfl h.left h.right, rfl⟩

theorem freeBlock (h : w.Alike env env' w') (b : BlockNo)
    : Loop.Rel (fun u u' => u.Alike env env' u' ∧ u.objects = w.objects)
        (ObjStore.freeBlock b w) (ObjStore.freeBlock b w') := by
  by_cases hb : b.toNat < 64 * blkBmpLn
  . rw [freeBlock_eq b hb, freeBlock_eq b hb]
    exact .ok ⟨h.map (fun v => { v with blkBmp := v.blkBmp.clear b.toNat }) rfl rfl h.left h.right, rfl⟩
  . have hlt : ¬ b.toNat / 64 < blkBmpLn := by omega
    simp only [ObjStore.freeBlock, hlt, ↓reduceDIte]
    exact .error _

end World.Alike

variable {env env' : Env} {w w' w₀ : World}

section

variable (hr : env.Reliable) (hr' : env'.Reliable)

include hr hr'

theorem updateBlock_fill_alike (h : w.Alike env env' w') (q : BlockNo) (hq : q ≠ 0#32) (x : Xfer)
    (temp : Block)
    : ∃ (blk : Block) (w₁ w₁' : World),
        (if 0 < x.shift then readChBlk env q temp w else (true, temp, w)) = (true, blk, w₁)
        ∧ (if 0 < x.shift then readChBlk env' q temp w' else (true, temp, w')) = (true, blk, w₁')
        ∧ w₁.Alike env env' w₁' ∧ w₁.objects = w.objects := by
  by_cases hshift : 0 < x.shift
  . simp only [hshift, ↓reduceIte]
    exact h.readChBlk hr hr' q hq temp
  . simp only [hshift, ↓reduceIte]
    exact ⟨temp, w, w', rfl, rfl, h, rfl⟩

-- the same locals on both sides, for which there was a page
def Xfer.Alike (x x' : Xfer) : Prop :=
  x = x' ∧ x.temp ≠ none

theorem updateBlock_alike (h : w.Alike env env' w') (buf : Mem) (size : Nat) (p : BlockNo) (x : Xfer)
    (hx : x.temp ≠ none)
    : Loop.Rel (fun a b => a.2.1 = b.2.1 ∧ a.2.2.1.Alike b.2.2.1
          ∧ a.2.2.2.Alike env env' b.2.2.2 ∧ a.2.2.2.objects = w.objects)
        (updateBlock env buf size p x w) (updateBlock env' buf size p x w') := by
  unfold updateBlock
  by_cases hrem : 0 < x.remaining
  . simp only [hrem, ↓reduceIte]
    -- the block that is written: the old one, or the same new one on both sides
    have hblock : ∃ (q : BlockNo) (w₀ w₀' : World),
        (if p = 0#32 then allocBlock w else (p, w)) = (q, w₀)
        ∧ (if p = 0#32 then allocBlock w' else (p, w')) = (q, w₀')
        ∧ q ≠ 0#32 ∧ w₀.Alike env env' w₀' ∧ w₀.objects = w.objects := by
      by_cases hp : p = 0#32
      . simp only [hp, ↓reduceIte]
        exact h.allocBlock
      . simp only [hp, ↓reduceIte]
        exact ⟨p, w, w', rfl, rfl, hp, h, rfl⟩
    obtain ⟨q, w₀, w₀', heq, heq', hq, h₀, hobj₀⟩ := hblock
    rw [heq, heq']
    cases htemp : x.temp with
    | none => exact absurd htemp hx
    | some temp =>
      obtain ⟨blk, w₁, w₁', hread, hread', h₁, hobj₁⟩ := updateBlock_fill_alike hr hr' h₀ q hq x temp
      simp only [hread, hread']
      by_cases hover : blockSize < x.shift + curSize x.remaining
      . simp only [hover, ↓reduceIte]
        exact .error _
      . simp only [hover, ↓reduceIte]
        obtain ⟨w₂, w₂', hwrite, hwrite', h₂, hobj₂⟩ := h₁.writeChBlk hr hr' q hq
          (blk.copy x.shift (fun i => buf (size - x.remaining + i)) (curSize x.remaining))
        simp only [hwrite, hwrite']
        exact .ok ⟨rfl, ⟨rfl, nofun⟩, h₂, hobj₂.trans (hobj₁.trans hobj₀)⟩
  . simp only [hrem, ↓reduceIte]
    exact .ok ⟨rfl, ⟨rfl, hx⟩, h, rfl⟩

namespace objstoreWrite

variable (o : Slot) (buf : Mem) (size start : Nat)

theorem direct_alike (i : Fin 4) (s t : Xfer × World) (hx : s.1.Alike t.1) (h : s.2.Alike env env' t.2)
    : Loop.Rel (Loop.Flow.Rel (fun s t => s.1.Alike t.1 ∧ s.2.Alike env env' t.2))
        (direct env o buf size start i s) (direct env' o buf size start i t) := by
  obtain ⟨x, w⟩ := s
  obtain ⟨x', w'⟩ := t
  simp only at hx h
  obtain ⟨rfl, htemp⟩ := hx
  unfold direct
  by_cases hskip : x.blocksDone < start
  . simp only [hskip, ↓reduceIte]
    exact .ok (.next ⟨⟨rfl, htemp⟩, h⟩)
  . simp only [hskip, ↓reduceIte, ← h.objects_eq]
    apply Loop.Rel.bind (updateBlock_alike hr hr' h buf size ((w.objects o).direct i) x htemp)
    rintro ⟨r, p, x₁, w₁⟩ ⟨r', p', x₁', w₁'⟩ ⟨h1, h2, h3, -⟩
    simp only at h1 h2 h3
    subst h1
    refine .ok (.next ⟨h2, ?_⟩)
    rw [← h3.objects_eq]
    exact h3.setObj _ _

theorem entry_alike (j : Fin 1024) (s t : Xfer × World × Block) (hx : s.1.Alike t.1)
    (hb : s.2.2 = t.2.2) (h : s.2.1.Alike env env' t.2.1) (hobj : s.2.1.objects = w₀.objects)
    : Loop.Rel (Loop.Flow.Rel (fun s t => s.1.Alike t.1 ∧ s.2.2 = t.2.2 ∧ s.2.1.Alike env env' t.2.1
          ∧ s.2.1.objects = w₀.objects))
        (entry env buf size start j s) (entry env' buf size start j t) := by
  obtain ⟨x, w, bb⟩ := s
  obtain ⟨x', w', bb'⟩ := t
  simp only at hx hb h hobj
  obtain ⟨rfl, htemp⟩ := hx
  subst hb
  unfold entry
  by_cases hskip : x.blocksDone < start
  . simp only [hskip, ↓reduceIte]
    exact .ok (.next ⟨⟨rfl, htemp⟩, rfl, h, hobj⟩)
  . simp only [hskip, ↓reduceIte]
    apply Loop.Rel.bind (updateBlock_alike hr hr' h buf size (ptrAt bb j) x htemp)
    rintro ⟨r, p, x₁, w₁⟩ ⟨r', p', x₁', w₁'⟩ ⟨h1, h2, h3, h4⟩
    simp only at h1 h2 h3 h4
    subst h1
    exact .ok (.next ⟨h2, rfl, h3, h4.trans hobj⟩)

theorem pointerBlock_alike (i : Fin 4) (bb : Block) (h : w.Alike env env' w')
    : ∃ (bb' : Block) (w₁ w₁' : World),
        pointerBlock env o i bb w = (true, bb', w₁) ∧ pointerBlock env' o i bb w' = (true, bb', w₁')
        ∧ w₁.Alike env env' w₁' ∧ (w₁.objects o).indirect i ≠ 0#32 := by
  unfold pointerBlock
  rw [← h.objects_eq]
  by_cases hnull : (w.objects o).indirect i = 0#32
  . obtain ⟨b, w₁, w₁', halloc, halloc', hb, h₁, -⟩ := h.allocBlock
    rw [if_pos hnull, if_pos hnull, halloc, halloc']
    refine ⟨_, _, _, rfl, rfl, ?_, by simpa [World.setObj] using hb⟩
    rw [← h₁.objects_eq]
    exact h₁.setObj _ _
  . obtain ⟨blk, w₁, w₁', hread, hread', h₁, hobj⟩ := h.readChBlk hr hr' _ hnull bb
    rw [if_neg hnull, if_neg hnull, hread, hread']
    refine ⟨_, _, _, rfl, rfl, h₁, ?_⟩
    rw [hobj]
    exact hnull

theorem indirect_alike (i : Fin 4) (s t : Xfer × World) (hx : s.1.Alike t.1)
    (h : s.2.Alike env env' t.2)
    : Loop.Rel (Loop.Flow.Rel (fun s t => s.1.Alike t.1 ∧ s.2.Alike env env' t.2))
        (indirect env o buf size start i s) (indirect env' o buf size start i t) := by
  obtain ⟨x, w⟩ := s
  obtain ⟨x', w'⟩ := t
  simp only at hx h
  obtain ⟨rfl, htemp⟩ := hx
  unfold indirect
  by_cases hrem : 0 < x.remaining
  . obtain ⟨bb, w₁, w₁', hptr, hptr', h₁, hind⟩ := pointerBlock_alike hr hr' o i (Buf.zero blockSize)
      (h.emit (.cmalloc true) (.cmalloc true))
    simp only [hrem, ↓reduceIte, cmalloc_eq hr, cmalloc_eq hr', hptr, hptr']
    -- no entry changes the objects, so that the pointer block is written back to where it was
    let R (s t : Xfer × World × Block) : Prop := s.1.Alike t.1 ∧ s.2.2 = t.2.2
      ∧ s.2.1.Alike env env' t.2.1 ∧ s.2.1.objects = w₁.objects
    have hrun : Loop.Rel (Loop.Flow.Rel R)
        (Loop.run (entry env buf size start) (Loop.range 1024) (x, w₁, bb))
        (Loop.run (entry env' buf size start) (Loop.range 1024) (x, w₁', bb)) := by
      apply Loop.run_rel
      . rintro j s t ⟨h1, h2, h3, h4⟩
        exact entry_alike hr hr' buf size start j s t h1 h2 h3 h4
      . exact ⟨⟨rfl, htemp⟩, rfl, h₁, rfl⟩
    apply Loop.Rel.bind hrun
    intro a b hab
    cases hab with
    | @ret r s t h2 => exact .ok (.ret ⟨h2.1, h2.2.2.1⟩)
    | @next s t h2 | @stop s t h2 =>
      obtain ⟨x₂, w₂, bb₂⟩ := s
      obtain ⟨x₂', w₂', bb₂'⟩ := t
      obtain ⟨h3, h4, h5, h6⟩ := h2
      simp only at h3 h4 h5 h6
      subst h4
      have hind₂ : (w₂.objects o).indirect i ≠ 0#32 := by
        rw [h6]
        exact hind
      obtain ⟨w₃, w₃', hwrite, hwrite', h₃, -⟩ := h5.writeChBlk hr hr' _ hind₂ bb₂
      simp only [← h5.objects_eq, hwrite, hwrite']
      exact .ok (.next ⟨h3, h₃⟩)
  . simp only [hrem, ↓reduceIte]
    exact .ok (.next ⟨⟨rfl, htemp⟩, h⟩)

end objstoreWrite

theorem objstoreWrite_alike (h : w.Alike env env' w') (objid : Int) (buf : Mem) (size offset : Nat)
    : Loop.Rel (fun a b => a.1 = b.1 ∧ a.2.Alike env env' b.2)
        (objstoreWrite env objid buf size offset w) (objstoreWrite env' objid buf size offset w') := by
  unfold objstoreWrite
  by_cases hid : objid < 2
  . simp only [hid, ↓reduceIte]
    exact .ok ⟨rfl, h⟩
  . by_cases hsize : size > maxSize
    . simp only [hid, hsize, ↓reduceIte]
      exact .ok ⟨rfl, h⟩
    . by_cases hlt : (objid - 2).toNat < maxObjs
      . simp only [hid, hsize, hlt, ↓reduceIte, ↓reduceDIte, cmalloc_eq hr, cmalloc_eq hr']
        let R (s t : Xfer × World) : Prop := s.1.Alike t.1 ∧ s.2.Alike env env' t.2
        have hinit : R (Xfer.start size offset (some (Buf.zero blockSize)), w.emit (.cmalloc true))
            (Xfer.start size offset (some (Buf.zero blockSize)), w'.emit (.cmalloc true)) :=
          ⟨⟨rfl, nofun⟩, h.emit _ _⟩
        apply Loop.Rel.bind (Loop.run_rel (R := R)
          (fun i s t h => objstoreWrite.direct_alike hr hr' _ buf size _ i s t h.1 h.2) _ _ _ hinit)
        intro a b hab
        cases hab with
        | ret h => exact .ok ⟨rfl, h.2⟩
        | next h | stop h =>
          apply Loop.Rel.bind (Loop.run_rel (R := R)
            (fun i s t h => objstoreWrite.indirect_alike hr hr' _ buf size _ i s t h.1 h.2) _ _ _ h)
          intro a b hab
          cases hab with
          | ret h => exact .ok ⟨rfl, h.2⟩
          | next h | stop h =>
            refine .ok ⟨rfl, ?_⟩
            rw [← h.2.objects_eq]
            exact (h.2.setObj _ _).markObjDirty _
      . simp only [hid, hsize, hlt, ↓reduceIte, ↓reduceDIte]
        exact .error _

theorem freePointerBlock_alike (h : w.Alike env env' w') (b : BlockNo) (hb : b ≠ 0#32)
    : Loop.Rel (fun a b => a.1 = b.1 ∧ a.2.Alike env env' b.2)
        (freePointerBlock env b w) (freePointerBlock env' b w') := by
  obtain ⟨bd, w₁, w₁', hread, hread', h₁, -⟩ :=
    (h.emit (.cmalloc true) (.cmalloc true)).readChBlk hr hr' b hb (Buf.zero blockSize)
  unfold freePointerBlock
  simp only [cmalloc_eq hr, cmalloc_eq hr', hread, hread']
  have hrun : Loop.Rel (Loop.Flow.Rel (World.Alike env env'))
      (Loop.run (freePointerBlock.entry bd) (Loop.range 1024) w₁)
      (Loop.run (freePointerBlock.entry bd) (Loop.range 1024) w₁') := by
    apply Loop.run_rel _ _ _ _ h₁
    intro j u u' hu
    unfold freePointerBlock.entry
    by_cases hnull : ptrAt bd j ≠ 0#32
    . rw [if_pos hnull, if_pos hnull]
      apply Loop.Rel.bind (hu.freeBlock _)
      intro a b hab
      exact .ok (.next hab.1)
    . rw [if_neg hnull, if_neg hnull]
      exact .ok (.next hu)
  apply Loop.Rel.bind hrun
  intro a b hab
  cases hab with
  | ret h => exact .ok ⟨rfl, h⟩
  | next h | stop h =>
    apply Loop.Rel.bind (h.freeBlock _)
    intro a b hab
    exact .ok ⟨rfl, hab.1⟩

omit hr hr' in
theorem destroyObject.direct_alike (o : Slot) (i : Fin 4) (u u' : World) (h : u.Alike env env' u')
    : Loop.Rel (Loop.Flow.Rel (World.Alike env env')) (direct o i u) (direct o i u') := by
  unfold direct
  rw [← h.objects_eq]
  by_cases hnull : (u.objects o).direct i ≠ 0#32
  . rw [if_pos hnull, if_pos hnull]
    apply Loop.Rel.bind (h.freeBlock _)
    rintro a b ⟨h1, -⟩
    refine .ok (.next ?_)
    rw [← h1.objects_eq]
    exact h1.setObj _ _
  . rw [if_neg hnull, if_neg hnull]
    exact .ok (.next h)

theorem destroyObject.indirect_alike (o : Slot) (i : Fin 4) (u u' : World) (h : u.Alike env env' u')
    : Loop.Rel (Loop.Flow.Rel (World.Alike env env')) (indirect env o i u) (indirect env' o i u') := by
  unfold indirect
  rw [← h.objects_eq]
  by_cases hnull : (u.objects o).indirect i ≠ 0#32
  . rw [if_pos hnull, if_pos hnull]
    apply Loop.Rel.bind (freePointerBlock_alike hr hr' h _ hnull)
    rintro ⟨r, w₁⟩ ⟨r', w₁'⟩ ⟨h1, h2⟩
    simp only at h1 h2
    subst h1
    dsimp only
    by_cases hret : r ≠ 0
    . rw [if_pos hret, if_pos hret]
      exact .ok (.ret h2)
    . rw [if_neg hret, if_neg hret]
      refine .ok (.next ?_)
      rw [← h2.objects_eq]
      exact h2.setObj _ _
  . rw [if_neg hnull, if_neg hnull]
    exact .ok (.next h)

omit hr hr' in
theorem findObject_alike (h : w.Alike env env' w') (key : CStr) : findObject key w = findObject key w' := by
  unfold findObject
  have : (fun o => w.keyEq o key) = (fun o => w'.keyEq o key) := funext fun o => h.keyEq_eq o key
  rw [this]

theorem destroyObject_alike (h : w.Alike env env' w') (key : CStr)
    : Loop.Rel (fun a b => a.1 = b.1 ∧ a.2.Alike env env' b.2)
        (destroyObject env key w) (destroyObject env' key w') := by
  unfold destroyObject
  rw [← findObject_alike h key]
  generalize findObject key w = found
  cases found with
  | none => exact .ok ⟨rfl, h⟩
  | some o =>
    unfold destroyObject.finish
    simp only [← h.objects_eq]
    by_cases hsize : (w.objects o).size = 0#64
    . rw [if_pos hsize, if_pos hsize]
      exact .ok ⟨rfl, h⟩
    . rw [if_neg hsize, if_neg hsize]
      apply Loop.Rel.bind (Loop.run_rel (destroyObject.direct_alike o) _ _ _ h)
      intro a b hab
      cases hab with
      | ret h => exact .ok ⟨rfl, h⟩
      | next h | stop h =>
        apply Loop.Rel.bind (Loop.run_rel (destroyObject.indirect_alike hr hr' o) _ _ _ h)
        intro a b hab
        cases hab with
        | ret h => exact .ok ⟨rfl, h⟩
        | next h | stop h =>
          refine .ok ⟨rfl, ?_⟩
          rw [← h.objects_eq]
          exact (h.setObj _ _).markObjDirty _

end

theorem createObject.scan_congr {key : CStr} (hsize : ∀ (i : Slot), (w.objects i).size = (w'.objects i).size)
    (heq : ∀ (i : Slot), w.keyEq i key = w'.keyEq i key) (is : List Slot) (free : Option Slot)
    : scan w key is free = scan w' key is free := by
  induction is generalizing free with
  | nil => rfl
  | cons i is ih =>
    unfold scan
    rw [hsize, heq, ih, ih]

theorem createObject_alike (h : w.Alike env env' w') (key : CStr)
    : Loop.Rel (fun a b => a.1 = b.1 ∧ a.2.Alike env env' b.2) (createObject key w)
        (createObject key w') := by
  have h₀ := h.emit (.lock .objCl) (.lock .objCl)
  unfold createObject
  have hscan := createObject.scan_congr (fun i => by rw [h₀.objects_eq]) (fun i => h₀.keyEq_eq i key)
    (Loop.range maxObjs) none
  have hscan' : createObject.scan (w.lock .objCl) key (Loop.range maxObjs) none
      = createObject.scan (w'.lock .objCl) key (Loop.range maxObjs) none := hscan
  rw [hscan']
  generalize createObject.scan (w'.lock .objCl) key (Loop.range maxObjs) none = res
  cases res with
  | none => exact .ok ⟨rfl, h₀.emit _ _⟩
  | some free =>
    cases free with
    | none => exact .ok ⟨rfl, h₀.emit _ _⟩
    | some o =>
      have hobj : (w.lock .objCl).objects = (w'.lock .objCl).objects := h₀.objects_eq
      simp only [createObject.finish, hobj]
      cases createObject.strcpy o key (key.len + 1) 0 (w'.lock .objCl).objects with
      | error e => exact .error _
      | ok objects =>
        refine .ok ⟨rfl, ?_⟩
        have h₁ : World.Alike env env' { w.lock .objCl with objects := objects }
            { w'.lock .objCl with objects := objects } :=
          h₀.map (fun v => { v with objects := objects }) rfl rfl h₀.left h₀.right
        exact ((h₁.setObj o _).emit (.unlock .objCl) (.unlock .objCl)).markObjDirty o

theorem renameObject.scan_congr {key newname : CStr} (heq : ∀ (i : Slot), w.keyEq i key = w'.keyEq i key)
    (hnew : ∀ (i : Slot), w.keyEq i newname = w'.keyEq i newname) (is : List Slot) (objIndex : Option Slot)
    : scan w key newname is objIndex = scan w' key newname is objIndex := by
  induction is generalizing objIndex with
  | nil => rfl
  | cons i is ih =>
    unfold scan
    dsimp only
    rw [heq, hnew, ih]

theorem renameObject_alike (h : w.Alike env env' w') (key newname : CStr)
    : (renameObject key newname w).1 = (renameObject key newname w').1
      ∧ (renameObject key newname w).2.Alike env env' (renameObject key newname w').2 := by
  have h₀ := h.emit (.lock .objCl) (.lock .objCl)
  unfold renameObject
  have hscan := renameObject.scan_congr (fun i => h₀.keyEq_eq i key) (fun i => h₀.keyEq_eq i newname)
    (Loop.range maxObjs) none
  have hscan' : renameObject.scan (w.lock .objCl) key newname (Loop.range maxObjs) none
      = renameObject.scan (w'.lock .objCl) key newname (Loop.range maxObjs) none := hscan
  rw [hscan']
  generalize renameObject.scan (w'.lock .objCl) key newname (Loop.range maxObjs) none = res
  cases res with
  | none => exact ⟨rfl, h₀.emit _ _⟩
  | some found =>
    cases found with
    | none => exact ⟨rfl, h₀.emit _ _⟩
    | some o =>
      unfold renameObject.finish
      have hobj : (w.lock .objCl).objects = (w'.lock .objCl).objects := h₀.objects_eq
      rw [hobj]
      exact ⟨rfl, ((h₀.setObj o _).emit (.unlock .objCl) (.unlock .objCl)).markObjDirty o⟩

end ObjStore
