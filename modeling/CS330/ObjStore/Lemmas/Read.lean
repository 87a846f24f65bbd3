import CS330.ObjStore.Lemmas.Progress

/-!
This module contains that `objstore_read` changes nothing a client can see, and that what it returns
depends only on the contents of the object that is read: two worlds that agree on these, whatever their
builds, give the same result.
-/

namespace ObjStore

open View

structure World.Reads (env : Env) (w w' : World) : Prop where
  view_eq : w'.view env = w.view env
  tagged : w'.Tagged
  exhausted : w'.Exhausted ↔ w.Exhausted
  noTable : (w.view env).Own → w.NoTable → w'.NoTable

namespace World.Reads

variable {env : Env} {w w' w'' : World}

theorem refl (htag : w.Tagged) : w.Reads env w :=
  ⟨rfl, htag, Iff.rfl, fun _ h => h⟩

theorem emit (h : w.Reads env w') (e : Event) (he : e ≠ .noSpace) : w.Reads env (w'.emit e) where
  view_eq := h.view_eq
  tagged := h.tagged
  exhausted := by
    rw [← h.exhausted]
    simp [World.Exhausted, World.emit, he.symm]
  noTable := h.noTable

theorem keeps (h : w.Reads env w') (r : Ref) (hr : (w.view env).ptr r ≠ 0#32)
    (hview : w''.view env = w'.view env) (hkeeps : w'.Keeps ((w.view env).ptr r) w'')
    : w.Reads env w'' where
  view_eq := hview.trans h.view_eq
  tagged := hkeeps.tagged
  exhausted := hkeeps.exhausted.trans h.exhausted
  noTable := by
    intro hown hnoTable
    apply hkeeps.noTable _ (h.noTable hown hnoTable)
    exact Nat.le_of_not_lt (hown.ptr_not_reserved r hr)

theorem objects_eq (h : w.Reads env w') : w'.objects = w.objects :=
  congrArg View.objects h.view_eq

end World.Reads

/-- Two views show the same contents of an object. -/
structure View.SameContents (o : Slot) (v v' : View) : Prop where
  indirect_iff : ∀ (i : Fin 4), (v.objects o).indirect i = 0#32 ↔ (v'.objects o).indirect i = 0#32
  cell_eq : ∀ (r : Ref), r.isData = true → r.slot = o → v.cell r = v'.cell r

theorem View.SameContents.refl (o : Slot) (v : View) : SameContents o v v :=
  ⟨fun _ => Iff.rfl, fun _ _ _ => rfl⟩

theorem View.cell_cases {v v' : View} {r : Ref} (h : v.cell r = v'.cell r)
    : (v.ptr r = 0#32 ∧ v'.ptr r = 0#32)
      ∨ (v.ptr r ≠ 0#32 ∧ v'.ptr r ≠ 0#32 ∧ v.data (v.ptr r) = v'.data (v'.ptr r)) := by
  unfold cell at h
  by_cases h1 : v.ptr r = 0#32
  . by_cases h2 : v'.ptr r = 0#32
    . exact Or.inl ⟨h1, h2⟩
    . simp [h1, h2] at h
  . by_cases h2 : v'.ptr r = 0#32
    . simp [h1, h2] at h
    . right
      simpa [h1, h2] using h

variable {env env' : Env} {w w' w₀ w₀' : World}

theorem getBlockData_zero (size : Nat) (b : BlockNo) (x : Xfer) (hx : x.remaining = 0) (buf : Mem)
    : getBlockData env size b x buf w = .ok (0, x, buf, w) := by
  simp [getBlockData, hx]

theorem getBlockData_eq (hr : env.Reliable) (htag : w.Tagged) (size : Nat) (b : BlockNo)
    (hb : b ≠ 0#32) (x : Xfer) (hx : 0 < x.remaining) (temp : Block) (htemp : x.temp = some temp)
    (buf : Mem)
    : ∃ (w' : World),
        getBlockData env size b x buf w
          = (if blockSize < x.shift + curSize x.remaining then .error .tempOverrun
            else .ok (0, x.advance ((w.view env).data b),
              buf.copy (size - x.remaining) (fun i => ((w.view env).data b).get (x.shift + i))
                (curSize x.remaining), w'))
        ∧ w'.view env = w.view env ∧ w.Keeps b w' := by
  obtain ⟨w', hread, hview, hkeeps⟩ := readChBlk_spec hr htag b hb temp
  refine ⟨w', ?_, hview, hkeeps⟩
  unfold getBlockData
  simp only [hx, ↓reduceIte, htemp, hread]
  rfl

-- The states of two reads that run side by side; `w₀` and `w₀'` are the worlds they started in.
structure ReadRel (env env' : Env) (w₀ w₀' : World) (s t : Xfer × Mem × World) : Prop where
  xfer : s.1 = t.1
  buf : s.2.1 = t.2.1
  temp : ∃ (temp : Block), s.1.temp = some temp
  left : w₀.Reads env s.2.2
  right : w₀'.Reads env' t.2.2

namespace ReadRel

variable {x x' : Xfer} {buf buf' : Mem}

theorem skip (h : ReadRel env env' w₀ w₀' (x, buf, w) (x', buf', w'))
    : ReadRel env env' w₀ w₀' ({ x with blocksDone := x.blocksDone + 1 }, buf, w)
        ({ x' with blocksDone := x'.blocksDone + 1 }, buf', w') := by
  obtain ⟨rfl, rfl, htemp, hleft, hright⟩ := h
  exact ⟨rfl, rfl, htemp, hleft, hright⟩

theorem getBlockData (hr : env.Reliable) (hr' : env'.Reliable) (size : Nat)
    (h : ReadRel env env' w₀ w₀' (x, buf, w) (x', buf', w')) (r : Ref)
    (hp : (w₀.view env).ptr r ≠ 0#32) (hp' : (w₀'.view env').ptr r ≠ 0#32)
    (hdata : (w₀.view env).data ((w₀.view env).ptr r) = (w₀'.view env').data ((w₀'.view env').ptr r))
    : Loop.Rel (fun a b => ReadRel env env' w₀ w₀' a.2 b.2)
        (ObjStore.getBlockData env size ((w₀.view env).ptr r) x buf w)
        (ObjStore.getBlockData env' size ((w₀'.view env').ptr r) x' buf' w') := by
  obtain ⟨hx, hb, ⟨temp, htemp⟩, hleft, hright⟩ := h
  simp only at hx hb htemp hleft hright
  subst hx hb
  by_cases hrem : 0 < x.remaining
  . obtain ⟨w₁, heq, hview, hkeeps⟩ :=
      getBlockData_eq hr hleft.tagged size _ hp x hrem temp htemp buf
    obtain ⟨w₁', heq', hview', hkeeps'⟩ :=
      getBlockData_eq hr' hright.tagged size _ hp' x hrem temp htemp buf
    rw [heq, heq', hleft.view_eq, hright.view_eq, hdata]
    split
    . exact .error _
    . refine .ok ⟨rfl, rfl, ⟨_, rfl⟩, ?_, ?_⟩
      . exact hleft.keeps r hp hview hkeeps
      . exact hright.keeps r hp' hview' hkeeps'
  . rw [getBlockData_zero _ _ _ (by omega), getBlockData_zero _ _ _ (by omega)]
    exact .ok ⟨rfl, rfl, ⟨temp, htemp⟩, hleft, hright⟩

theorem place (hr : env.Reliable) (hr' : env'.Reliable) (size start : Nat)
    (h : ReadRel env env' w₀ w₀' (x, buf, w) (x', buf', w')) (r : Ref)
    (hcell : (w₀.view env).cell r = (w₀'.view env').cell r) (p p' : BlockNo)
    (hp : p = (w₀.view env).ptr r) (hp' : p' = (w₀'.view env').ptr r)
    : Loop.Rel (Loop.Flow.Rel (ReadRel env env' w₀ w₀'))
        (if x.blocksDone < start then
          return .next ({ x with blocksDone := x.blocksDone + 1 }, buf, w)
        else if p ≠ 0#32 then do
          let (_, x, buf, w) ← ObjStore.getBlockData env size p x buf w
          return (.next (x, buf, w) : Loop.Flow Int (Xfer × Mem × World))
        else
          return .stop (x, buf, w))
        (if x'.blocksDone < start then
          return .next ({ x' with blocksDone := x'.blocksDone + 1 }, buf', w')
        else if p' ≠ 0#32 then do
          let (_, x, buf, w) ← ObjStore.getBlockData env' size p' x' buf' w'
          return .next (x, buf, w)
        else
          return .stop (x', buf', w')) := by
  subst hp hp'
  have hx : x = x' := h.xfer
  rw [← hx]
  by_cases hskip : x.blocksDone < start
  . rw [if_pos hskip, if_pos hskip]
    have := h.skip
    rw [← hx] at this
    exact .ok (.next this)
  . rw [if_neg hskip, if_neg hskip]
    cases View.cell_cases hcell with
    | inl hnull =>
      rw [if_neg (by simp [hnull.1]), if_neg (by simp [hnull.2])]
      rw [← hx] at h
      exact .ok (.stop h)
    | inr hfull =>
      obtain ⟨h1, h2, h3⟩ := hfull
      rw [if_pos h1, if_pos h2]
      rw [← hx] at h
      apply Loop.Rel.bind (h.getBlockData hr hr' size r h1 h2 h3)
      intro a b hab
      exact .ok (.next hab)

end ReadRel

namespace objstoreRead

variable (hr : env.Reliable) (hr' : env'.Reliable) (size start : Nat) {o : Slot}
variable (hsame : SameContents o (w₀.view env) (w₀'.view env'))

include hr hr' hsame

theorem direct_rel (i : Fin 4) (s t : Xfer × Mem × World) (h : ReadRel env env' w₀ w₀' s t)
    : Loop.Rel (Loop.Flow.Rel (ReadRel env env' w₀ w₀')) (direct env o size start i s)
        (direct env' o size start i t) := by
  obtain ⟨x, buf, w⟩ := s
  obtain ⟨x', buf', w'⟩ := t
  apply h.place hr hr' size start (.direct o i)
  . exact hsame.cell_eq _ rfl rfl
  . exact congrArg (fun f => (f o).direct i) h.left.objects_eq
  . exact congrArg (fun f => (f o).direct i) h.right.objects_eq

theorem indirect_rel (i : Fin 4) (s t : Xfer × Mem × World) (h : ReadRel env env' w₀ w₀' s t)
    : Loop.Rel (Loop.Flow.Rel (ReadRel env env' w₀ w₀')) (indirect env o size start i s)
        (indirect env' o size start i t) := by
  obtain ⟨x, buf, w⟩ := s
  obtain ⟨x', buf', w'⟩ := t
  have hobj : w.objects = w₀.objects := h.left.objects_eq
  have hobj' : w'.objects = w₀'.objects := h.right.objects_eq
  have hx : x = x' := h.xfer
  have hbuf : buf = buf' := h.buf
  subst hx hbuf
  unfold indirect
  simp only [hobj, hobj']
  have hiff := hsame.indirect_iff i
  by_cases hgo : (w₀.objects o).indirect i ≠ 0#32 ∧ 0 < x.remaining
  . have hp : (w₀.view env).ptr (.indirect o i) ≠ 0#32 := hgo.1
    have hp' : (w₀'.view env').ptr (.indirect o i) ≠ 0#32 := fun h => hgo.1 (hiff.mpr h)
    have hgo' : (w₀'.objects o).indirect i ≠ 0#32 ∧ 0 < x.remaining := ⟨hp', hgo.2⟩
    rw [if_pos hgo, if_pos hgo', cmalloc_eq hr, cmalloc_eq hr']
    have hl := h.left.emit (.cmalloc true) (by simp)
    have hrt := h.right.emit (.cmalloc true) (by simp)
    obtain ⟨w₁, hread, hview, hkeeps⟩ := readChBlk_spec hr hl.tagged _ hp (Buf.zero blockSize)
    obtain ⟨w₁', hread', hview', hkeeps'⟩ := readChBlk_spec hr' hrt.tagged _ hp' (Buf.zero blockSize)
    have hread₀ : readChBlk env ((w₀.objects o).indirect i) (Buf.zero blockSize) (w.emit (.cmalloc true))
        = (true, (w₀.view env).data ((w₀.objects o).indirect i), w₁) := by
      rw [← hl.view_eq]
      exact hread
    have hread₀' : readChBlk env' ((w₀'.objects o).indirect i) (Buf.zero blockSize)
        (w'.emit (.cmalloc true)) = (true, (w₀'.view env').data ((w₀'.objects o).indirect i), w₁') := by
      rw [← hrt.view_eq]
      exact hread'
    have hobj₁ : (w.emit (.cmalloc true)).objects = w₀.objects := hobj
    have hobj₁' : (w'.emit (.cmalloc true)).objects = w₀'.objects := hobj'
    simp only [hobj₁, hobj₁', hread₀, hread₀']
    apply Loop.run_rel
    . rintro j ⟨x, buf, w⟩ ⟨x', buf', w'⟩ h
      apply h.place hr hr' size start (.entry o i j)
      . exact hsame.cell_eq _ rfl rfl
      . exact (if_neg hp).symm
      . exact (if_neg hp').symm
    . exact ⟨rfl, rfl, h.temp, hl.keeps _ hp hview hkeeps, hrt.keeps _ hp' hview' hkeeps'⟩
  . have hgo' : ¬ ((w₀'.objects o).indirect i ≠ 0#32 ∧ 0 < x.remaining) := by
      rintro ⟨h1, h2⟩
      exact hgo ⟨fun h => h1 (hiff.mp h), h2⟩
    rw [if_neg hgo, if_neg hgo']
    exact .ok (.stop h)

end objstoreRead

theorem objstoreRead_rel (hr : env.Reliable) (hr' : env'.Reliable) (htag : w.Tagged) (htag' : w'.Tagged)
    (objid : Int) (buf : Mem) (size offset : Nat)
    (hsame : ∀ (o : Slot), objid = o.id → SameContents o (w.view env) (w'.view env'))
    : Loop.Rel (fun a b => a.1 = b.1 ∧ a.2.1 = b.2.1 ∧ w.Reads env a.2.2 ∧ w'.Reads env' b.2.2)
        (objstoreRead env objid buf size offset w) (objstoreRead env' objid buf size offset w') := by
  have hl : w.Reads env (w.lock .rd) := (World.Reads.refl htag).emit (.lock .rd) (by simp)
  have hrt : w'.Reads env' (w'.lock .rd) := (World.Reads.refl htag').emit (.lock .rd) (by simp)
  unfold objstoreRead
  by_cases hid : objid < 2
  . simp only [hid, ↓reduceIte]
    exact .ok ⟨rfl, rfl, hl.emit _ (by simp), hrt.emit _ (by simp)⟩
  . by_cases hsize : size > maxSize
    . simp only [hid, hsize, ↓reduceIte]
      exact .ok ⟨rfl, rfl, hl.emit _ (by simp), hrt.emit _ (by simp)⟩
    . by_cases hlt : (objid - 2).toNat < maxObjs
      . simp only [hid, hsize, hlt, ↓reduceIte, ↓reduceDIte, cmalloc_eq hr, cmalloc_eq hr']
        have ho : objid = Slot.id ⟨(objid - 2).toNat, hlt⟩ := by
          unfold Slot.id
          simp only
          omega
        have hs := hsame _ ho
        have hinit : ReadRel env env' w w'
            (Xfer.start size offset (some (Buf.zero blockSize)), buf, (w.lock .rd).emit (.cmalloc true))
            (Xfer.start size offset (some (Buf.zero blockSize)), buf,
              (w'.lock .rd).emit (.cmalloc true)) :=
          ⟨rfl, rfl, ⟨_, rfl⟩, hl.emit _ (by simp), hrt.emit _ (by simp)⟩
        apply Loop.Rel.bind (Loop.run_rel (objstoreRead.direct_rel hr hr' size _ hs) _ _ _ hinit)
        intro a b hab
        cases hab with
        | ret h => exact .ok ⟨rfl, h.buf, h.left, h.right⟩
        | next h | stop h =>
          apply Loop.Rel.bind (Loop.run_rel (objstoreRead.indirect_rel hr hr' size _ hs) _ _ _ h)
          intro a b hab
          cases hab with
          | ret h => exact .ok ⟨rfl, h.buf, h.left, h.right⟩
          | next h | stop h =>
            refine .ok ⟨rfl, ?_, h.left.emit _ (by simp), h.right.emit _ (by simp)⟩
            simp only [h.xfer, h.buf]
      . simp only [hid, hsize, hlt, ↓reduceIte, ↓reduceDIte]
        exact .error _

theorem objstoreRead_reads (hr : env.Reliable) (htag : w.Tagged) (objid : Int) (buf : Mem)
    (size offset : Nat) (r : Int) (buf' : Mem) (w' : World)
    (h : objstoreRead env objid buf size offset w = .ok (r, buf', w'))
    : w.Reads env w' := by
  have hrel := objstoreRead_rel hr hr htag htag objid buf size offset
    (fun o _ => SameContents.refl o (w.view env))
  rw [h] at hrel
  cases hrel with
  | ok hab => exact hab.2.2.1

end ObjStore
