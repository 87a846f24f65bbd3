import CS330.ObjStore.Lemmas.Progress

/-!
This module contains the correctness of `objstore_write`: its loops carry the progress of the job from
block 0 to the last block.
-/

namespace ObjStore

open View

namespace Job

-- an allocation has failed since the free blocks were fewer than the job needs
def Starved (job : Job) (v₀ : View) (w : World) : Prop :=
  w.Exhausted ∧ v₀.blkBmp.free < job.need v₀

/--
The state of `objstore_write` before block `t`. The view `v` is the one the world will show once the
pointer block at hand is written back.
-/
structure Inv (job : Job) (v₀ : View) (t : Nat) (x : Xfer) (w : World) (v : View) : Prop where
  tagged : w.Tagged
  temp : ∃ (temp : Block), x.temp = some temp
  rem : x.remaining = job.size - 4096 * (t - job.start)
  done : 0 < x.remaining → x.blocksDone = min t job.start
  shift_eq : 0 < x.remaining → x.shift = if t ≤ job.start then job.shift else 0
  good : job.Starved v₀ w
    ∨ (job.Progress v₀ v t ∧ w.NoTable
      ∧ (0 < x.remaining → job.shift = 0 → x.temp = some (job.temp t)))

variable {job : Job} {env : Env} {v₀ v v' : View} {t : Nat} {x : Xfer} {w w' : World}

theorem temp_before (job : Job) (ht : t < job.start) : job.temp (t + 1) = job.temp t := by
  funext q
  unfold temp
  rw [if_pos (by omega), if_pos (by omega)]

namespace Inv

theorem before (h : job.Inv v₀ t x w v) (hlt : t < job.start)
    (hblock : job.HasPointerBlock v t)
    : job.Inv v₀ (t + 1) { x with blocksDone := x.blocksDone + 1 } w v where
  tagged := h.tagged
  temp := h.temp
  rem := by
    have := h.rem
    simp only
    rw [this]
    congr 1
    omega
  done := by
    intro hrem
    have := h.done hrem
    simp only
    omega
  shift_eq := by
    intro hrem
    have := h.shift_eq hrem
    simp only
    rw [this, if_pos (by omega), if_pos (by omega)]
  good := by
    cases h.good with
    | inl hfull => exact Or.inl hfull
    | inr hgood =>
      obtain ⟨hprog, hnoTable, htemp⟩ := hgood
      refine Or.inr ⟨?_, hnoTable, ?_⟩
      . apply hprog.skip (t + 1) (by omega)
        . intro s h1 h2 htouched
          have := htouched.1
          omega
        . intro i h1 h2 _
          exact hblock i (by omega) (by omega)
      . intro hrem h0
        rw [job.temp_before hlt]
        exact htemp hrem h0

theorem after (h : job.Inv v₀ t x w v) (hrem : x.remaining = 0) (t' : Nat) (ht' : t ≤ t') (x' : Xfer)
    (hx : x'.remaining = 0) (hx' : x'.temp = x.temp)
    : job.Inv v₀ t' x' w v where
  tagged := h.tagged
  temp := by
    rw [hx']
    exact h.temp
  rem := by
    have := h.rem
    omega
  done := by
    intro h0
    omega
  shift_eq := by
    intro h0
    omega
  good := by
    have hsize : job.size ≤ 4096 * (t - job.start) := by
      have := h.rem
      omega
    cases h.good with
    | inl hfull => exact Or.inl hfull
    | inr hgood =>
      refine Or.inr ⟨?_, hgood.2.1, by omega⟩
      apply hgood.1.skip t' ht'
      . intro s h1 h2 htouched
        have := htouched.2
        omega
      . intro i h1 h2 h3
        omega

theorem progress (h : job.Inv v₀ t x w v) (hfree : ¬ w.Exhausted) : job.Progress v₀ v t :=
  (h.good.resolve_left (fun hstarved => hfree hstarved.1)).1

theorem malloc (h : job.Inv v₀ t x w (w.view env))
    : job.Inv v₀ t x (w.emit (.cmalloc true)) ((w.emit (.cmalloc true)).view env) where
  tagged := h.tagged
  temp := h.temp
  rem := h.rem
  done := h.done
  shift_eq := h.shift_eq
  good := by
    cases h.good with
    | inl hstarved => exact Or.inl ⟨List.mem_cons_of_mem _ hstarved.1, hstarved.2⟩
    | inr hgood => exact Or.inr hgood

theorem fit (h : job.Inv v₀ t x w v) (hrem : 0 < x.remaining)
    : x.shift + curSize x.remaining ≤ blockSize := by
  have h1 := h.rem
  have h2 := h.shift_eq hrem
  have h3 := job.fit
  rw [curSize_eq, h2, h1]
  simp only [blockSize]
  split
  . omega
  . omega

theorem touched (h : job.Inv v₀ t x w v) (hrem : 0 < x.remaining) (hstart : job.start ≤ t)
    : job.Touched t := by
  refine ⟨hstart, ?_⟩
  have := h.rem
  omega

theorem advance (h : job.Inv v₀ t x w v) (hrem : 0 < x.remaining) (hstart : job.start ≤ t) (c : Block)
    (htag : w'.Tagged)
    (hgood : job.Starved v₀ w' ∨ (job.Progress v₀ v' (t + 1) ∧ w'.NoTable
      ∧ (0 < x.remaining - curSize x.remaining → job.shift = 0 → c = job.temp (t + 1))))
    : job.Inv v₀ (t + 1) (x.advance c) w' v' where
  tagged := htag
  temp := ⟨c, rfl⟩
  rem := by
    have := h.rem
    simp only [Xfer.advance, curSize_eq]
    omega
  done := by
    intro _
    have := h.done hrem
    simp only [Xfer.advance]
    omega
  shift_eq := by
    intro _
    rw [if_neg (by omega)]
    rfl
  good := by
    refine hgood.imp id (fun hgood => ⟨hgood.1, hgood.2.1, ?_⟩)
    intro hrem' h0
    exact congrArg some (hgood.2.2 hrem' h0)

-- a chunk that is not the last one is a whole block unless it is shifted
theorem chunk_eq (h : job.Inv v₀ t x w v) (hrem : 0 < x.remaining) (hstart : job.start ≤ t)
    (old temp : Block) (hrem' : 0 < x.remaining - curSize x.remaining) (h0 : job.shift = 0)
    : chunk job.buf job.size x old temp = job.temp (t + 1) := by
  have h1 := h.rem
  have h2 := h.shift_eq hrem
  rw [h0, ite_self] at h2
  rw [curSize_eq] at hrem'
  funext q
  have hq := q.isLt
  simp only [blockSize] at hq
  unfold chunk Job.temp
  rw [Buf.copy_in, if_neg (by omega), h2]
  . congr 1
    omega
  . rw [h2, curSize_eq]
    omega

end Inv

theorem stored_direct (hown : v.Own) (o : Slot) (i : Fin 4) (q : BlockNo) (c : Block)
    (hupd : Updated v ((v.objects o).direct i) q c v')
    : Stored v (.direct o i) c
        (v'.setObj o { v'.objects o with direct := Function.update (v'.objects o).direct i q }) := by
  cases hupd with
  | old hp hq hv =>
    subst hv hq
    have := Stored.old hown (.direct o i) rfl hp c
    have heq : (v.setData ((v.objects o).direct i) c).setObj o
        { (v.objects o) with
          direct := Function.update (v.objects o).direct i ((v.objects o).direct i) }
        = v.setData (v.ptr (.direct o i)) c := by
      rw [Function.update_eq_self]
      simp [setObj, setData, ptr]
    rw [← heq] at this
    exact this
  | new hp hfree hlt hv =>
    subst hv
    exact Stored.new hown (.direct o i) rfl trivial hp q hlt hfree c

theorem stored_entry (o : Slot) (i : Fin 4) (j : Fin 1024) (bb : Block)
    (hown : (v.setData ((v.objects o).indirect i) bb).Own) (hind : (v.objects o).indirect i ≠ 0#32)
    (q : BlockNo) (c : Block) (hupd : Updated v (ptrAt bb j) q c v')
    : Stored (v.setData ((v.objects o).indirect i) bb) (.entry o i j) c
        (v'.setData ((v.objects o).indirect i) (setPtr bb j q))
      ∧ q ≠ (v.objects o).indirect i := by
  have hptr : (v.setData ((v.objects o).indirect i) bb).ptr (.entry o i j) = ptrAt bb j := by
    simp [ptr, setData, hind]
  cases hupd with
  | old hp hq hv =>
    subst hv hq
    have hp' := hp
    rw [← hptr] at hp'
    have hne : (v.objects o).indirect i ≠ ptrAt bb j := by
      have := hown.indirect_ne (.entry o i j) rfl hp' o i
      rw [hptr] at this
      exact this
    refine ⟨?_, hne.symm⟩
    have := Stored.old hown (.entry o i j) rfl hp' c
    rw [hptr] at this
    have heq : (v.setData (ptrAt bb j) c).setData ((v.objects o).indirect i)
        (setPtr bb j (ptrAt bb j))
        = (v.setData ((v.objects o).indirect i) bb).setData (ptrAt bb j) c := by
      simp only [setPtr_ptrAt, setData, Function.update_comm hne.symm]
    rw [heq]
    exact this
  | new hp hfree hlt hv =>
    subst hv
    have hne : (v.objects o).indirect i ≠ q := hown.ptr_ne q hfree (.indirect o i)
    refine ⟨?_, hne.symm⟩
    have := Stored.new hown (.entry o i j) rfl hind (hptr.trans hp) q hlt hfree c
    have heq : ((v.mark q).setData q c).setData ((v.objects o).indirect i) (setPtr bb j q)
        = ((v.setData ((v.objects o).indirect i) bb).take (.entry o i j) q).setData q c := by
      simp only [View.take, putPtr, setData, mark, Function.update_self, Function.update_idem,
        Function.update_comm hne.symm]
    rw [heq]
    exact this

theorem inv_direct (hr : env.Reliable) (i : Fin 4) (h : job.Inv v₀ i x w (w.view env))
    : ∃ (x' : Xfer) (w' : World),
        objstoreWrite.direct env job.o job.buf job.size job.start i (x, w) = .ok (.next (x', w'))
        ∧ job.Inv v₀ (i + 1) x' w' (w'.view env) := by
  have hblock : job.HasPointerBlock (w.view env) i := by
    intro k hk
    omega
  unfold objstoreWrite.direct
  by_cases hbefore : x.blocksDone < job.start
  . simp only [hbefore, ↓reduceIte]
    refine ⟨_, w, rfl, ?_⟩
    by_cases hrem : 0 < x.remaining
    . have := h.done hrem
      exact h.before (by omega) hblock
    . exact h.after (by omega) _ (by omega) _ (by simp only; omega) rfl
  . simp only [hbefore, ↓reduceIte]
    by_cases hrem : 0 < x.remaining
    . have hstart : job.start ≤ i := by
        have := h.done hrem
        omega
      obtain ⟨temp, htemp⟩ := h.temp
      obtain ⟨q, c, w', heq, htag, hobj, hmono, hcase⟩ :=
        updateBlock_spec hr h.tagged job.buf job.size ((w.objects job.o).direct i) x hrem temp htemp
          (h.fit hrem)
      rw [heq]
      refine ⟨_, _, rfl, ?_⟩
      dsimp only
      refine h.advance hrem hstart c htag ?_
      cases h.good with
      | inl hstarved => exact Or.inl ⟨hmono hstarved.1, hstarved.2⟩
      | inr hgood =>
        obtain ⟨hprog, hnoTable, htempEq⟩ := hgood
        have htouched := h.touched hrem hstart
        cases hcase with
        | inl hfail =>
          obtain ⟨hexhausted, hp, hfull⟩ := hfail
          refine Or.inl ⟨hexhausted, hprog.free_lt_data (by omega) htouched ?_ hfull⟩
          rw [dataRef_direct]
          exact hp
        | inr hcase =>
          obtain ⟨hupd, hc, hnt⟩ := hcase
          right
          have hs := stored_direct hprog.own job.o i q c hupd
          rw [← dataRef_direct] at hs
          have hwritten : job.Written v₀ i c := by
            rw [hc]
            apply hprog.written_chunk htouched x h.rem (h.shift_eq hrem)
            . intro blk hcell
              rw [dataRef_direct] at hcell
              cases hupd with
              | old hp hq _ =>
                rw [cell_eq (w.view env) (.direct job.o i) hp] at hcell
                rw [hq]
                exact Option.some.inj hcell
              | new hp _ _ _ => simp [cell, ptr, World.view, hp] at hcell
            . intro h0
              exact Option.some.inj (htemp.symm.trans (htempEq hrem h0))
          refine ⟨hprog.store (by omega) htouched hblock c hwritten _ hs, ?_, ?_⟩
          . apply hnt _ hnoTable
            exact hupd.not_reserved hprog.own.reserved_used (hprog.own.ptr_not_reserved (.direct job.o i))
          . intro hrem' h0
            rw [hc]
            exact h.chunk_eq hrem hstart _ temp hrem' h0
    . rw [updateBlock_zero _ _ _ _ (by omega)]
      refine ⟨_, _, rfl, ?_⟩
      have hsame : w.setObj job.o { w.objects job.o with
          direct := Function.update (w.objects job.o).direct i ((w.objects job.o).direct i) } = w := by
        simp [World.setObj]
      simp only [hsame]
      exact h.after (by omega) _ (by omega) _ (by omega) rfl

theorem inv_entry (hr : env.Reliable) (i : Fin 4) (j : Fin 1024) (bb : Block) (ind : BlockNo)
    (hind : ind ≠ 0#32) (hobj : (w.objects job.o).indirect i = ind)
    (h : job.Inv v₀ (4 + 1024 * i + j) x w ((w.view env).setData ind bb))
    : ∃ (x' : Xfer) (w' : World) (bb' : Block),
        objstoreWrite.entry env job.buf job.size job.start j (x, w, bb) = .ok (.next (x', w', bb'))
        ∧ (w'.objects job.o).indirect i = ind
        ∧ job.Inv v₀ (4 + 1024 * i + (j + 1)) x' w' ((w'.view env).setData ind bb') := by
  have hblock : job.HasPointerBlock ((w.view env).setData ind bb) (4 + 1024 * i + j) := by
    intro k h1 h2
    have hki : k = i := by omega
    subst hki
    have : (w.objects job.o).indirect k ≠ 0#32 := by
      rw [hobj]
      exact hind
    exact this
  unfold objstoreWrite.entry
  by_cases hbefore : x.blocksDone < job.start
  . simp only [hbefore, ↓reduceIte]
    refine ⟨_, w, bb, rfl, hobj, ?_⟩
    by_cases hrem : 0 < x.remaining
    . have := h.done hrem
      exact h.before (by omega) hblock
    . exact h.after (by omega) _ (by omega) _ (by simp only; omega) rfl
  . simp only [hbefore, ↓reduceIte]
    by_cases hrem : 0 < x.remaining
    . have hstart : job.start ≤ 4 + 1024 * i + j := by
        have := h.done hrem
        omega
      obtain ⟨temp, htemp⟩ := h.temp
      obtain ⟨q, c, w', heq, htag, hobj', hmono, hcase⟩ :=
        updateBlock_spec hr h.tagged job.buf job.size (ptrAt bb j) x hrem temp htemp (h.fit hrem)
      rw [heq]
      refine ⟨_, _, _, rfl, by rw [← hobj, ← hobj'], ?_⟩
      dsimp only
      refine h.advance hrem hstart c htag ?_
      subst hobj
      have hptr : ((w.view env).setData ((w.objects job.o).indirect i) bb).ptr (.entry job.o i j)
          = ptrAt bb j := by
        simp [ptr, setData, World.view, hind]
      cases h.good with
      | inl hstarved => exact Or.inl ⟨hmono hstarved.1, hstarved.2⟩
      | inr hgood =>
        obtain ⟨hprog, hnoTable, htempEq⟩ := hgood
        have htouched := h.touched hrem hstart
        cases hcase with
        | inl hfail =>
          obtain ⟨hexhausted, hp, hfull⟩ := hfail
          refine Or.inl ⟨hexhausted, hprog.free_lt_data (by omega) htouched ?_ hfull⟩
          rw [dataRef_entry, hptr]
          exact hp
        | inr hcase =>
          obtain ⟨hupd, hc, hnt⟩ := hcase
          right
          obtain ⟨hs, hne⟩ := stored_entry job.o i j bb hprog.own hind q c hupd
          rw [← dataRef_entry] at hs
          have hwritten : job.Written v₀ (4 + 1024 * i + j) c := by
            rw [hc]
            apply hprog.written_chunk htouched x h.rem (h.shift_eq hrem)
            . intro blk hcell
              rw [dataRef_entry] at hcell
              cases hupd with
              | old hp hq _ =>
                rw [cell_eq _ _ (by rw [hptr]; exact hp), hptr] at hcell
                rw [hq] at hne ⊢
                have := Option.some.inj hcell
                rw [← this]
                exact (Function.update_of_ne hne _ _).symm
              | new hp _ _ _ => simp [cell, hptr, hp] at hcell
            . intro h0
              exact Option.some.inj (htemp.symm.trans (htempEq hrem h0))
          refine ⟨hprog.store (by omega) htouched hblock c hwritten _ hs, ?_, ?_⟩
          . apply hnt _ hnoTable
            apply hupd.not_reserved hprog.own.reserved_used
            intro hp
            rw [← hptr] at hp ⊢
            exact hprog.own.ptr_not_reserved _ hp
          . intro hrem' h0
            rw [hc]
            exact h.chunk_eq hrem hstart _ temp hrem' h0
    . rw [updateBlock_zero _ _ _ _ (by omega)]
      refine ⟨_, _, _, rfl, hobj, ?_⟩
      dsimp only
      rw [setPtr_ptrAt]
      exact h.after (by omega) _ (by omega) _ (by omega) rfl

theorem inv_entries (hr : env.Reliable) (i : Fin 4) (bb : Block) (ind : BlockNo) (hind : ind ≠ 0#32)
    (hobj : (w.objects job.o).indirect i = ind)
    (h : job.Inv v₀ (4 + 1024 * i) x w ((w.view env).setData ind bb))
    : ∃ (x' : Xfer) (w' : World) (bb' : Block),
        Loop.run (objstoreWrite.entry env job.buf job.size job.start) (Loop.range 1024) (x, w, bb)
          = .ok (.next (x', w', bb'))
        ∧ (w'.objects job.o).indirect i = ind
        ∧ job.Inv v₀ (1028 + 1024 * i) x' w' ((w'.view env).setData ind bb') := by
  let P (k : Nat) (s : Xfer × World × Block) : Prop :=
    (s.2.1.objects job.o).indirect i = ind
      ∧ job.Inv v₀ (4 + 1024 * i + k) s.1 s.2.1 ((s.2.1.view env).setData ind s.2.2)
  let Q (r : Except Fault (Loop.Flow Int (Xfer × World × Block))) : Prop :=
    ∃ (x' : Xfer) (w' : World) (bb' : Block), r = .ok (.next (x', w', bb')) ∧ P 1024 (x', w', bb')
  have hrun : Q (Loop.run (objstoreWrite.entry env job.buf job.size job.start)
      (Loop.range 1024) (x, w, bb)) := by
    apply Loop.run_inv (P := P)
    . rintro j ⟨x, w, bb⟩ ⟨hobj, h⟩
      obtain ⟨x', w', bb', heq, hobj', h'⟩ := inv_entry hr i j bb ind hind hobj h
      rw [heq]
      exact ⟨hobj', h'⟩
    . rintro ⟨x', w', bb'⟩ h
      exact ⟨x', w', bb', rfl, h⟩
    . exact ⟨hobj, h⟩
  obtain ⟨x', w', bb', heq, hobj', h'⟩ := hrun
  refine ⟨x', w', bb', heq, hobj', ?_⟩
  have : 1028 + 1024 * i.val = 4 + 1024 * i + 1024 := by omega
  rw [this]
  exact h'

theorem inv_pointerBlock (hr : env.Reliable) (i : Fin 4) (buf : Block) (hrem : 0 < x.remaining)
    (h : job.Inv v₀ (4 + 1024 * i) x w (w.view env))
    : ∃ (w' : World) (bb : Block) (ind : BlockNo),
        objstoreWrite.pointerBlock env job.o i buf w = (true, bb, w')
        ∧ ind ≠ 0#32 ∧ (w'.objects job.o).indirect i = ind
        ∧ job.Inv v₀ (4 + 1024 * i) x w' ((w'.view env).setData ind bb) := by
  unfold objstoreWrite.pointerBlock
  by_cases hnull : (w.objects job.o).indirect i = 0#32
  . obtain ⟨b, w₁, halloc, hb, hinfo, hobj, hmono, hcase⟩ := allocBlock_spec env w
    rw [if_pos hnull, halloc]
    refine ⟨_, _, b, rfl, hb, by simp [World.setObj], ?_⟩
    have htag : w₁.Tagged := by
      unfold World.Tagged
      rw [hinfo]
      exact h.tagged
    refine ⟨htag, h.temp, h.rem, h.done, h.shift_eq, ?_⟩
    have hneed : 4096 * (4 + 1024 * i.val - job.start) < job.size := by
      have := h.rem
      omega
    cases h.good with
    | inl hstarved => exact Or.inl ⟨hmono hstarved.1, hstarved.2⟩
    | inr hgood =>
      obtain ⟨hprog, hnoTable, htempEq⟩ := hgood
      cases hcase with
      | inl hfail =>
        exact Or.inl ⟨hfail.1, hprog.free_lt_pointer (by omega) i hnull hneed hfail.2⟩
      | inr hnew =>
        obtain ⟨hfree, hlt, hview⟩ := hnew
        right
        have hpend : ((w₁.setObj job.o { w₁.objects job.o with
            indirect := Function.update (w₁.objects job.o).indirect i b }).view env).setData b
              (Buf.zero blockSize)
            = (w.view env).takeIndirect job.o i b := by
          rw [World.view_setObj, hview, hobj]
          rfl
        rw [hpend]
        refine ⟨hprog.takeIndirect i hnull hneed b hlt hfree, ?_, htempEq⟩
        have : w₁.NoTable := by
          unfold World.NoTable
          rw [hinfo]
          exact hnoTable
        exact this
  . obtain ⟨w', hread, hview, hkeeps⟩ := readChBlk_spec hr h.tagged _ hnull buf
    simp only [hnull, ↓reduceIte, hread]
    have hobj : w'.objects = w.objects := congrArg View.objects hview
    refine ⟨_, _, (w.objects job.o).indirect i, rfl, hnull, by rw [hobj], ?_⟩
    have hpend : (w'.view env).setData ((w.objects job.o).indirect i)
        ((w.view env).data ((w.objects job.o).indirect i)) = w.view env := by
      rw [hview]
      simp [setData]
    rw [hpend]
    refine ⟨hkeeps.tagged, h.temp, h.rem, h.done, h.shift_eq, ?_⟩
    cases h.good with
    | inl hstarved => exact Or.inl ⟨hkeeps.exhausted.mpr hstarved.1, hstarved.2⟩
    | inr hgood =>
      obtain ⟨hprog, hnoTable, htempEq⟩ := hgood
      right
      refine ⟨hprog, hkeeps.noTable ?_ hnoTable, htempEq⟩
      exact Nat.le_of_not_lt (hprog.own.ptr_not_reserved (.indirect job.o i) hnull)

theorem inv_indirect (hr : env.Reliable) (i : Fin 4) (h : job.Inv v₀ (4 + 1024 * i) x w (w.view env))
    : ∃ (x' : Xfer) (w' : World),
        objstoreWrite.indirect env job.o job.buf job.size job.start i (x, w) = .ok (.next (x', w'))
        ∧ job.Inv v₀ (4 + 1024 * (i + 1)) x' w' (w'.view env) := by
  have hnext : 4 + 1024 * (i.val + 1) = 1028 + 1024 * i.val := by
    rw [Nat.mul_add, Nat.add_comm (1024 * i.val), ← Nat.add_assoc]
  rw [hnext]
  unfold objstoreWrite.indirect
  by_cases hrem : 0 < x.remaining
  . simp only [hrem, ↓reduceIte, cmalloc_eq hr]
    obtain ⟨w₁, bb, ind, hptr, hind, hobj, h₁⟩ := inv_pointerBlock hr i (Buf.zero blockSize) hrem h.malloc
    obtain ⟨x₂, w₂, bb₂, hrun, hobj₂, h₂⟩ := inv_entries hr i bb ind hind hobj h₁
    obtain ⟨w₃, hwrite, hview, hkeeps⟩ := writeChBlk_spec hr h₂.tagged ind hind bb₂
    simp only [hptr, hrun, bind, Except.bind, hobj₂, hwrite]
    refine ⟨x₂, w₃, rfl, ?_⟩
    rw [hview]
    refine ⟨hkeeps.tagged, h₂.temp, h₂.rem, h₂.done, h₂.shift_eq, ?_⟩
    cases h₂.good with
    | inl hstarved => exact Or.inl ⟨hkeeps.exhausted.mpr hstarved.1, hstarved.2⟩
    | inr hgood =>
      obtain ⟨hprog, hnoTable, htempEq⟩ := hgood
      right
      refine ⟨hprog, hkeeps.noTable ?_ hnoTable, htempEq⟩
      have hp : ((w₂.view env).setData ind bb₂).ptr (.indirect job.o i) = ind := hobj₂
      have := hprog.own.ptr_not_reserved (.indirect job.o i) (by rw [hp]; exact hind)
      rw [hp] at this
      exact Nat.le_of_not_lt this
  . simp only [hrem, ↓reduceIte]
    exact ⟨x, w, rfl, h.after (by omega) _ (by omega) _ (by omega) rfl⟩

theorem inv_directs (hr : env.Reliable) (h : job.Inv v₀ 0 x w (w.view env))
    : ∃ (x' : Xfer) (w' : World),
        Loop.run (objstoreWrite.direct env job.o job.buf job.size job.start) (Loop.range 4) (x, w)
          = .ok (.next (x', w'))
        ∧ job.Inv v₀ 4 x' w' (w'.view env) := by
  let P (k : Nat) (s : Xfer × World) : Prop := job.Inv v₀ k s.1 s.2 (s.2.view env)
  let Q (r : Except Fault (Loop.Flow Int (Xfer × World))) : Prop :=
    ∃ (x' : Xfer) (w' : World), r = .ok (.next (x', w')) ∧ P 4 (x', w')
  have hrun : Q (Loop.run (objstoreWrite.direct env job.o job.buf job.size job.start)
      (Loop.range 4) (x, w)) := by
    apply Loop.run_inv (P := P)
    . rintro i ⟨x, w⟩ h
      obtain ⟨x', w', heq, h'⟩ := inv_direct hr i h
      rw [heq]
      exact h'
    . rintro ⟨x', w'⟩ h
      exact ⟨x', w', rfl, h⟩
    . exact h
  exact hrun

theorem inv_indirects (hr : env.Reliable) (h : job.Inv v₀ 4 x w (w.view env))
    : ∃ (x' : Xfer) (w' : World),
        Loop.run (objstoreWrite.indirect env job.o job.buf job.size job.start) (Loop.range 4) (x, w)
          = .ok (.next (x', w'))
        ∧ job.Inv v₀ 4100 x' w' (w'.view env) := by
  let P (k : Nat) (s : Xfer × World) : Prop := job.Inv v₀ (4 + 1024 * k) s.1 s.2 (s.2.view env)
  let Q (r : Except Fault (Loop.Flow Int (Xfer × World))) : Prop :=
    ∃ (x' : Xfer) (w' : World), r = .ok (.next (x', w')) ∧ P 4 (x', w')
  have hrun : Q (Loop.run (objstoreWrite.indirect env job.o job.buf job.size job.start)
      (Loop.range 4) (x, w)) := by
    apply Loop.run_inv (P := P)
    . rintro i ⟨x, w⟩ h
      obtain ⟨x', w', heq, h'⟩ := inv_indirect hr i h
      rw [heq]
      exact h'
    . rintro ⟨x', w'⟩ h
      exact ⟨x', w', rfl, h⟩
    . exact h
  exact hrun

-- The job of a call of `objstore_write`.
def ofWrite (o : Slot) (buf : Mem) (size offset : Nat)
    (hfit : offset % 4096 + min size 4096 ≤ 4096) : Job where
  o := o
  buf := buf
  size := size
  start := startBlock offset
  shift := offset % 4096
  shift_lt := by omega
  fit := hfit

theorem Inv.init (hok : w.Ok env) (o : Slot) (buf : Mem) (size offset : Nat)
    (hfit : offset % 4096 + min size 4096 ≤ 4096)
    : (Job.ofWrite o buf size offset hfit).Inv (w.view env) 0
        (Xfer.start size offset (some (Buf.zero blockSize))) (w.emit (.cmalloc true))
        ((w.emit (.cmalloc true)).view env) where
  tagged := hok.tagged
  temp := ⟨_, rfl⟩
  rem := by simp [Xfer.start, Job.ofWrite]
  done := by simp [Xfer.start]
  shift_eq := by simp [Xfer.start, Job.ofWrite, blockSize]
  good := by
    refine Or.inr ⟨Progress.init hok.own, hok.noTable, ?_⟩
    intro _ _
    rfl

end Job

/-- The blocks that a write has to allocate, for the contents and for the pointers to them. -/
def World.need (env : Env) (w : World) (o : Slot) (size offset : Nat) : Nat :=
  ((Finset.range 4100).filter (fun t => (startBlock offset ≤ t ∧ 4096 * (t - startBlock offset) < size)
    ∧ (w.view env).ptr (dataRef o t) = 0#32)).card
  + (Finset.univ.filter (fun (i : Fin 4) => 4096 * (4 + 1024 * i.val - startBlock offset) < size
    ∧ (w.objects o).indirect i = 0#32)).card

theorem Job.need_ofWrite (env : Env) (w : World) (o : Slot) (buf : Mem) (size offset : Nat)
    (hfit : offset % 4096 + min size 4096 ≤ 4096)
    : (Job.ofWrite o buf size offset hfit).need (w.view env) = w.need env o size offset := by
  rfl

def View.finish (v : View) (o : Slot) (size : BitVec 64) : View :=
  v.edit o { v.objects o with size := size }

theorem View.cell_finish (v : View) (o : Slot) (size : BitVec 64) (r : Ref)
    : (v.finish o size).cell r = v.cell r :=
  cell_edit o { v.objects o with size := size } rfl rfl r

theorem objstoreWrite_starves {env : Env} {w : World} (hr : env.Reliable) (hok : w.Ok env) (o : Slot)
    (buf : Mem) (size offset : Nat) (hsize : size ≤ maxSize)
    (hfit : offset % 4096 + min size 4096 ≤ 4096)
    : ∃ (w' : World),
        objstoreWrite env o.id buf size offset w = .ok (size, w')
        ∧ w'.Tagged
        ∧ ((Job.ofWrite o buf size offset hfit).Starved (w.view env) w'
          ∨ (w'.NoTable ∧ ∃ (v : View), (Job.ofWrite o buf size offset hfit).Progress (w.view env) v 4100
            ∧ w'.view env = v.finish o (BitVec.ofNat 64 (offset + size)))) := by
  let job := Job.ofWrite o buf size offset hfit
  unfold objstoreWrite
  rw [if_neg o.id_ge, if_neg (by omega), dif_pos o.id_lt, o.of_id]
  simp only [cmalloc_eq hr]
  have hinit := Job.Inv.init hok o buf size offset hfit
  obtain ⟨x₁, w₁, hrun₁, h₁⟩ := Job.inv_directs hr hinit
  obtain ⟨x₂, w₂, hrun₂, h₂⟩ := Job.inv_indirects hr h₁
  have hrun₁' : Loop.run (objstoreWrite.direct env o buf size (startBlock offset)) (Loop.range 4)
      (Xfer.start size offset (some (Buf.zero blockSize)), w.emit (.cmalloc true))
      = .ok (.next (x₁, w₁)) := hrun₁
  have hrun₂' : Loop.run (objstoreWrite.indirect env o buf size (startBlock offset)) (Loop.range 4)
      (x₁, w₁) = .ok (.next (x₂, w₂)) := hrun₂
  simp only [hrun₁', hrun₂', bind, Except.bind, markObjDirty_eq]
  refine ⟨_, rfl, h₂.tagged, ?_⟩
  cases h₂.good with
  | inl hstarved =>
    left
    exact ⟨List.mem_cons_of_mem _ (List.mem_cons_of_mem _ hstarved.1), hstarved.2⟩
  | inr hgood =>
    obtain ⟨hprog, hnoTable, -⟩ := hgood
    exact Or.inr ⟨hnoTable, w₂.view env, hprog, rfl⟩

theorem objstoreWrite_spec {env : Env} {w : World} (hr : env.Reliable) (hok : w.Ok env) (o : Slot)
    (buf : Mem) (size offset : Nat) (hsize : size ≤ maxSize)
    (hfit : offset % 4096 + min size 4096 ≤ 4096)
    : ∃ (w' : World),
        objstoreWrite env o.id buf size offset w = .ok (size, w')
        ∧ w'.Tagged
        ∧ (w'.Exhausted
          ∨ (w'.NoTable ∧ ∃ (v : View), (Job.ofWrite o buf size offset hfit).Progress (w.view env) v 4100
            ∧ w'.view env = v.finish o (BitVec.ofNat 64 (offset + size)))) := by
  obtain ⟨w', hwrite, htag, hcase⟩ := objstoreWrite_starves hr hok o buf size offset hsize hfit
  exact ⟨w', hwrite, htag, hcase.imp (fun hstarved => hstarved.1) id⟩

end ObjStore
