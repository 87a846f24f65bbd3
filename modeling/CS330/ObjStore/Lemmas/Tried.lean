import CS330.ObjStore.Lemmas.Draining

/-!
This module contains which block transfers have failed between two worlds. The block layer tells its
caller; so do `update_block` and `get_block_data`.
-/

namespace ObjStore

def Event.failed : Event → Bool
  | .readBlock _ ok => !ok
  | .writeBlock _ ok => !ok
  | _ => false

/-- The world `w'` comes after `w`, and `P` says whether all transfers in between were successful. -/
def World.Tried (P : Prop) (w w' : World) : Prop :=
  ∃ (es : List Event), w'.log = es ++ w.log ∧ (P ↔ ∀ (e : Event), e ∈ es → e.failed = false)

variable {env : Env} {w w' w'' : World} {P Q : Prop}

namespace World.Tried

theorem of_log (h : w'.log = w.log) : World.Tried True w w' :=
  ⟨[], h, by simp⟩

theorem refl (w : World) : World.Tried True w w :=
  of_log rfl

theorem trans (h : World.Tried P w w') (h' : World.Tried Q w' w'') : World.Tried (P ∧ Q) w w'' := by
  obtain ⟨es, heq, hes⟩ := h
  obtain ⟨es', heq', hes'⟩ := h'
  refine ⟨es' ++ es, by rw [heq', heq, List.append_assoc], ?_⟩
  rw [hes, hes', List.forall_mem_append]
  exact And.comm

theorem congr (h : World.Tried P w w') (hPQ : P ↔ Q) : World.Tried Q w w' := by
  obtain ⟨es, heq, hes⟩ := h
  exact ⟨es, heq, hPQ.symm.trans hes⟩

theorem after (h : World.Tried True w w') (h' : World.Tried Q w' w'') : World.Tried Q w w'' :=
  (h.trans h').congr (and_iff_right trivial)

theorem before (h : World.Tried P w w') (h' : World.Tried True w' w'') : World.Tried P w w'' :=
  (h.trans h').congr (and_iff_left trivial)

theorem emit (w : World) (e : Event) : World.Tried (e.failed = false) w (w.emit e) :=
  ⟨[e], rfl, by simp⟩

theorem lock (w : World) (m : Mutex) : World.Tried True w (w.lock m) :=
  (emit w (.lock m)).congr (iff_true_intro rfl)

theorem unlock (w : World) (m : Mutex) : World.Tried True w (w.unlock m) :=
  (emit w (.unlock m)).congr (iff_true_intro rfl)

theorem since_iff (h : World.Tried P w w')
    : P ↔ ∀ (e : Event), e ∈ w.since w' → e.failed = false := by
  obtain ⟨es, heq, hes⟩ := h
  rw [World.since_eq heq]
  exact hes

end World.Tried

/-! The block layer. -/

theorem cmalloc_tried (env : Env) (w : World) : World.Tried True w (cmalloc env w).2 := by
  unfold cmalloc
  split
  . exact (World.Tried.emit w (.cmalloc false)).congr (iff_true_intro rfl)
  . exact (World.Tried.emit w (.cmalloc true)).congr (iff_true_intro rfl)

theorem readBlock_tried (env : Env) (b : BlockNo) (w : World)
    : World.Tried ((readBlock env b w).1 = true) w (readBlock env b w).2.2 := by
  unfold readBlock
  split
  . exact (World.Tried.emit w (.readBlock b false)).congr (by simp [Event.failed])
  . exact (World.Tried.emit w (.readBlock b true)).congr (by simp [Event.failed])

theorem writeBlock_tried (env : Env) (b : BlockNo) (buf : Block) (w : World)
    : World.Tried ((writeBlock env b buf w).1 = true) w (writeBlock env b buf w).2 := by
  unfold writeBlock
  split
  . exact (World.Tried.emit w (.writeBlock b false)).congr (by simp [Event.failed])
  . have hdisk : World.Tried True w { w with disk := Function.update w.disk b buf } := .of_log rfl
    exact (hdisk.after (.emit _ (.writeBlock b true))).congr (by simp [Event.failed])

theorem flushChBlk_tried (env : Env) (index : Fin cacheLen) (w : World)
    : World.Tried ((flushChBlk env index w).1 = true) w (flushChBlk env index w).2 := by
  have h := writeBlock_tried env (w.cacheInfo index) (w.cache index) w
  unfold flushChBlk
  generalize writeBlock env (w.cacheInfo index) (w.cache index) w = res at h
  obtain ⟨ok, w'⟩ := res
  cases ok with
  | false => exact h
  | true => exact h.before (.of_log rfl)

theorem readChBlk_tried (env : Env) (b : BlockNo) (buf : Block) (w : World)
    : World.Tried ((readChBlk env b buf w).1 = true) w (readChBlk env b buf w).2.2 := by
  unfold readChBlk
  split
  . have h₁ := World.Tried.lock w .ch
    simp only
    generalize w.lock .ch = w₁ at h₁ ⊢
    split
    . have h₂ := flushChBlk_tried env (cacheIndex b) w₁
      generalize flushChBlk env (cacheIndex b) w₁ = res at h₂ ⊢
      obtain ⟨ok, w₂⟩ := res
      cases ok with
      | false => exact (h₁.after h₂).before (.unlock w₂ .ch)
      | true =>
        simp only
        have h₃ := readBlock_tried env b
          { w₂ with cacheInfo := Function.update w₂.cacheInfo (cacheIndex b) b }
        generalize readBlock env b _ = res at h₃ ⊢
        obtain ⟨ok, line, w₃⟩ := res
        have hflush : World.Tried True w { w₂ with
            cacheInfo := Function.update w₂.cacheInfo (cacheIndex b) b } :=
          ((h₁.after h₂).before (.of_log rfl)).congr (iff_true_intro rfl)
        have hline : World.Tried True w₃
            ({ w₃ with cache := Function.update w₃.cache (cacheIndex b) line }.unlock .ch) :=
          (World.Tried.of_log rfl).after (.unlock _ .ch)
        cases ok with
        | false => exact (hflush.after h₃).before hline
        | true => exact (hflush.after h₃).before hline
    . exact (h₁.before (.unlock w₁ .ch)).congr (iff_of_true trivial rfl)
  . exact readBlock_tried env b w

theorem readChBlkNull_tried {b : BlockNo} (h : readChBlkNull env b w = .ok w') : World.Tried False w w' := by
  rcases readChBlkNull_cases h with ⟨-, buf, hread⟩ | ⟨-, rfl⟩
  . have htried := readChBlk_tried env b (Buf.zero blockSize) w
    rw [hread] at htried
    exact htried.congr (by simp)
  . exact (World.Tried.emit w (.readBlock b false)).congr (by simp [Event.failed])

theorem writeChBlk_tried (env : Env) (b : BlockNo) (buf : Block) (w : World)
    : World.Tried ((writeChBlk env b buf w).1 = true) w (writeChBlk env b buf w).2 := by
  unfold writeChBlk
  split
  . have h₁ := World.Tried.lock w .ch
    simp only
    generalize w.lock .ch = w₁ at h₁ ⊢
    split
    . have h₂ := flushChBlk_tried env (cacheIndex b) w₁
      generalize flushChBlk env (cacheIndex b) w₁ = res at h₂ ⊢
      obtain ⟨ok, w₂⟩ := res
      cases ok with
      | false => exact (h₁.after h₂).before (.unlock w₂ .ch)
      | true => exact (h₁.after h₂).before ((World.Tried.of_log rfl).after (.unlock _ .ch))
    . have hline : World.Tried True w₁
          ({ w₁ with cache := Function.update w₁.cache (cacheIndex b) buf }.unlock .ch) :=
        (World.Tried.of_log rfl).after (.unlock _ .ch)
      exact (h₁.before hline).congr (iff_of_true trivial rfl)
  . exact writeBlock_tried env b buf w

theorem allocBlock.bits_tried (i : Fin blkBmpLn) (n j : Nat) (temp : BitVec 64) (w : World)
    : World.Tried True w (allocBlock.bits i n j temp w).2 := by
  induction n generalizing j temp w with
  | zero => exact .refl w
  | succ n ih =>
    simp only [allocBlock.bits]
    split
    . exact (World.Tried.lock w .blkBmp).after ((World.Tried.of_log rfl).after (.unlock _ .blkBmp))
    . exact (World.Tried.lock w .blkBmp).after ((World.Tried.unlock _ .blkBmp).after (ih _ _ _))

theorem allocBlock.words_tried (is : List (Fin blkBmpLn)) (w : World)
    : World.Tried True w (allocBlock.words is w).2 := by
  induction is generalizing w with
  | nil => exact (World.Tried.emit w .noSpace).congr (iff_true_intro rfl)
  | cons i is ih =>
    have h := allocBlock.bits_tried i 64 0 (w.blkBmp i) w
    simp only [allocBlock.words]
    generalize allocBlock.bits i 64 0 (w.blkBmp i) w = res at h
    obtain ⟨b, w'⟩ := res
    cases b with
    | none => exact h.after (ih w')
    | some b => exact h

theorem allocBlock_tried (w : World) : World.Tried True w (allocBlock w).2 :=
  allocBlock.words_tried _ w

theorem markObjDirty_tried (o : Slot) (w : World) : World.Tried True w (markObjDirty o w) :=
  (World.Tried.lock w .objBmp).after ((World.Tried.of_log rfl).after (.unlock _ .objBmp))

/-! The nested functions. -/

theorem updateBlock_tried {buf : Mem} {size : Nat} {p : BlockNo} {x : Xfer} {res : Int × BlockNo × Xfer × World}
    (h : updateBlock env buf size p x w = .ok res)
    : World.Tried (res.1 = 0) w res.2.2.2 := by
  obtain ⟨r, q, x', w'⟩ := res
  rcases updateBlock_cases h with ⟨hr, -, rfl⟩ | ⟨w₁, hplace, htransfers⟩
  . exact (World.Tried.refl w').congr (iff_of_true trivial hr)
  . have h₁ : World.Tried True w (if p = 0#32 then allocBlock w else (p, w)).2 := by
      split
      . exact allocBlock_tried w
      . exact .refl w
    rw [hplace] at h₁
    cases htransfers with
    | null hread => exact (h₁.after (readChBlkNull_tried hread)).congr (by simp)
    | unread temp hread =>
      have h₂ := readChBlk_tried env q temp w₁
      rw [hread] at h₂
      exact (h₁.after h₂).congr (by simp)
    | written new hwrite =>
      have h₂ := writeChBlk_tried env q new w₁
      rw [hwrite] at h₂
      exact (h₁.after h₂).congr (by simp)
    | updated temp new w₂ hread hwrite =>
      have h₂ := readChBlk_tried env q temp w₁
      rw [hread] at h₂
      have h₃ := writeChBlk_tried env q new w₂
      rw [hwrite] at h₃
      exact ((h₁.after h₂).trans h₃).congr (by simp)

theorem getBlockData_tried {b : BlockNo} {size : Nat} {x : Xfer} {buf : Mem}
    {res : Int × Xfer × Mem × World} (h : getBlockData env size b x buf w = .ok res)
    : World.Tried (res.1 = 0) w res.2.2.2 := by
  obtain ⟨r, x', buf', w'⟩ := res
  rcases getBlockData_cases h with ⟨rfl, rfl⟩ | ⟨w₁, hread, rfl, rfl⟩ | ⟨temp, temp', ok, w₁, hread, hcase⟩
  . exact (World.Tried.refl w').congr (iff_of_true trivial rfl)
  . exact ((readChBlkNull_tried hread).before (.unlock w₁ .rd)).congr (by simp)
  . have h₁ := readChBlk_tried env b temp w
    rw [hread] at h₁
    rcases hcase with ⟨rfl, rfl, rfl⟩ | ⟨rfl, rfl, rfl⟩
    . exact (h₁.before (.unlock w₁ .rd)).congr (by simp)
    . exact h₁.congr (by simp)

end ObjStore
