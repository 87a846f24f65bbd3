import CS330.ObjStore.Contents
import CS330.ObjStore.Failures
import CS330.ObjStore.Lemmas.Rules
import CS330.ObjStore.Lemmas.Tried

/-!
This module contains which failed transfers `objstore_write` and `objstore_read` report. What happens to a
pointer block reaches the caller; the results of `update_block` and `get_block_data` are dropped.
-/

namespace ObjStore

namespace objstoreWrite

variable (env : Env) (o : Slot) (buf : Mem) (size start : Nat)

-- `update_block` succeeds in the pass, if the pass calls it.
def direct.Succeeds (p : Fin 4 × Xfer × World) : Prop :=
  ¬ p.2.1.blocksDone < start → ∀ (res : Int × BlockNo × Xfer × World),
    updateBlock env buf size ((p.2.2.objects o).direct p.1) p.2.1 p.2.2 = .ok res → res.1 = 0

def entry.Succeeds (p : Fin 1024 × Xfer × World × Block) : Prop :=
  ¬ p.2.1.blocksDone < start → ∀ (res : Int × BlockNo × Xfer × World),
    updateBlock env buf size (ptrAt p.2.2.2 p.1) p.2.1 p.2.2.1 = .ok res → res.1 = 0

def indirect.Succeeds (p : Fin 4 × Xfer × World) : Prop :=
  ∀ (page blockBuf : Block) (w₁ w₂ : World), 0 < p.2.1.remaining → cmalloc env p.2.2 = (some page, w₁)
    → pointerBlock env o p.1 page w₁ = (true, blockBuf, w₂)
    → ∀ (q : Fin 1024 × Xfer × World × Block),
        q ∈ Loop.passes (entry env buf size start) (Loop.range 1024) (p.2.1, w₂, blockBuf)
        → entry.Succeeds env buf size start q

/-- No call of `update_block` returns -1. -/
def Succeeds (s : Xfer × World) : Prop :=
  (∀ (p : Fin 4 × Xfer × World), p ∈ Loop.passes (direct env o buf size start) (Loop.range 4) s
    → direct.Succeeds env o buf size start p)
  ∧ ∀ (u : Xfer × World), Loop.run (direct env o buf size start) (Loop.range 4) s = .ok (.next u)
    → ∀ (p : Fin 4 × Xfer × World), p ∈ Loop.passes (indirect env o buf size start) (Loop.range 4) u
      → indirect.Succeeds env o buf size start p

/-- Some pass for a pointer block returns -1. -/
def GivesUp (s : Xfer × World) : Prop :=
  ∃ (u : Xfer × World) (p : Fin 4 × Xfer × World) (v : Xfer × World),
    Loop.run (direct env o buf size start) (Loop.range 4) s = .ok (.next u)
    ∧ p ∈ Loop.passes (indirect env o buf size start) (Loop.range 4) u
    ∧ indirect env o buf size start p.1 p.2 = .ok (.ret (-1) v)

variable {env o buf size start}

theorem direct_tried {i : Fin 4} {s t : Xfer × World}
    (h : direct env o buf size start i s = .ok (.next t))
    : World.Tried (direct.Succeeds env o buf size start (i, s)) s.2 t.2 := by
  obtain ⟨x, w⟩ := s
  unfold direct at h
  unfold direct.Succeeds
  simp only at h ⊢
  split at h
  . next hlt =>
    cases h
    exact (World.Tried.refl w).congr (by simp [hlt])
  . next hlt =>
    cases heq : updateBlock env buf size ((w.objects o).direct i) x w with
    | error e =>
      rw [heq] at h
      cases h
    | ok res =>
      rw [heq] at h
      cases h
      exact ((updateBlock_tried heq).before (.of_log rfl)).congr (by simp [hlt])

theorem entry_tried {j : Fin 1024} {s t : Xfer × World × Block}
    (h : entry env buf size start j s = .ok (.next t))
    : World.Tried (entry.Succeeds env buf size start (j, s)) s.2.1 t.2.1 := by
  obtain ⟨x, w, blockBuf⟩ := s
  unfold entry at h
  unfold entry.Succeeds
  simp only at h ⊢
  split at h
  . next hlt =>
    cases h
    exact (World.Tried.refl w).congr (by simp [hlt])
  . next hlt =>
    cases heq : updateBlock env buf size (ptrAt blockBuf j) x w with
    | error e =>
      rw [heq] at h
      cases h
    | ok res =>
      rw [heq] at h
      cases h
      exact (updateBlock_tried heq).congr (by simp [hlt])

theorem pointerBlock_tried (env : Env) (o : Slot) (i : Fin 4) (blockBuf : Block) (w : World)
    : World.Tried ((pointerBlock env o i blockBuf w).1 = true) w (pointerBlock env o i blockBuf w).2.2 := by
  unfold pointerBlock
  split
  . exact ((allocBlock_tried w).before (.of_log rfl)).congr (by simp)
  . exact readChBlk_tried env _ blockBuf w

-- a pass falls through, apart from one for a pointer block, which may return -1
theorem direct_falls (i : Fin 4) (s : Xfer × World)
    : Loop.Falls (fun _ => True) (direct env o buf size start i s) :=
  direct_inv (I := fun _ => True) (fun _ _ _ _ => trivial) (fun _ _ _ _ _ => trivial) (fun _ _ _ _ => trivial)
    (fun _ _ => trivial) (fun _ _ _ _ => trivial) buf size start i s trivial

theorem entry_falls (j : Fin 1024) (s : Xfer × World × Block)
    : Loop.Falls (fun _ => True) (entry env buf size start j s) :=
  entry_inv (I := fun _ => True) (fun _ _ _ _ => trivial) (fun _ _ _ _ _ => trivial) (fun _ _ _ _ => trivial)
    (fun _ _ => trivial) buf size start j s trivial

theorem indirect_exits (i : Fin 4) (s : Xfer × World)
    : Loop.Exits (fun _ => True) (fun r _ => r = -1 ∧ True) (indirect env o buf size start i s) :=
  indirect_inv (I := fun _ => True) (fun _ _ => trivial) (fun _ _ _ _ => trivial) (fun _ _ _ _ _ => trivial)
    (fun _ _ _ _ => trivial) (fun _ _ => trivial) (fun _ _ _ _ => trivial) buf size start i s trivial

theorem entries_tried {s t : Xfer × World × Block}
    (h : Loop.run (entry env buf size start) (Loop.range 1024) s = .ok (.next t))
    : World.Tried
        (∀ (q : Fin 1024 × Xfer × World × Block),
          q ∈ Loop.passes (entry env buf size start) (Loop.range 1024) s
          → entry.Succeeds env buf size start q) s.2.1 t.2.1 := by
  apply Loop.run_passes (R := fun P s t => World.Tried P s.2.1 t.2.1) (fun s => .refl s.2.1)
    (fun _ _ _ _ _ h1 h2 => h1.trans h2) (fun _ _ _ h => entry_tried h) ?_ _ s t h
  intro j s t hstop
  exact absurd hstop ((entry_falls j s).ne_stop t)

theorem directs_tried {s t : Xfer × World}
    (h : Loop.run (direct env o buf size start) (Loop.range 4) s = .ok (.next t))
    : World.Tried
        (∀ (p : Fin 4 × Xfer × World), p ∈ Loop.passes (direct env o buf size start) (Loop.range 4) s
          → direct.Succeeds env o buf size start p) s.2 t.2 := by
  apply Loop.run_passes (R := fun P s t => World.Tried P s.2 t.2) (fun s => .refl s.2)
    (fun _ _ _ _ _ h1 h2 => h1.trans h2) (fun _ _ _ h => direct_tried h) ?_ _ s t h
  intro i s t hstop
  exact absurd hstop ((direct_falls i s).ne_stop t)

theorem indirect_tried {i : Fin 4} {s t : Xfer × World}
    (h : indirect env o buf size start i s = .ok (.next t))
    : World.Tried (indirect.Succeeds env o buf size start (i, s)) s.2 t.2 := by
  obtain ⟨x, w⟩ := s
  unfold indirect.Succeeds
  simp only
  generalize hflow : Loop.Flow.next t = flow at h
  have hpass := indirect_pass h
  cases hpass with
  | idle hrem =>
    cases hflow
    exact (World.Tried.refl w).congr (by simp [hrem])
  | noPage hrem w₁ hpage => cases hflow
  | noBlock hrem page blockBuf w₁ w₂ hpage hblock => cases hflow
  | through hrem page blockBuf blockBuf' w₁ w₂ w₃ w₄ x' ok hpage hblock hrun hwrite =>
    cases ok with
    | false => cases hflow
    | true =>
      cases hflow
      have h₁ := cmalloc_tried env w
      rw [hpage] at h₁
      have h₂ := pointerBlock_tried env o i page w₁
      rw [hblock] at h₂
      have h₃ := entries_tried hrun
      have h₄ := writeChBlk_tried env ((w₃.objects o).indirect i) blockBuf' w₃
      rw [hwrite] at h₄
      have hall := ((h₁.after (h₂.congr (by simp))).after h₃).before (h₄.congr (by simp))
      refine hall.congr ⟨?_, ?_⟩
      . intro hq page' blockBuf'' w₁' w₂' _ hpage' hblock'
        rw [hpage] at hpage'
        cases hpage'
        rw [hblock] at hblock'
        cases hblock'
        exact hq
      . intro hq
        exact hq page blockBuf w₁ w₂ hrem hpage hblock

theorem indirects_tried {s t : Xfer × World}
    (h : Loop.run (indirect env o buf size start) (Loop.range 4) s = .ok (.next t))
    : World.Tried
        (∀ (p : Fin 4 × Xfer × World), p ∈ Loop.passes (indirect env o buf size start) (Loop.range 4) s
          → indirect.Succeeds env o buf size start p) s.2 t.2 := by
  apply Loop.run_passes (R := fun P s t => World.Tried P s.2 t.2) (fun s => .refl s.2)
    (fun _ _ _ _ _ h1 h2 => h1.trans h2) (fun _ _ _ h => indirect_tried h) ?_ _ s t h
  intro i s t hstop
  exact absurd hstop ((indirect_exits i s).ne_stop t)

end objstoreWrite

/-- All transfers between the two worlds were successful. -/
def World.Transferred (w w' : World) : Prop :=
  ∀ (e : Event), e ∈ w.since w' → e.failed = false

variable {env : Env} {w w' : World}

theorem objstoreWrite_reports_iff {o : Slot} {buf : Mem} {size offset : Nat} {r : Int}
    (hsize : size ≤ maxSize) (h : objstoreWrite env o.id buf size offset w = .ok (r, w'))
    : (0 ≤ r → w.Transferred w')
        ↔ (objstoreWrite.GivesUp env o buf size (startBlock offset)
              (Xfer.start size offset (cmalloc env w).1, (cmalloc env w).2)
            ∨ objstoreWrite.Succeeds env o buf size (startBlock offset)
              (Xfer.start size offset (cmalloc env w).1, (cmalloc env w).2)) := by
  have hmalloc := cmalloc_tried env w
  obtain ⟨u, v, hrun₁, hends⟩ := objstoreWrite_loops hsize h
  generalize cmalloc env w = res at hmalloc hrun₁ ⊢
  obtain ⟨temp, w₁⟩ := res
  simp only at hmalloc hrun₁ ⊢
  have h₁ := hmalloc.after (objstoreWrite.directs_tried hrun₁)
  rcases hends with ⟨hrun₂, -⟩ | ⟨hrun₂, hr', hw'⟩
  . obtain ⟨p, hp, hret⟩ := Loop.exists_pass_of_ret _ _ hrun₂
    have hexit : Loop.Exits (fun _ => True) (fun r _ => r = -1 ∧ True)
        (objstoreWrite.indirect env o buf size (startBlock offset) p.1 p.2) :=
      objstoreWrite.indirect_exits p.1 p.2
    rw [hret] at hexit
    have hr' := hexit.1
    subst hr'
    refine iff_of_true ?_ (Or.inl ⟨u, p, _, hrun₁, hp, hret⟩)
    intro h0
    omega
  . have h₂ := h₁.trans (objstoreWrite.indirects_tried hrun₂)
    have hall := (h₂.before (.of_log rfl)).before (markObjDirty_tried o
      (v.2.setObj o { v.2.objects o with size := BitVec.ofNat 64 (offset + size) }))
    rw [← hw'] at hall
    have hnot : ¬ objstoreWrite.GivesUp env o buf size (startBlock offset)
        (Xfer.start size offset temp, w₁) := by
      rintro ⟨u', p, v', hrun', hp, hret⟩
      rw [hrun₁] at hrun'
      cases hrun'
      rw [Loop.run_of_ret hret _ _ hp] at hrun₂
      cases hrun₂
    have hsucc : objstoreWrite.Succeeds env o buf size (startBlock offset)
        (Xfer.start size offset temp, w₁) ↔ w.Transferred w' := by
      unfold objstoreWrite.Succeeds
      simp only [hrun₁, Except.ok.injEq, Loop.Flow.next.injEq, forall_eq']
      exact hall.since_iff
    rw [or_iff_right hnot, hsucc, hr']
    exact forall_prop_of_true (Int.natCast_nonneg size)

/-! The same for a read, which may also leave its loops at a null pointer. -/

namespace objstoreRead

variable (env : Env) (o : Slot) (size start : Nat)

def direct.Succeeds (p : Fin 4 × Xfer × Mem × World) : Prop :=
  ¬ p.2.1.blocksDone < start → (p.2.2.2.objects o).direct p.1 ≠ 0#32
    → ∀ (res : Int × Xfer × Mem × World),
      getBlockData env size ((p.2.2.2.objects o).direct p.1) p.2.1 p.2.2.1 p.2.2.2 = .ok res → res.1 = 0

def entry.Succeeds (blockData : Block) (p : Fin 1024 × Xfer × Mem × World) : Prop :=
  ¬ p.2.1.blocksDone < start → ptrAt blockData p.1 ≠ 0#32
    → ∀ (res : Int × Xfer × Mem × World),
      getBlockData env size (ptrAt blockData p.1) p.2.1 p.2.2.1 p.2.2.2 = .ok res → res.1 = 0

def indirect.Succeeds (p : Fin 4 × Xfer × Mem × World) : Prop :=
  ∀ (page blockData : Block) (w₁ w₂ : World),
    (p.2.2.2.objects o).indirect p.1 ≠ 0#32 ∧ 0 < p.2.1.remaining
    → cmalloc env p.2.2.2 = (some page, w₁)
    → readChBlk env ((w₁.objects o).indirect p.1) page w₁ = (true, blockData, w₂)
    → ∀ (q : Fin 1024 × Xfer × Mem × World),
        q ∈ Loop.passes (entry env size start blockData) (Loop.range 1024) (p.2.1, p.2.2.1, w₂)
        → entry.Succeeds env size start blockData q

/-- No call of `get_block_data` returns -1. -/
def Succeeds (s : Xfer × Mem × World) : Prop :=
  (∀ (p : Fin 4 × Xfer × Mem × World), p ∈ Loop.passes (direct env o size start) (Loop.range 4) s
    → direct.Succeeds env o size start p)
  ∧ ∀ (u : Xfer × Mem × World), Loop.run (direct env o size start) (Loop.range 4) s = .ok (.next u)
    → ∀ (p : Fin 4 × Xfer × Mem × World), p ∈ Loop.passes (indirect env o size start) (Loop.range 4) u
      → indirect.Succeeds env o size start p

/-- Some pass for a pointer block returns -1. -/
def GivesUp (s : Xfer × Mem × World) : Prop :=
  ∃ (u : Xfer × Mem × World) (p : Fin 4 × Xfer × Mem × World) (v : Xfer × Mem × World),
    Loop.run (direct env o size start) (Loop.range 4) s = .ok (.next u)
    ∧ p ∈ Loop.passes (indirect env o size start) (Loop.range 4) u
    ∧ indirect env o size start p.1 p.2 = .ok (.ret (-1) v)

variable {env o size start}

-- a pass that does not return, whether it is the last one or not
def Goes (x : Except Fault (Loop.Flow Int (Xfer × Mem × World))) (t : Xfer × Mem × World) : Prop :=
  x = .ok (.next t) ∨ x = .ok (.stop t)

theorem goes_next (s t : Xfer × Mem × World) : Goes (.ok (.next s)) t ↔ s = t := by
  simp [Goes]

theorem goes_stop (s t : Xfer × Mem × World) : Goes (.ok (.stop s)) t ↔ s = t := by
  simp [Goes]

theorem not_goes_error (e : Fault) (t : Xfer × Mem × World) : ¬ Goes (.error e) t := by
  simp [Goes]

theorem not_goes_ret (r : Int) (s t : Xfer × Mem × World) : ¬ Goes (.ok (.ret r s)) t := by
  simp [Goes]

end objstoreRead

/--
What is known of a part of a read, which is `P` in case that no call of `get_block_data` in it has returned
-1.
-/
structure Graded (env : Env) (R : Prop → World → World → Prop) : Prop where
  refl : ∀ (w : World), R True w w
  trans : ∀ (P Q : Prop) (w w' w'' : World), R P w w' → R Q w' w'' → R (P ∧ Q) w w''
  cmalloc : ∀ (w : World), R True w (cmalloc env w).2
  read : ∀ (b : BlockNo) (buf blk : Block) (w w' : World), readChBlk env b buf w = (true, blk, w') → R True w w'
  get : ∀ (b : BlockNo) (size : Nat) (x : Xfer) (buf : Mem) (w : World) (res : Int × Xfer × Mem × World),
    getBlockData env size b x buf w = .ok res → R (res.1 = 0) w res.2.2.2

namespace Graded

open objstoreRead

variable {R : Prop → World → World → Prop} {P Q : Prop} {o : Slot} {size start : Nat}

theorem congr (h : R P w w') (hPQ : P ↔ Q) : R Q w w' := by
  rw [← propext hPQ]
  exact h

-- One pass over a place that holds `p`, a direct pointer or an entry of a pointer block.
theorem place (hR : Graded env R) {p : BlockNo} {x : Xfer} {buf : Mem} {t : Xfer × Mem × World}
    (h : Goes
      (if x.blocksDone < start then
        return .next ({ x with blocksDone := x.blocksDone + 1 }, buf, w)
      else if p ≠ 0#32 then do
        let (_, x, buf, w) ← getBlockData env size p x buf w
        return .next (x, buf, w)
      else
        return .stop (x, buf, w)) t)
    : R (¬ x.blocksDone < start → p ≠ 0#32
        → ∀ (res : Int × Xfer × Mem × World), getBlockData env size p x buf w = .ok res → res.1 = 0) w t.2.2 := by
  split at h
  . next hlt =>
    cases (goes_next _ _).mp h
    exact congr (hR.refl w) (by simp [hlt])
  . next hlt =>
    split at h
    . next hne =>
      cases heq : getBlockData env size p x buf w with
      | error e =>
        rw [heq] at h
        exact absurd h (not_goes_error e t)
      | ok res =>
        rw [heq] at h
        cases (goes_next _ _).mp h
        exact congr (hR.get _ _ _ _ _ _ heq) (by simp [hlt, hne])
    . next hnull =>
      cases (goes_stop _ _).mp h
      exact congr (hR.refl w) (by simp [hnull])

theorem direct (hR : Graded env R) {i : Fin 4} {s t : Xfer × Mem × World}
    (h : Goes (objstoreRead.direct env o size start i s) t)
    : R (direct.Succeeds env o size start (i, s)) s.2.2 t.2.2 :=
  hR.place h

theorem entry (hR : Graded env R) {blockData : Block} {j : Fin 1024} {s t : Xfer × Mem × World}
    (h : Goes (objstoreRead.entry env size start blockData j s) t)
    : R (entry.Succeeds env size start blockData (j, s)) s.2.2 t.2.2 :=
  hR.place h

theorem entries (hR : Graded env R) {blockData : Block} {s t : Xfer × Mem × World}
    (h : Loop.run (objstoreRead.entry env size start blockData) (Loop.range 1024) s = .ok (.next t))
    : R (∀ (q : Fin 1024 × Xfer × Mem × World),
          q ∈ Loop.passes (objstoreRead.entry env size start blockData) (Loop.range 1024) s
          → entry.Succeeds env size start blockData q) s.2.2 t.2.2 :=
  Loop.run_passes (R := fun P s t => R P s.2.2 t.2.2) (fun s => hR.refl s.2.2)
    (fun P Q s t u h1 h2 => hR.trans P Q s.2.2 t.2.2 u.2.2 h1 h2) (fun _ _ _ h => hR.entry (Or.inl h))
    (fun _ _ _ h => hR.entry (Or.inr h)) _ s t h

theorem directs (hR : Graded env R) {s t : Xfer × Mem × World}
    (h : Loop.run (objstoreRead.direct env o size start) (Loop.range 4) s = .ok (.next t))
    : R (∀ (p : Fin 4 × Xfer × Mem × World),
          p ∈ Loop.passes (objstoreRead.direct env o size start) (Loop.range 4) s
          → direct.Succeeds env o size start p) s.2.2 t.2.2 :=
  Loop.run_passes (R := fun P s t => R P s.2.2 t.2.2) (fun s => hR.refl s.2.2)
    (fun P Q s t u h1 h2 => hR.trans P Q s.2.2 t.2.2 u.2.2 h1 h2) (fun _ _ _ h => hR.direct (Or.inl h))
    (fun _ _ _ h => hR.direct (Or.inr h)) _ s t h

theorem indirect (hR : Graded env R) {i : Fin 4} {s t : Xfer × Mem × World}
    (h : Goes (objstoreRead.indirect env o size start i s) t)
    : R (indirect.Succeeds env o size start (i, s)) s.2.2 t.2.2 := by
  obtain ⟨x, buf, w⟩ := s
  unfold indirect.Succeeds
  simp only
  cases hflow : objstoreRead.indirect env o size start i (x, buf, w) with
  | error e =>
    rw [hflow] at h
    exact absurd h (not_goes_error e t)
  | ok flow =>
    rw [hflow] at h
    cases indirect_pass hflow with
    | leaves hstop =>
      cases (goes_stop _ _).mp h
      exact congr (hR.refl w) (iff_of_true trivial (fun _ _ _ _ hgo => absurd hgo hstop))
    | noPage hgo w₁ hpage => exact absurd h (not_goes_ret _ _ t)
    | unread hgo page blockData w₁ w₂ hpage hread => exact absurd h (not_goes_ret _ _ t)
    | through hgo page blockData w₁ w₂ u hpage hread hrun =>
      cases (goes_next _ _).mp h
      have h₁ := hR.cmalloc w
      rw [hpage] at h₁
      have h₂ := hR.trans _ _ _ _ _ h₁ (hR.read _ _ _ _ _ hread)
      refine congr (hR.trans _ _ _ _ _ h₂ (hR.entries hrun)) ⟨?_, ?_⟩
      . rintro ⟨-, hq⟩ page' blockData' w₁' w₂' _ hpage' hread'
        rw [hpage] at hpage'
        cases hpage'
        rw [hread] at hread'
        cases hread'
        exact hq
      . intro hq
        exact ⟨⟨trivial, trivial⟩, hq page blockData w₁ w₂ hgo hpage hread⟩

theorem indirects (hR : Graded env R) {s t : Xfer × Mem × World}
    (h : Loop.run (objstoreRead.indirect env o size start) (Loop.range 4) s = .ok (.next t))
    : R (∀ (p : Fin 4 × Xfer × Mem × World),
          p ∈ Loop.passes (objstoreRead.indirect env o size start) (Loop.range 4) s
          → indirect.Succeeds env o size start p) s.2.2 t.2.2 :=
  Loop.run_passes (R := fun P s t => R P s.2.2 t.2.2) (fun s => hR.refl s.2.2)
    (fun P Q s t u h1 h2 => hR.trans P Q s.2.2 t.2.2 u.2.2 h1 h2) (fun _ _ _ h => hR.indirect (Or.inl h))
    (fun _ _ _ h => hR.indirect (Or.inr h)) _ s t h

end Graded

theorem World.Tried.graded (env : Env) : Graded env World.Tried where
  refl := .refl
  trans := fun _ _ _ _ _ h h' => h.trans h'
  cmalloc := cmalloc_tried env
  read := by
    intro b buf blk w w' heq
    have h := readChBlk_tried env b buf w
    rw [heq] at h
    exact h.congr (by simp)
  get := fun _ _ _ _ _ _ heq => getBlockData_tried heq

namespace objstoreRead

variable {o : Slot} {size start : Nat}

theorem indirect_ret {i : Fin 4} {s v : Xfer × Mem × World} {r : Int}
    (h : indirect env o size start i s = .ok (.ret r v))
    : r = -1 := by
  obtain ⟨x, buf, w⟩ := s
  cases indirect_pass h with
  | noPage hgo w₁ hpage => rfl
  | unread hgo page blockData w₁ w₂ hpage hread => rfl

end objstoreRead

theorem objstoreRead_reports_iff {o : Slot} {buf buf' : Mem} {size offset : Nat} {r : Int}
    (hsize : size ≤ maxSize) (h : objstoreRead env o.id buf size offset w = .ok (r, buf', w'))
    : (0 ≤ r → w.Transferred w')
        ↔ (objstoreRead.GivesUp env o size (startBlock offset)
              (Xfer.start size offset (cmalloc env (w.lock .rd)).1, buf, (cmalloc env (w.lock .rd)).2)
            ∨ objstoreRead.Succeeds env o size (startBlock offset)
              (Xfer.start size offset (cmalloc env (w.lock .rd)).1, buf, (cmalloc env (w.lock .rd)).2)) := by
  have hmalloc := (World.Tried.lock w .rd).after (cmalloc_tried env (w.lock .rd))
  obtain ⟨u, v, hrun₁, hcase⟩ := objstoreRead_loops hsize h
  generalize cmalloc env (w.lock .rd) = res at hmalloc hrun₁ ⊢
  obtain ⟨temp, w₁⟩ := res
  simp only at hmalloc hrun₁ ⊢
  have h₁ := hmalloc.after ((World.Tried.graded env).directs hrun₁)
  rcases hcase with ⟨hrun₂, -⟩ | ⟨hrun₂, hr', hw'⟩
  . obtain ⟨p, hp, hret⟩ := Loop.exists_pass_of_ret _ _ hrun₂
    have hr' := objstoreRead.indirect_ret hret
    subst hr'
    refine iff_of_true ?_ (Or.inl ⟨u, p, _, hrun₁, hp, hret⟩)
    intro h0
    omega
  . have h₂ := h₁.trans ((World.Tried.graded env).indirects hrun₂)
    have hall := h₂.before (.unlock v.2.2 .rd)
    rw [← hw'] at hall
    have hnot : ¬ objstoreRead.GivesUp env o size (startBlock offset)
        (Xfer.start size offset temp, buf, w₁) := by
      rintro ⟨u', p, v', hrun', hp, hret⟩
      rw [hrun₁] at hrun'
      cases hrun'
      rw [Loop.run_of_ret hret _ _ hp] at hrun₂
      cases hrun₂
    have hsucc : objstoreRead.Succeeds env o size (startBlock offset)
        (Xfer.start size offset temp, buf, w₁) ↔ w.Transferred w' := by
      unfold objstoreRead.Succeeds
      simp only [hrun₁, Except.ok.injEq, Loop.Flow.next.injEq, forall_eq']
      exact hall.since_iff
    rw [or_iff_right hnot, hsucc, hr']
    exact forall_prop_of_true (Int.natCast_nonneg size)

/-- The transfers that fail, if any, are reported: the call is refused, gives up or loses none. -/
def objstoreWrite.Reports (env : Env) (w : World) (objid : Int) (buf : Mem) (size offset : Nat) : Prop :=
  objid < 2 ∨ maxSize < size ∨ ∃ (o : Slot), objid = o.id
    ∧ (GivesUp env o buf size (startBlock offset) (Xfer.start size offset (cmalloc env w).1, (cmalloc env w).2)
      ∨ Succeeds env o buf size (startBlock offset)
        (Xfer.start size offset (cmalloc env w).1, (cmalloc env w).2))

def objstoreRead.Reports (env : Env) (w : World) (objid : Int) (buf : Mem) (size offset : Nat) : Prop :=
  objid < 2 ∨ maxSize < size ∨ ∃ (o : Slot), objid = o.id
    ∧ (GivesUp env o size (startBlock offset)
        (Xfer.start size offset (cmalloc env (w.lock .rd)).1, buf, (cmalloc env (w.lock .rd)).2)
      ∨ Succeeds env o size (startBlock offset)
        (Xfer.start size offset (cmalloc env (w.lock .rd)).1, buf, (cmalloc env (w.lock .rd)).2))

theorem exists_reports_slot {P : Slot → Prop} {o : Slot}
    : (∃ (o' : Slot), o.id = o'.id ∧ P o') ↔ P o := by
  constructor
  . rintro ⟨o', hid, h⟩
    rw [Slot.id_inj hid]
    exact h
  . intro h
    exact ⟨o, rfl, h⟩

/--
For every pattern of failures: a call that returns no error has had all of its transfers succeed exactly
when it was refused, gave up at a pointer block, or had `update_block` and `get_block_data` succeed
throughout.
-/
theorem transfers_reported_iff (env : Env) (w : World) (objid : Int) (buf : Mem) (size offset : Nat)
    : (∀ (r : Int) (w' : World), objstoreWrite env objid buf size offset w = .ok (r, w')
        → ((0 ≤ r → w.Transferred w') ↔ objstoreWrite.Reports env w objid buf size offset))
      ∧ ∀ (r : Int) (buf' : Mem) (w' : World), objstoreRead env objid buf size offset w = .ok (r, buf', w')
        → ((0 ≤ r → w.Transferred w') ↔ objstoreRead.Reports env w objid buf size offset) := by
  unfold objstoreWrite.Reports objstoreRead.Reports
  have hneg : ∀ (w' : World), (0 : Int) ≤ -1 → w.Transferred w' := by
    intro w' h0
    omega
  refine ⟨?_, ?_⟩
  . intro r w' h
    rcases objstoreWrite_slot h with ⟨rfl, rfl, hout⟩ | ⟨o, rfl, hsize⟩
    . exact iff_of_true (hneg _) (hout.imp_right .inl)
    . rw [or_iff_right o.id_ge, or_iff_right (by omega), exists_reports_slot]
      exact objstoreWrite_reports_iff hsize h
  . intro r buf' w' h
    rcases objstoreRead_slot h with ⟨rfl, rfl, hout⟩ | ⟨o, rfl, hsize⟩
    . exact iff_of_true (hneg _) (hout.imp_right .inl)
    . rw [or_iff_right o.id_ge, or_iff_right (by omega), exists_reports_slot]
      exact objstoreRead_reports_iff hsize h

theorem transfers_reported_iff_started
    : ∃ (w : World) (o : Slot) (w' : World), w.Started (steady true) o
        ∧ objstoreWrite (steady true) o.id (fun _ => 1#8) 100 0 w = .ok (100, w')
        ∧ ((0 ≤ (100 : Int) → w.Transferred w')
          ↔ objstoreWrite.Reports (steady true) w o.id (fun _ => 1#8) 100 0) := by
  obtain ⟨w, o, hstarted⟩ := exists_started true
  obtain ⟨w', hwrite, -⟩ := hstarted.write (fun _ => 1#8) 100 (by decide) (by decide)
  exact ⟨w, o, w', hstarted, hwrite, (transfers_reported_iff _ _ _ _ _ _).1 _ _ hwrite⟩

/-! The object of the planted store, read while one transfer fails. -/

theorem readBlock_fails {b : BlockNo} (h : env.fails w.log.length = true)
    : readBlock env b w = (false, env.junk w.log.length, w.emit (.readBlock b false)) := by
  unfold readBlock
  rw [if_pos h]

theorem readBlock_works {b : BlockNo} (h : env.fails w.log.length = false)
    : readBlock env b w = (true, w.disk b, w.emit (.readBlock b true)) := by
  unfold readBlock
  rw [h]
  rfl

theorem cmalloc_works (h : env.fails w.log.length = false)
    : cmalloc env w = (some (Buf.zero blockSize), w.emit (.cmalloc true)) := by
  unfold cmalloc
  rw [h]
  rfl

theorem exists_failed_read
    : ∃ (env : Env) (disk : BlockNo → Block) (w w' : World) (buf' : Mem), (diskView disk).Own
        ∧ objstoreInit (steady false) (World.ofDisk disk) = .ok (0, w) ∧ w.Live 2
        ∧ objstoreRead env 2 (fun _ => 0#8) 1 0 w = .ok (1, buf', w')
        ∧ w'.log = [.unlock .rd, .readBlock 20257#32 true, .cmalloc true, .unlock .rd, .readBlock 20256#32 false,
          .cmalloc true, .lock .rd] ++ w.log := by
  obtain ⟨disk, w, hown, hinit, hobj, -, -, hblank, -⟩ := exists_planted (Or.inr (Eq.refl 20256#32))
  have hdirect : ∀ (i : Fin 4), (w.objects 0).direct i = if i = 0 then 20256#32 else 0#32 := by
    intro i
    rw [hobj, planted_direct]
  have hindirect : ∀ (i : Fin 4), (w.objects 0).indirect i = if i = 0 then 20257#32 else 0#32 := by
    intro i
    rw [hobj, planted_indirect]
  let env := failsOnce (w.log.length + 2)
  let w₁ : World := (w.lock .rd).emit (.cmalloc true)
  let w₂ : World := (w₁.emit (.readBlock 20256#32 false)).unlock .rd
  let x : Xfer := Xfer.start 1 0 (some (Buf.zero blockSize))
  let w₃ : World := (w₂.emit (.cmalloc true)).emit (.readBlock 20257#32 true)
  have hlen₁ : w₁.log.length = w.log.length + 2 := rfl
  have hlen₂ : w₂.log.length = w.log.length + 4 := rfl
  have hworks : ∀ (n : Nat), n ≠ w.log.length + 2 → env.fails n = false := by
    intro n hn
    simp [env, failsOnce, hn]
  have hread : ∀ (b : BlockNo) (buf : Block) (u : World), readChBlk env b buf u = readBlock env b u :=
    fun _ _ _ => rfl
  have hpage : cmalloc env (w.lock .rd) = (some (Buf.zero blockSize), w₁) := by
    apply cmalloc_works
    apply hworks
    simp [World.lock, World.emit]
  have hblock : getBlockData env 1 20256#32 x (fun _ => 0#8) w₁ = .ok (-1, x, (fun _ => 0#8), w₂) := by
    have hfail : env.fails w₁.log.length = true := by simp [env, failsOnce, hlen₁]
    unfold getBlockData
    simp only [x, Xfer.start, hread, readBlock_fails hfail]
    rfl
  have hrange : Loop.range 4 = [0, 1, 2, 3] := rfl
  have hdirects : Loop.run (objstoreRead.direct env 0 1 0) (Loop.range 4) (x, (fun _ => 0#8), w₁)
      = .ok (.next (x, (fun _ => 0#8), w₂)) := by
    have hfirst : objstoreRead.direct env 0 1 0 0 (x, (fun _ => 0#8), w₁)
        = .ok (.next (x, (fun _ => 0#8), w₂)) := by
      have hptr : (w₁.objects 0).direct 0 = 20256#32 := hdirect 0
      simp only [objstoreRead.direct, hptr, hblock, bind, Except.bind]
      rfl
    have hsecond : objstoreRead.direct env 0 1 0 1 (x, (fun _ => 0#8), w₂)
        = .ok (.stop (x, (fun _ => 0#8), w₂)) := by
      have hptr : (w₂.objects 0).direct 1 = 0#32 := hdirect 1
      simp only [objstoreRead.direct, hptr]
      rfl
    rw [hrange, Loop.run_cons, hfirst]
    simp only
    rw [Loop.run_cons, hsecond]
  -- the pointer block holds no pointers
  have hindirects : Loop.run (objstoreRead.indirect env 0 1 0) (Loop.range 4) (x, (fun _ => 0#8), w₂)
      = .ok (.next (x, (fun _ => 0#8), w₃)) := by
    have hfirst : objstoreRead.indirect env 0 1 0 0 (x, (fun _ => 0#8), w₂)
        = .ok (.next (x, (fun _ => 0#8), w₃)) := by
      have hptr : ∀ (e : Event), ((w₂.emit e).objects 0).indirect 0 = 20257#32 := fun _ => hindirect 0
      have hptr₂ : (w₂.objects 0).indirect 0 = 20257#32 := hindirect 0
      have hpage₂ : cmalloc env w₂ = (some (Buf.zero blockSize), w₂.emit (.cmalloc true)) :=
        cmalloc_works (hworks _ (by omega))
      have hlen : (w₂.emit (.cmalloc true)).log.length = w.log.length + 5 := rfl
      have hblank₂ : (w₂.emit (.cmalloc true)).disk 20257#32 = Buf.zero blockSize := hblank
      have hread₂ : readBlock env 20257#32 (w₂.emit (.cmalloc true)) = (true, Buf.zero blockSize, w₃) := by
        rw [readBlock_works (hworks _ (by omega)), hblank₂]
      have hentry : ∀ (j : Fin 1024), objstoreRead.entry env 1 0 (Buf.zero blockSize) j
          (x, (fun _ => 0#8), w₃) = .ok (.stop (x, (fun _ => 0#8), w₃)) := by
        intro j
        simp only [objstoreRead.entry, ptrAt_zero]
        rfl
      have hhead := Loop.drop_range (n := 1024) 0 (by decide)
      rw [List.drop_zero] at hhead
      simp only [objstoreRead.indirect, hptr₂, hpage₂, hptr, hread, hread₂]
      rw [if_pos ⟨by decide, by decide⟩, hhead, Loop.run_cons, hentry]
    have hsecond : objstoreRead.indirect env 0 1 0 1 (x, (fun _ => 0#8), w₃)
        = .ok (.stop (x, (fun _ => 0#8), w₃)) := by
      have hptr : (w₃.objects 0).indirect 1 = 0#32 := hindirect 1
      simp only [objstoreRead.indirect, hptr]
      rfl
    rw [hrange, Loop.run_cons, hfirst]
    simp only
    rw [Loop.run_cons, hsecond]
  refine ⟨env, disk, w, w₃.unlock .rd, Mem.copy (fun _ => 0#8) 0 (fun _ => 0#8) 1, hown, hinit, ?_, ?_, rfl⟩
  . refine ⟨0, rfl, ?_⟩
    rw [hobj]
    exact planted_size _
  . have hstart : startBlock 0 = 0 := rfl
    have hslot : (⟨((2 : Int) - 2).toNat, by decide⟩ : Slot) = 0 := rfl
    unfold objstoreRead
    rw [if_neg (by decide), if_neg (by decide), dif_pos (by decide), hslot]
    simp only [hpage, hstart]
    have hrun₁ : Loop.run (objstoreRead.direct env 0 1 0) (Loop.range 4)
        (Xfer.start 1 0 (some (Buf.zero blockSize)), (fun _ => 0#8), w₁)
        = .ok (.next (x, (fun _ => 0#8), w₂)) := hdirects
    simp only [hrun₁, hindirects, bind, Except.bind]
    rfl

theorem not_transferred_planted
    : ∃ (env : Env) (disk : BlockNo → Block) (w w' : World) (buf' : Mem), (diskView disk).Own
        ∧ objstoreInit (steady false) (World.ofDisk disk) = .ok (0, w) ∧ w.Live 2
        ∧ objstoreRead env 2 (fun _ => 0#8) 1 0 w = .ok (1, buf', w') ∧ ¬ w.Transferred w' := by
  obtain ⟨env, disk, w, w', buf', hown, hinit, hlive, hread, hlog⟩ := exists_failed_read
  refine ⟨env, disk, w, w', buf', hown, hinit, hlive, hread, ?_⟩
  intro hall
  unfold World.Transferred at hall
  rw [World.since_eq hlog] at hall
  have := hall (.readBlock 20256#32 false) (by simp)
  exact absurd this (by decide)

end ObjStore
