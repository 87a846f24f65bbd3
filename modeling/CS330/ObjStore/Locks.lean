import CS330.Lib.Locking
import CS330.ObjStore.Reports

/-!
This module contains how the calls use their mutexes. All of them lock and unlock in pairs, except that
`get_block_data` gives `rd_lock` back when it fails and its callers, which go on, do so once more.
-/

namespace ObjStore

open Locking

def Event.turns (m : Mutex) : Turns Event
  | .lock m' => if m' = m then some true else none
  | .unlock m' => if m' = m then some false else none
  | _ => none

/-- Between the two worlds each mutex was locked while free, unlocked while held, and none is held in the end. -/
def World.Disciplined (w w' : World) : Prop :=
  ∀ (m : Mutex), Locking.Disciplined (Event.turns m) (w.since w')

-- no mutex was used
def World.Silent (w w' : World) : Prop :=
  ∃ (es : List Event), w'.log = es ++ w.log ∧ ∀ (m : Mutex), Unused (Event.turns m) es

/-- All mutexes but `rd_lock` were used in pairs. That one was not used if `P`, and else it is not held any more. -/
def World.Lent (P : Prop) (w w' : World) : Prop :=
  ∃ (es : List Event), w'.log = es ++ w.log
    ∧ (∀ (m : Mutex), m ≠ .rd → Locking.Disciplined (Event.turns m) es)
    ∧ (P → Unused (Event.turns .rd) es) ∧ (¬ P → Lost (Event.turns .rd) es)

variable {env : Env} {w w' w'' : World} {P Q : Prop} {m : Mutex}

namespace World.Silent

theorem of_log (h : w'.log = w.log) : w.Silent w' :=
  ⟨[], h, fun _ => .nil⟩

theorem trans (h : w.Silent w') (h' : w'.Silent w'') : w.Silent w'' := by
  obtain ⟨es, heq, hes⟩ := h
  obtain ⟨es', heq', hes'⟩ := h'
  refine ⟨es' ++ es, by rw [heq', heq, List.append_assoc], ?_⟩
  intro m
  exact (hes' m).append (hes m)

theorem emit {e : Event} (w : World) (he : ∀ (m : Mutex), e.turns m = none) : w.Silent (w.emit e) :=
  ⟨[e], rfl, fun m => .cons (he m) .nil⟩

theorem lent (h : w.Silent w') : World.Lent True w w' := by
  obtain ⟨es, heq, hes⟩ := h
  exact ⟨es, heq, fun m _ => (hes m).disciplined, fun _ => hes .rd, fun h => absurd trivial h⟩

end World.Silent

namespace World.Lent

theorem refl (w : World) : World.Lent True w w :=
  (Silent.of_log rfl).lent

theorem trans (h : World.Lent P w w') (h' : World.Lent Q w' w'') : World.Lent (P ∧ Q) w w'' := by
  obtain ⟨es, heq, hother, hunused, hlost⟩ := h
  obtain ⟨es', heq', hother', hunused', hlost'⟩ := h'
  refine ⟨es' ++ es, by rw [heq', heq, List.append_assoc], ?_, ?_, ?_⟩
  . intro m hm
    exact (hother' m hm).append (hother m hm)
  . rintro ⟨hP, hQ⟩
    exact (hunused' hQ).append (hunused hP)
  . intro hnot
    by_cases hQ : Q
    . have hP : ¬ P := fun hP => hnot ⟨hP, hQ⟩
      exact .of_unused (hunused' hQ) (hlost hP)
    . exact (hlost' hQ).append

theorem congr (h : World.Lent P w w') (hPQ : P ↔ Q) : World.Lent Q w w' := by
  rw [← propext hPQ]
  exact h

theorem after (h : World.Lent True w w') (h' : World.Lent Q w' w'') : World.Lent Q w w'' :=
  (h.trans h').congr (and_iff_right trivial)

theorem pair (hm : m ≠ .rd) (h : (w.lock m).Silent w') : World.Lent True w (w'.unlock m) := by
  obtain ⟨es, heq, hes⟩ := h
  have hlog : (w'.unlock m).log = .unlock m :: (es ++ [.lock m]) ++ w.log := by
    simp [World.unlock, World.lock, World.emit] at heq ⊢
    exact heq
  refine ⟨.unlock m :: (es ++ [.lock m]), hlog, ?_, ?_, ?_⟩
  . intro m' _
    by_cases hm' : m = m'
    . subst hm'
      exact disciplined_pair (by simp [Event.turns]) (by simp [Event.turns]) (hes m)
    . apply Unused.disciplined
      apply Unused.cons (by simp [Event.turns, hm'])
      exact (hes m').append (.cons (by simp [Event.turns, hm']) .nil)
  . intro _
    apply Unused.cons (by simp [Event.turns, hm])
    exact (hes .rd).append (.cons (by simp [Event.turns, hm]) .nil)
  . intro hnot
    exact absurd trivial hnot

theorem disciplined (h : World.Lent True w w') : w.Disciplined w' := by
  obtain ⟨es, heq, hother, hunused, -⟩ := h
  intro m
  rw [World.since_eq heq]
  by_cases hm : m = .rd
  . subst hm
    exact (hunused trivial).disciplined
  . exact hother m hm

theorem disciplined_iff (h : World.Lent P (w.lock .rd) w') : w.Disciplined (w'.unlock .rd) ↔ P := by
  obtain ⟨es, heq, hother, hunused, hlost⟩ := h
  have hlog : (w'.unlock .rd).log = .unlock .rd :: (es ++ [.lock .rd]) ++ w.log := by
    simp [World.unlock, World.lock, World.emit] at heq ⊢
    exact heq
  have hlock : Event.turns .rd (.lock .rd) = some true := rfl
  have hunlock : Event.turns .rd (.unlock .rd) = some false := rfl
  constructor
  . intro hall
    by_contra hP
    have hrd := hall .rd
    rw [World.since_eq hlog] at hrd
    exact not_disciplined_pair hlock hunlock (hlost hP) hrd
  . intro hP m
    rw [World.since_eq hlog]
    by_cases hm : m = .rd
    . subst hm
      exact disciplined_pair hlock hunlock (hunused hP)
    . have hsilent : ∀ (e : Event), e = .unlock .rd ∨ e = .lock .rd → e.turns m = none := by
        rintro e (rfl | rfl) <;> simp [Event.turns, Ne.symm hm]
      have hfirst : Locking.Disciplined (Event.turns m) [.lock .rd] :=
        Unused.disciplined (.cons (hsilent _ (.inr rfl)) .nil)
      have hlast : Locking.Disciplined (Event.turns m) [.unlock .rd] :=
        Unused.disciplined (.cons (hsilent _ (.inl rfl)) .nil)
      exact hlast.append ((hother m hm).append hfirst)

end World.Lent

/-! The block layer. -/

theorem cmalloc_silent (env : Env) (w : World) : w.Silent (cmalloc env w).2 := by
  unfold cmalloc
  split
  . exact .emit w (fun _ => rfl)
  . exact .emit w (fun _ => rfl)

theorem readBlock_silent (env : Env) (b : BlockNo) (w : World) : w.Silent (readBlock env b w).2.2 := by
  unfold readBlock
  split
  . exact .emit w (fun _ => rfl)
  . exact .emit w (fun _ => rfl)

theorem writeBlock_silent (env : Env) (b : BlockNo) (buf : Block) (w : World)
    : w.Silent (writeBlock env b buf w).2 := by
  unfold writeBlock
  split
  . exact .emit w (fun _ => rfl)
  . have hdisk : w.Silent { w with disk := Function.update w.disk b buf } := .of_log rfl
    exact hdisk.trans (.emit _ (fun _ => rfl))

theorem flushChBlk_silent (env : Env) (index : Fin cacheLen) (w : World)
    : w.Silent (flushChBlk env index w).2 := by
  have h := writeBlock_silent env (w.cacheInfo index) (w.cache index) w
  unfold flushChBlk
  generalize writeBlock env (w.cacheInfo index) (w.cache index) w = res at h
  obtain ⟨ok, w'⟩ := res
  cases ok with
  | false => exact h
  | true => exact h.trans (.of_log rfl)

theorem readChBlk_lent (env : Env) (b : BlockNo) (buf : Block) (w : World)
    : World.Lent True w (readChBlk env b buf w).2.2 := by
  unfold readChBlk
  split
  . have hch : (.ch : Mutex) ≠ .rd := by decide
    have h₁ := flushChBlk_silent env (cacheIndex b) (w.lock .ch)
    simp only
    split
    . generalize flushChBlk env (cacheIndex b) (w.lock .ch) = res at h₁ ⊢
      obtain ⟨ok, w₁⟩ := res
      cases ok with
      | false => exact .pair hch h₁
      | true =>
        simp only
        have h₂ := (h₁.trans (.of_log rfl)).trans (readBlock_silent env b
          { w₁ with cacheInfo := Function.update w₁.cacheInfo (cacheIndex b) b })
        generalize readBlock env b _ = res at h₂ ⊢
        obtain ⟨ok, line, w₂⟩ := res
        cases ok with
        | false => exact .pair hch (h₂.trans (.of_log rfl))
        | true => exact .pair hch (h₂.trans (.of_log rfl))
    . exact .pair hch (.of_log rfl)
  . exact (readBlock_silent env b w).lent

theorem readChBlkNull_lent {b : BlockNo} (h : readChBlkNull env b w = .ok w') : World.Lent True w w' := by
  rcases readChBlkNull_cases h with ⟨-, buf, hread⟩ | ⟨-, rfl⟩
  . have hlent := readChBlk_lent env b (Buf.zero blockSize) w
    rw [hread] at hlent
    exact hlent
  . exact (World.Silent.emit w (fun _ => rfl)).lent

theorem writeChBlk_lent (env : Env) (b : BlockNo) (buf : Block) (w : World)
    : World.Lent True w (writeChBlk env b buf w).2 := by
  unfold writeChBlk
  split
  . have hch : (.ch : Mutex) ≠ .rd := by decide
    have h₁ := flushChBlk_silent env (cacheIndex b) (w.lock .ch)
    simp only
    split
    . generalize flushChBlk env (cacheIndex b) (w.lock .ch) = res at h₁ ⊢
      obtain ⟨ok, w₁⟩ := res
      cases ok with
      | false => exact .pair hch h₁
      | true => exact .pair hch (h₁.trans (.of_log rfl))
    . exact .pair hch (.of_log rfl)
  . exact (writeBlock_silent env b buf w).lent

theorem allocBlock.bits_lent (i : Fin blkBmpLn) (n j : Nat) (temp : BitVec 64) (w : World)
    : World.Lent True w (allocBlock.bits i n j temp w).2 := by
  induction n generalizing j temp w with
  | zero => exact .refl w
  | succ n ih =>
    simp only [allocBlock.bits]
    split
    . exact .pair (by decide) (.of_log rfl)
    . exact (World.Lent.pair (by decide) (.of_log rfl)).after (ih _ _ _)

theorem allocBlock.words_lent (is : List (Fin blkBmpLn)) (w : World)
    : World.Lent True w (allocBlock.words is w).2 := by
  induction is generalizing w with
  | nil => exact (World.Silent.emit w (fun _ => rfl)).lent
  | cons i is ih =>
    have h := allocBlock.bits_lent i 64 0 (w.blkBmp i) w
    simp only [allocBlock.words]
    generalize allocBlock.bits i 64 0 (w.blkBmp i) w = res at h
    obtain ⟨b, w'⟩ := res
    cases b with
    | none => exact h.after (ih w')
    | some b => exact h

theorem allocBlock_lent (w : World) : World.Lent True w (allocBlock w).2 :=
  allocBlock.words_lent _ w

theorem freeBlock_lent {b : BlockNo} (h : freeBlock b w = .ok w') : World.Lent True w w' := by
  unfold freeBlock at h
  split at h
  . cases h
    exact .pair (by decide) (.of_log rfl)
  . cases h

theorem markObjDirty_lent (o : Slot) (w : World) : World.Lent True w (markObjDirty o w) :=
  .pair (by decide) (.of_log rfl)

/-! The calls that change the table. -/

theorem createObject_lent {key : CStr} {r : Int} (h : createObject key w = .ok (r, w'))
    : World.Lent True w w' := by
  have hcl : (.objCl : Mutex) ≠ .rd := by decide
  rcases createObject_ends h with rfl | ⟨o, objects, rfl⟩
  . exact .pair hcl (.of_log rfl)
  . exact (World.Lent.pair hcl (.of_log rfl)).after (markObjDirty_lent o _)

theorem renameObject_lent (key newname : CStr) (w : World)
    : World.Lent True w (renameObject key newname w).2 := by
  have hcl : (.objCl : Mutex) ≠ .rd := by decide
  rcases renameObject_ends key newname w with heq | ⟨o, heq⟩
  . rw [heq]
    exact .pair hcl (.of_log rfl)
  . rw [heq]
    exact (World.Lent.pair hcl (.of_log rfl)).after (markObjDirty_lent o _)

theorem freePointerBlock_lent {b : BlockNo} {r : Int} (h : freePointerBlock env b w = .ok (r, w'))
    : World.Lent True w w' := by
  apply freePointerBlock_inv (I := fun u => World.Lent True w u) _ _ _ h (.refl w)
  . intro u hu
    exact hu.after (cmalloc_silent env u).lent
  . intro u buf hu
    exact hu.after (readChBlk_lent env b buf u)
  . intro u u' b' hu hfree
    exact hu.after (freeBlock_lent hfree)

namespace destroyObject

theorem direct_lent (o : Slot) (i : Fin 4) (u : World) (hu : World.Lent True w u)
    : Loop.Leaves (fun u => World.Lent True w u) (direct o i u) := by
  unfold direct
  split
  . cases heq : freeBlock ((u.objects o).direct i) u with
    | error e => trivial
    | ok u' => exact (hu.after (freeBlock_lent heq)).after (World.Silent.of_log rfl).lent
  . exact hu

theorem indirect_lent (o : Slot) (i : Fin 4) (u : World) (hu : World.Lent True w u)
    : Loop.Leaves (fun u => World.Lent True w u) (indirect env o i u) := by
  unfold indirect
  split
  . cases heq : freePointerBlock env ((u.objects o).indirect i) u with
    | error e => trivial
    | ok res =>
      have hfree := hu.after (freePointerBlock_lent heq)
      simp only [bind, Except.bind]
      split
      . exact hfree
      . exact hfree.after (World.Silent.of_log rfl).lent
  . exact hu

end destroyObject

theorem destroyObject_lent {key : CStr} {r : Int} (h : destroyObject env key w = .ok (r, w'))
    : World.Lent True w w' := by
  rcases destroyObject_finish h with ⟨-, rfl⟩ | ⟨o, -, hsize, h⟩
  . exact .refl w'
  . rcases destroyObject.finish_inv (I := fun u => World.Lent True w u) (destroyObject.direct_lent o)
      (destroyObject.indirect_lent o) h hsize (.refl w) with hw | ⟨u, hu, -, rfl⟩
    . exact hw
    . exact (hu.after (World.Silent.of_log rfl).lent).after (markObjDirty_lent o _)

theorem objstoreWrite_slot_lent {o : Slot} {buf : Mem} {size offset : Nat} {r : Int}
    (h : objstoreWrite env o.id buf size offset w = .ok (r, w'))
    : World.Lent True w w' := by
  have hcases := objstoreWrite_inv (I := fun u => World.Lent True w u)
    (fun u hu => hu.after (cmalloc_silent env u).lent)
    (fun u b buf hu => hu.after (readChBlk_lent env b buf u))
    (fun u u' b hread hu => hu.after (readChBlkNull_lent hread))
    (fun u b buf hu => hu.after (writeChBlk_lent env b buf u))
    (fun u hu => hu.after (allocBlock_lent u))
    (fun u direct indirect hu => hu.after (World.Silent.of_log rfl).lent) h (.refl w)
  rcases hcases with ⟨-, hw⟩ | ⟨u, hu, -, -, rfl⟩
  . exact hw
  . exact (hu.after (World.Silent.of_log rfl).lent).after (markObjDirty_lent o _)

theorem objstoreWrite_lent {objid : Int} {buf : Mem} {size offset : Nat} {r : Int}
    (h : objstoreWrite env objid buf size offset w = .ok (r, w'))
    : World.Lent True w w' := by
  rcases objstoreWrite_slot h with ⟨-, rfl, -⟩ | ⟨o, rfl, -⟩
  . exact .refl w'
  . exact objstoreWrite_slot_lent h

/-! Reading, where `rd_lock` is held throughout. -/

theorem World.Lent.unlock (w : World) : World.Lent False w (w.unlock .rd) := by
  refine ⟨[.unlock .rd], rfl, ?_, ?_, ?_⟩
  . intro m hm
    exact Unused.disciplined (.cons (by simp [Event.turns, Ne.symm hm]) .nil)
  . intro h
    exact h.elim
  . intro _
    exact .unlock rfl

theorem getBlockData_lent {b : BlockNo} {size : Nat} {x : Xfer} {buf : Mem} {res : Int × Xfer × Mem × World}
    (h : getBlockData env size b x buf w = .ok res)
    : World.Lent (res.1 = 0) w res.2.2.2 := by
  obtain ⟨r, x', buf', w'⟩ := res
  rcases getBlockData_cases h with ⟨rfl, rfl⟩ | ⟨w₁, hread, rfl, rfl⟩ | ⟨temp, temp', ok, w₁, hread, hcase⟩
  . exact (World.Lent.refl w').congr (iff_of_true trivial rfl)
  . exact ((readChBlkNull_lent hread).after (.unlock w₁)).congr (by simp)
  . have h₁ := readChBlk_lent env b temp w
    rw [hread] at h₁
    rcases hcase with ⟨rfl, rfl, rfl⟩ | ⟨rfl, rfl, rfl⟩
    . exact (h₁.after (.unlock w₁)).congr (by simp)
    . exact h₁.congr (by simp)

theorem World.Lent.graded (env : Env) : Graded env World.Lent where
  refl := .refl
  trans := fun _ _ _ _ _ h h' => h.trans h'
  cmalloc := fun w => (cmalloc_silent env w).lent
  read := by
    intro b buf blk w w' heq
    have h := readChBlk_lent env b buf w
    rw [heq] at h
    exact h
  get := fun _ _ _ _ _ _ heq => getBlockData_lent heq

namespace objstoreRead

variable {o : Slot} {size start : Nat}

-- a pass that returns gives `rd_lock` back once more than the calls of `get_block_data` in it
theorem indirect_lent {i : Fin 4} {s t : Xfer × Mem × World} {r : Int}
    (h : indirect env o size start i s = .ok (.ret r t))
    : ∃ (u : World), World.Lent (indirect.Succeeds env o size start (i, s)) s.2.2 u ∧ t.2.2 = u.unlock .rd := by
  obtain ⟨x, buf, w⟩ := s
  unfold indirect.Succeeds
  simp only
  have h₁ := (cmalloc_silent env w).lent
  cases indirect_pass h with
  | noPage hgo w₁ hpage =>
    rw [hpage] at h₁
    exact ⟨w₁, h₁.congr (by simp [hpage]), rfl⟩
  | unread hgo page blockData w₁ w₂ hpage hread =>
    rw [hpage] at h₁
    have h₂ := h₁.after (readChBlk_lent env ((w₁.objects o).indirect i) page w₁)
    rw [hread] at h₂
    refine ⟨w₂, h₂.congr (iff_of_true trivial ?_), rfl⟩
    intro page' blockData' w₁' w₂' _ hpage' hread'
    rw [hpage] at hpage'
    cases hpage'
    rw [hread] at hread'
    cases hread'

theorem indirects_lent {s t : Xfer × Mem × World} {r : Int}
    (h : Loop.run (indirect env o size start) (Loop.range 4) s = .ok (.ret r t))
    : ∃ (u : World), World.Lent
        (∀ (p : Fin 4 × Xfer × Mem × World), p ∈ Loop.passes (indirect env o size start) (Loop.range 4) s
          → indirect.Succeeds env o size start p) s.2.2 u ∧ t.2.2 = u.unlock .rd := by
  apply Loop.run_passes_ret (R := fun P s t => World.Lent P s.2.2 t.2.2)
    (S := fun P s t => ∃ (u : World), World.Lent P s.2.2 u ∧ t.2.2 = u.unlock .rd) _ _ _ _ s t r h
  . rintro P Q s t u hP ⟨v, hQ, heq⟩
    exact ⟨v, hP.trans hQ, heq⟩
  . intro i s t hnext
    exact (World.Lent.graded env).indirect (Or.inl hnext)
  . intro i s t r hret
    exact indirect_lent hret

end objstoreRead

theorem objstoreRead_slot_disciplined_iff {o : Slot} {buf buf' : Mem} {size offset : Nat} {r : Int}
    (hsize : size ≤ maxSize) (h : objstoreRead env o.id buf size offset w = .ok (r, buf', w'))
    : w.Disciplined w'
        ↔ objstoreRead.Succeeds env o size (startBlock offset)
          (Xfer.start size offset (cmalloc env (w.lock .rd)).1, buf, (cmalloc env (w.lock .rd)).2) := by
  have hmalloc := (cmalloc_silent env (w.lock .rd)).lent
  obtain ⟨u, v, hrun₁, hcase⟩ := objstoreRead_loops hsize h
  generalize cmalloc env (w.lock .rd) = res at hmalloc hrun₁ ⊢
  obtain ⟨temp, w₁⟩ := res
  simp only at hmalloc hrun₁ ⊢
  have h₁ := hmalloc.after ((World.Lent.graded env).directs hrun₁)
  unfold objstoreRead.Succeeds
  simp only [hrun₁, Except.ok.injEq, Loop.Flow.next.injEq, forall_eq']
  rcases hcase with ⟨hrun₂, rfl⟩ | ⟨hrun₂, -, rfl⟩
  . obtain ⟨u', h₂, heq⟩ := objstoreRead.indirects_lent hrun₂
    rw [heq]
    exact (h₁.trans h₂).disciplined_iff
  . exact (h₁.trans ((World.Lent.graded env).indirects hrun₂)).disciplined_iff

/-- No call of `get_block_data` that a read makes returns -1. -/
def objstoreRead.Undisturbed (env : Env) (w : World) (objid : Int) (buf : Mem) (size offset : Nat) : Prop :=
  ∀ (o : Slot), objid = o.id → size ≤ maxSize
    → Succeeds env o size (startBlock offset)
      (Xfer.start size offset (cmalloc env (w.lock .rd)).1, buf, (cmalloc env (w.lock .rd)).2)

theorem objstoreRead_disciplined_iff {objid : Int} {buf buf' : Mem} {size offset : Nat} {r : Int}
    (h : objstoreRead env objid buf size offset w = .ok (r, buf', w'))
    : w.Disciplined w' ↔ objstoreRead.Undisturbed env w objid buf size offset := by
  have hquiet : World.Lent True (w.lock .rd) (w.lock .rd) := .refl _
  unfold objstoreRead.Undisturbed
  rcases objstoreRead_slot h with ⟨-, rfl, hout⟩ | ⟨o, rfl, hsize⟩
  . refine iff_of_true (hquiet.disciplined_iff.mpr trivial) ?_
    rintro o rfl hsize
    have := o.id_ge
    omega
  . rw [objstoreRead_slot_disciplined_iff hsize h]
    constructor
    . intro hsucc o' hid' _
      rw [← Slot.id_inj hid']
      exact hsucc
    . intro hsucc
      exact hsucc o rfl hsize

/-- The calls of a client, and those of the helpers that are shared by them. -/
inductive Call where
  | client (op : Op)
  | allocBlock
  | freeBlock (b : BlockNo)
  | markObjDirty (o : Slot)
  | readChBlk (b : BlockNo) (buf : Block)
  | writeChBlk (b : BlockNo) (buf : Block)

namespace Call

-- the world that a call leaves behind
def exec (env : Env) (w : World) : Call → Except Fault World
  | .client op => do
    let (_, w) ← op.exec env w
    return w
  | .allocBlock => return (ObjStore.allocBlock w).2
  | .freeBlock b => ObjStore.freeBlock b w
  | .markObjDirty o => return ObjStore.markObjDirty o w
  | .readChBlk b buf => return (ObjStore.readChBlk env b buf w).2.2
  | .writeChBlk b buf => return (ObjStore.writeChBlk env b buf w).2

-- A read makes no call of `get_block_data` that returns -1.
def Undisturbed (env : Env) (w : World) : Call → Prop
  | .client (.read objid buf size offset) => objstoreRead.Undisturbed env w objid buf size offset
  | _ => True

end Call

theorem Op.exec_lent {op : Op} {reply : Reply} (h : op.exec env w = .ok (reply, w'))
    (hread : ∀ (objid : Int) (buf : Mem) (size offset : Nat), op ≠ .read objid buf size offset)
    : World.Lent True w w' := by
  cases op with
  | create key => exact createObject_lent (create_of_exec h)
  | find key =>
    cases h
    exact .refl w
  | rename key newname =>
    cases h
    exact renameObject_lent key newname w
  | destroy key => exact destroyObject_lent (destroy_of_exec h)
  | write objid buf size offset => exact objstoreWrite_lent (write_of_exec h)
  | read objid buf size offset => exact absurd rfl (hread objid buf size offset)

/--
For every pattern of failures: a call that returns has used its mutexes as it should exactly when no
`get_block_data` failed in it.
-/
theorem mutexes_disciplined_iff (c : Call) (h : c.exec env w = .ok w') : w.Disciplined w' ↔ c.Undisturbed env w := by
  cases c with
  | allocBlock =>
    cases h
    exact iff_of_true (allocBlock_lent w).disciplined trivial
  | freeBlock b =>
    have hfree : freeBlock b w = .ok w' := h
    exact iff_of_true (freeBlock_lent hfree).disciplined trivial
  | markObjDirty o =>
    cases h
    exact iff_of_true (markObjDirty_lent o w).disciplined trivial
  | readChBlk b buf =>
    cases h
    exact iff_of_true (readChBlk_lent env b buf w).disciplined trivial
  | writeChBlk b buf =>
    cases h
    exact iff_of_true (writeChBlk_lent env b buf w).disciplined trivial
  | client op =>
    obtain ⟨reply, hexec⟩ : ∃ (reply : Reply), op.exec env w = .ok (reply, w') := by
      obtain ⟨res, hexec, h⟩ := Loop.bind_eq_ok.mp h
      cases h
      exact ⟨res.1, hexec⟩
    cases op with
    | read objid buf size offset =>
      obtain ⟨buf', -, hread⟩ := Op.read_of_exec hexec
      exact objstoreRead_disciplined_iff hread
    | create key => exact iff_of_true (Op.exec_lent hexec nofun).disciplined trivial
    | find key => exact iff_of_true (Op.exec_lent hexec nofun).disciplined trivial
    | rename key newname => exact iff_of_true (Op.exec_lent hexec nofun).disciplined trivial
    | destroy key => exact iff_of_true (Op.exec_lent hexec nofun).disciplined trivial
    | write objid buf size offset => exact iff_of_true (Op.exec_lent hexec nofun).disciplined trivial

theorem mutexes_disciplined_iff_planted
    : ∃ (env : Env) (w w' : World), w.Live 2
        ∧ (Call.client (.read 2 (fun _ => 0#8) 1 0)).exec env w = .ok w'
        ∧ (w.Disciplined w' ↔ (Call.client (.read 2 (fun _ => 0#8) 1 0)).Undisturbed env w) := by
  obtain ⟨env, disk, w, w', buf', -, -, hlive, hread, -⟩ := exists_failed_read
  have hexec : (Call.client (.read 2 (fun _ => 0#8) 1 0)).exec env w = .ok w' := by
    simp only [Call.exec, Op.exec_read hread, bind, Except.bind]
    rfl
  exact ⟨env, w, w', hlive, hexec, mutexes_disciplined_iff (.client (.read 2 (fun _ => 0#8) 1 0)) hexec⟩

-- the read of the planted store that loses a transfer
theorem not_disciplined_planted
    : ∃ (env : Env) (disk : BlockNo → Block) (w w' : World) (buf' : Mem), (diskView disk).Own
        ∧ objstoreInit (steady false) (World.ofDisk disk) = .ok (0, w) ∧ w.Live 2
        ∧ objstoreRead env 2 (fun _ => 0#8) 1 0 w = .ok (1, buf', w') ∧ ¬ w.Disciplined w' := by
  obtain ⟨env, disk, w, w', buf', hown, hinit, hlive, hread, hlog⟩ := exists_failed_read
  refine ⟨env, disk, w, w', buf', hown, hinit, hlive, hread, ?_⟩
  intro hall
  have hrd := hall .rd
  rw [World.since_eq hlog] at hrd
  unfold Locking.Disciplined at hrd
  revert hrd
  decide

end ObjStore
