import CS330.ObjStore.Visits
import CS330.ObjStore.Reports

/-!
This module contains what `objstore_write` does to the set of live objects and to the names. A slot is free when its
size is 0, and the write neither asks for the size before nor for what it sets the size to.
-/

namespace ObjStore

variable {env env' : Env} {w w' : World} {disk : BlockNo → Block} {o : Slot}

-- the key field holds the terminator of the key
def Obj.Ended (obj : Obj) : Prop :=
  ∃ (i : Fin keySize), obj.key i = 0#8

-- the new names end in the key field
def Op.Named : Op → Prop
  | .create key => key.len < keySize
  | .rename _ newname => newname.len < keySize
  | _ => True

/-- The same slots are free, and every key leads to the same id. -/
structure World.SameObjects (w w' : World) : Prop where
  free_iff : ∀ (o : Slot), (w'.objects o).size = 0#64 ↔ (w.objects o).size = 0#64
  id_eq : ∀ (key : CStr), findObjectId key w' = findObjectId key w

/-- A write to what is no live object is refused; other writes keep the objects. -/
structure objstoreWrite.Neutral (env : Env) (w : World) (objid : Int) (buf : Mem) (size offset : Nat) : Prop where
  refused : ¬ w.Live objid
    → ∃ (w' : World), objstoreWrite env objid buf size offset w = .ok (-1, w') ∧ w'.view env = w.view env
  kept : w.Live objid → ∀ (r : Int) (w' : World), objstoreWrite env objid buf size offset w = .ok (r, w')
    → w.SameObjects w'

/-! Names that end in their field do not depend on what comes after it. -/

theorem World.keyEq_long (hended : (w.objects o).Ended) {key : CStr} (hkey : ¬ key.len < keySize)
    : w.keyEq o key = false := by
  obtain ⟨i, hi⟩ := hended
  have hlt := i.isLt
  rw [← Bool.not_eq_true]
  unfold World.keyEq
  rw [CStr.strcmp_iff]
  intro h
  have hbyte := h i (by omega)
  rw [w.objMem_key o i, hi] at hbyte
  exact key.nonzero i (by omega) hbyte.symm

theorem findObjectId_keys (hsame : ∀ (o : Slot), (w'.objects o).key = (w.objects o).key)
    (hended : ∀ (o : Slot), (w.objects o).Ended) (key : CStr)
    : findObjectId key w' = findObjectId key w := by
  have hkeys : (fun o => w'.keyEq o key) = fun o => w.keyEq o key := by
    funext o
    by_cases hkey : key.len < keySize
    . rw [Bool.eq_iff_iff, w'.keyEq_iff o key hkey, w.keyEq_iff o key hkey]
      unfold Obj.name
      rw [hsame]
    . have hended' : (w'.objects o).Ended := by
        unfold Obj.Ended
        rw [hsame]
        exact hended o
      rw [World.keyEq_long hended' hkey, World.keyEq_long (hended o) hkey]
  unfold findObjectId findObject
  rw [hkeys]

/-! Runs with short names. -/

theorem World.SameNames.ended (h : w.SameNames w') (hended : ∀ (o : Slot), (w.objects o).Ended) (o : Slot)
    : (w'.objects o).Ended := by
  unfold Obj.Ended
  rw [(h o).2]
  exact hended o

theorem Obj.ended_update {objects : Slot → Obj} (hended : ∀ (o : Slot), (objects o).Ended) (o : Slot) {obj : Obj}
    (hobj : obj.Ended) (o' : Slot)
    : (Function.update objects o obj o').Ended := by
  by_cases ho : o' = o
  . subst ho
    rw [Function.update_self]
    exact hobj
  . rw [Function.update_of_ne ho]
    exact hended o'

theorem createObject_ended {key : CStr} {r : Int} (hkey : key.len < keySize) (h : createObject key w = .ok (r, w'))
    (hended : ∀ (o : Slot), (w.objects o).Ended)
    : ∀ (o : Slot), (w'.objects o).Ended := by
  rcases createObject_cases w key hkey with ⟨log, heq, -, -⟩ | ⟨o, log, -, -, heq, -⟩
  . rw [heq] at h
    cases h
    exact hended
  . rw [heq] at h
    cases h
    apply Obj.ended_update hended
    refine ⟨⟨key.len, hkey⟩, ?_⟩
    simp only [createObject.fresh, createObject.copied]
    rw [if_pos ⟨by omega, by omega⟩]
    exact key.nul

theorem renameObject_ended (key : CStr) {newname : CStr} (hnew : newname.len < keySize)
    (hended : ∀ (o : Slot), (w.objects o).Ended)
    : ∀ (o : Slot), ((renameObject key newname w).2.objects o).Ended := by
  rcases renameObject_ends key newname w with heq | ⟨o, heq⟩
  . rw [heq]
    exact hended
  . rw [heq]
    exact Obj.ended_update hended o ⟨⟨newname.len, hnew⟩, newname.nul⟩

theorem destroyObject_ended {key : CStr} {r : Int} (h : destroyObject env key w = .ok (r, w'))
    (hended : ∀ (o : Slot), (w.objects o).Ended)
    : ∀ (o : Slot), (w'.objects o).Ended := by
  rcases destroyObject_finish h with ⟨-, rfl⟩ | ⟨o, -, hsize, h⟩
  . exact hended
  . rcases destroyObject.finish_inv (I := w.SameNames) (fun i u hu => destroyObject.direct_sameNames o i hu)
      (fun i u hu => destroyObject.indirect_sameNames o i hu) h hsize (.of_objects rfl) with hw | ⟨u, hu, -, rfl⟩
    . exact hw.ended hended
    . exact Obj.ended_update (hu.ended hended) o ⟨0, rfl⟩

theorem objstoreWrite_ended {objid : Int} {buf : Mem} {size offset : Nat} {r : Int}
    (h : objstoreWrite env objid buf size offset w = .ok (r, w')) (hended : ∀ (o : Slot), (w.objects o).Ended)
    : ∀ (o : Slot), (w'.objects o).Ended := by
  rcases objstoreWrite_slot h with ⟨-, rfl, -⟩ | ⟨o, rfl, -⟩
  . exact hended
  . rcases objstoreWrite_sameNames h with ⟨-, hw⟩ | ⟨u, hu, -, -, rfl⟩
    . exact hw.ended hended
    . obtain ⟨i, hi⟩ := hu.ended hended o
      exact Obj.ended_update (hu.ended hended) o ⟨i, hi⟩

theorem Op.Named.ended {op : Op} {reply : Reply} (hnamed : op.Named) (h : op.exec env w = .ok (reply, w'))
    (hended : ∀ (o : Slot), (w.objects o).Ended)
    : ∀ (o : Slot), (w'.objects o).Ended := by
  cases op with
  | create key => exact createObject_ended hnamed (Op.create_of_exec h) hended
  | find key =>
    cases h
    exact hended
  | rename key newname =>
    cases h
    exact renameObject_ended key hnamed hended
  | destroy key => exact destroyObject_ended (Op.destroy_of_exec h) hended
  | write objid buf size offset => exact objstoreWrite_ended (Op.write_of_exec h) hended
  | read objid buf size offset =>
    obtain ⟨buf', -, hread⟩ := Op.read_of_exec h
    exact (objstoreRead_sameNames hread).ended hended

theorem Visits.ended (hdisk : ∀ (o : Slot), (diskObj disk o).Ended)
    (h : Visits env (fun _ op _ => op.Named) disk w)
    : ∀ (o : Slot), (w.objects o).Ended := by
  apply h.inv (I := fun w => ∀ (o : Slot), (w.objects o).Ended)
  . intro w₀ hmounted
    rw [hmounted.objects_eq]
    exact hdisk
  . intro u op reply u' hu hnamed hexec
    exact hnamed.ended hexec hu

/-! Where nothing fails, a write to a slot does not return -1. -/

theorem readChBlk_succeeds (hr : env.Reliable) (b : BlockNo) (buf : Block) (w : World)
    : (readChBlk env b buf w).1 = true := by
  unfold readChBlk
  split
  . simp only [flushChBlk_eq hr, readBlock_eq hr]
    split
    . rfl
    . rfl
  . rw [readBlock_eq hr]

theorem writeChBlk_succeeds (hr : env.Reliable) (b : BlockNo) (buf : Block) (w : World)
    : (writeChBlk env b buf w).1 = true := by
  unfold writeChBlk
  split
  . simp only [flushChBlk_eq hr]
    split
    . rfl
    . rfl
  . rw [writeBlock_eq hr]

theorem objstoreWrite.indirect_falls (hr : env.Reliable) (o : Slot) (buf : Mem) (size start : Nat) (i : Fin 4)
    (s : Xfer × World)
    : Loop.Falls (fun _ => True) (indirect env o buf size start i s) := by
  obtain ⟨x, w⟩ := s
  cases h : indirect env o buf size start i (x, w) with
  | error e => trivial
  | ok flow =>
    cases indirect_pass h with
    | idle hrem => trivial
    | noPage hrem w₁ hpage =>
      rw [cmalloc_eq hr] at hpage
      cases hpage
    | noBlock hrem page blockBuf w₁ w₂ hpage hblock =>
      have hptr : (pointerBlock env o i page w₁).1 = true := by
        unfold pointerBlock
        split
        . rfl
        . exact readChBlk_succeeds hr _ _ _
      rw [hblock] at hptr
      cases hptr
    | through hrem page blockBuf blockBuf' w₁ w₂ w₃ w₄ x' ok hpage hblock hrun hwrite =>
      have hok := writeChBlk_succeeds hr ((w₃.objects o).indirect i) blockBuf' w₃
      rw [hwrite] at hok
      cases hok
      trivial

theorem objstoreWrite_reliable (hr : env.Reliable) {buf : Mem} {size offset : Nat} {r : Int} (hsize : size ≤ maxSize)
    (h : objstoreWrite env o.id buf size offset w = .ok (r, w'))
    : r = size := by
  obtain ⟨u, v, -, ⟨hrun₂, -⟩ | ⟨-, hr', -⟩⟩ := objstoreWrite_loops hsize h
  . have hfalls := Loop.run_falls
      (fun i s _ => objstoreWrite.indirect_falls hr o buf size (startBlock offset) i s) (Loop.range 4) u trivial
    rw [hrun₂] at hfalls
    exact hfalls.elim
  . exact hr'

-- a write of no bytes sets the size all the same
theorem objstoreWrite_nothing (env : Env) (o : Slot) (buf : Mem) (offset : Nat) (w : World)
    : ∃ (w' : World), objstoreWrite env o.id buf 0 offset w = .ok (0, w')
        ∧ (w'.objects o).size = BitVec.ofNat 64 offset := by
  let Q (res : Except Fault (Loop.Flow Int (Xfer × World))) : Prop :=
    ∃ (s : Xfer × World), res = .ok (.next s) ∧ s.1.remaining = 0
  have hdirects : ∀ (s : Xfer × World), s.1.remaining = 0
      → Q (Loop.run (objstoreWrite.direct env o buf 0 (startBlock offset)) (Loop.range 4) s) := by
    intro s hs
    apply Loop.run_inv (P := fun _ s => s.1.remaining = 0) _ (fun s hs => ⟨s, rfl, hs⟩) s hs
    rintro i ⟨x, u⟩ hx
    simp only at hx
    simp only [objstoreWrite.direct, updateBlock, hx, Nat.lt_irrefl, ↓reduceIte]
    split
    . exact rfl
    . exact hx
  have hindirects : ∀ (s : Xfer × World), s.1.remaining = 0
      → Q (Loop.run (objstoreWrite.indirect env o buf 0 (startBlock offset)) (Loop.range 4) s) := by
    intro s hs
    apply Loop.run_inv (P := fun _ s => s.1.remaining = 0) _ (fun s hs => ⟨s, rfl, hs⟩) s hs
    rintro i ⟨x, u⟩ hx
    simp only at hx
    simp only [objstoreWrite.indirect, hx, Nat.lt_irrefl, ↓reduceIte]
    exact hx
  unfold objstoreWrite
  rw [if_neg o.id_ge, if_neg (by omega), dif_pos o.id_lt, o.of_id]
  generalize cmalloc env w = res
  obtain ⟨temp, u⟩ := res
  obtain ⟨s, hrun₁, hs⟩ := hdirects (Xfer.start 0 offset temp, u) rfl
  obtain ⟨t, hrun₂, -⟩ := hindirects s hs
  simp only [hrun₁, hrun₂, bind, Except.bind]
  refine ⟨_, rfl, ?_⟩
  rw [markObjDirty_eq]
  simp only [World.setObj, Function.update_self, Nat.add_zero]

/-- What the write to a slot does, whatever fails: it keeps the objects unless it sets the size to 0. -/
theorem objstoreWrite_sameObjects {buf : Mem} {size offset : Nat} {r : Int} (hended : ∀ (o : Slot), (w.objects o).Ended)
    (hlive : (w.objects o).size ≠ 0#64) (hne : BitVec.ofNat 64 (offset + size) ≠ 0#64)
    (h : objstoreWrite env o.id buf size offset w = .ok (r, w'))
    : w.SameObjects w' := by
  rcases objstoreWrite_sameNames h with ⟨-, hw⟩ | ⟨u, hu, -, -, rfl⟩
  . exact ⟨fun o => by rw [(hw o).1], findObjectId_keys (fun o => (hw o).2) hended⟩
  . rw [markObjDirty_eq]
    constructor
    . intro o'
      by_cases ho : o' = o
      . subst ho
        simp only [World.setObj, Function.update_self, hne, hlive]
      . simp only [World.setObj, Function.update_of_ne ho, (hu o').1]
    . apply findObjectId_keys _ hended
      intro o'
      by_cases ho : o' = o
      . subst ho
        simp only [World.setObj, Function.update_self]
        exact (hu o').2
      . simp only [World.setObj, Function.update_of_ne ho]
        exact (hu o').2

theorem World.Live.two_le {objid : Int} (h : w.Live objid) : ¬ objid < 2 := by
  obtain ⟨o, rfl, -⟩ := h
  exact o.id_ge

/--
Whatever fails in a write: writes are neutral exactly when the id is below the first slot, or a live object is written
to and its size does not become 0.
-/
theorem writes_neutral_iff (hdisk : ∀ (o : Slot), (diskObj disk o).Ended)
    (hvisit : Visits env (fun _ op _ => op.Named) disk w) (objid : Int) (buf : Mem) (size offset : Nat)
    (hsize : size ≤ maxSize) (hoffset : offset < 2 ^ 63)
    : (∀ (env' : Env), env'.cached = env.cached → objstoreWrite.Neutral env' w objid buf size offset)
        ↔ objid < 2 ∨ (w.Live objid ∧ offset + size ≠ 0) := by
  have hended := hvisit.ended hdisk
  have hr := steady_reliable env.cached
  have hmax : maxSize < 2 ^ 63 := by decide
  constructor
  . intro hall
    have hneutral := hall (steady env.cached) rfl
    by_cases hlow : objid < 2
    . exact .inl hlow
    . right
      by_cases hlive : w.Live objid
      . refine ⟨hlive, ?_⟩
        intro hzero
        obtain ⟨o, rfl, hsize'⟩ := hlive
        obtain ⟨rfl, rfl⟩ : offset = 0 ∧ size = 0 := by omega
        obtain ⟨w', hwrite, hempty⟩ := objstoreWrite_nothing (steady env.cached) o buf 0 w
        have hsame := hneutral.kept ⟨o, rfl, hsize'⟩ 0 w' hwrite
        exact hsize' ((hsame.free_iff o).mp hempty)
      . obtain ⟨w', hwrite, -⟩ := hneutral.refused hlive
        rcases objstoreWrite_slot hwrite with ⟨-, -, hout⟩ | ⟨o, rfl, -⟩
        . omega
        . have hret := objstoreWrite_reliable hr hsize hwrite
          omega
  . intro hcond env' _
    constructor
    . intro hdead
      rcases hcond with hlow | ⟨hlive, -⟩
      . exact ⟨w, objstoreWrite_noObject objid hlow buf size offset, rfl⟩
      . exact absurd hlive hdead
    . intro hlive r w' hwrite
      rcases hcond with hlow | ⟨-, hne⟩
      . exact absurd hlow hlive.two_le
      . obtain ⟨o, rfl, hsize'⟩ := hlive
        refine objstoreWrite_sameObjects hended hsize' ?_ hwrite
        intro hzero
        have hnat := congrArg BitVec.toNat hzero
        rw [BitVec.toNat_ofNat, Nat.mod_eq_of_lt (by omega)] at hnat
        exact hne hnat

theorem Reaches.named (h : Reaches env disk w) : Visits env (fun _ op _ => op.Named) disk w := by
  obtain ⟨w₀, calls, hmount, hrun⟩ := h
  refine ⟨w₀, calls, hmount, hrun.mono ?_⟩
  rintro u ⟨op, reply⟩ u' ⟨hacc, hexec, -⟩
  refine ⟨?_, hexec⟩
  cases op with
  | create key => exact hacc.lt
  | rename key newname => exact hacc.2.lt
  | find key => trivial
  | destroy key => trivial
  | write objid buf size offset => trivial
  | read objid buf size offset => trivial

theorem blank_ended (o : Slot) : (diskObj blankDisk o).Ended := by
  rw [diskObj_blank]
  exact ⟨0, rfl⟩

theorem writes_neutral_iff_started
    : ∃ (w : World) (o : Slot), (w.objects o).size ≠ 0#64
        ∧ ((∀ (env' : Env), env'.cached = true → objstoreWrite.Neutral env' w o.id (fun _ => 1#8) 10 5)
          ↔ o.id < 2 ∨ (w.Live o.id ∧ 5 + 10 ≠ 0)) := by
  obtain ⟨w, o, hstarted⟩ := exists_started true
  exact ⟨w, o, hstarted.live, writes_neutral_iff blank_ended hstarted.reaches.named o.id (fun _ => 1#8) 10 5
    (by decide) (by decide)⟩

-- a write of no bytes to a slot that no object has been created in
theorem not_neutral_blank
    : ∃ (w w' : World), Visits (steady true) (fun _ op _ => op.Named) blankDisk w ∧ ¬ w.Live 2
        ∧ objstoreWrite (steady true) 2 (fun _ => 0#8) 0 5 w = .ok (0, w') ∧ (w'.objects 0).size = 5#64
        ∧ ¬ objstoreWrite.Neutral (steady true) w 2 (fun _ => 0#8) 0 5 := by
  obtain ⟨w, hmount, hmounted⟩ := objstoreInit_spec (steady_reliable true) (World.ofDisk blankDisk)
  obtain ⟨w', hwrite, hsize⟩ := objstoreWrite_nothing (steady true) 0 (fun _ => 0#8) 5 w
  have hdead : ¬ w.Live 2 := by
    rintro ⟨o, -, hlive⟩
    have hzero : w.objects o = Obj.zero := by
      rw [hmounted.objects_eq]
      exact diskObj_blank o
    rw [hzero] at hlive
    exact hlive rfl
  refine ⟨w, w', .mounted hmount, hdead, hwrite, hsize, ?_⟩
  intro hneutral
  obtain ⟨u, hrefused, -⟩ := hneutral.refused hdead
  have hid : (2 : Int) = Slot.id 0 := rfl
  rw [hid, hwrite] at hrefused
  cases hrefused

end ObjStore
