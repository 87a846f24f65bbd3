import CS330.ObjStore.Lemmas.Destroy
import CS330.ObjStore.Lemmas.Fetch
import CS330.ObjStore.Lemmas.Loops
import CS330.ObjStore.Lemmas.Write

/-!
This module contains all that a call can do to a store: every accepted call returns, and its effect is
one of a few. What the calls keep is derived from that list.
-/

namespace ObjStore

open View

structure World.Edited (env : Env) (o : Slot) (obj : Obj) (w w' : World) : Prop where
  direct_eq : obj.direct = (w.objects o).direct
  indirect_eq : obj.indirect = (w.objects o).indirect
  view_eq : w'.view env = (w.view env).edit o obj
  tagged : w'.Tagged
  noTable : w.NoTable → w'.NoTable

/-- What an accepted call can do. -/
inductive Effect (env : Env) (w : World) : Op → Reply → World → Prop where
  | createFailed (key : CStr) (w' : World)
      (hfail : (∃ (o : Slot), (w.objects o).name = key.chars) ∨ ∀ (o : Slot), (w.objects o).size ≠ 0#64)
      (h : w.Reads env w')
      : Effect env w (.create key) ⟨-1, none⟩ w'
  | created (key : CStr) (o : Slot) (w' : World) (hsize : (w.objects o).size = 0#64)
      (hnew : ∀ (o' : Slot), (w.objects o').name = key.chars → o' = o)
      (h : World.Edited env o (createObject.fresh key (w.objects o)) w w')
      : Effect env w (.create key) ⟨o.id, none⟩ w'
  | found (key : CStr) : Effect env w (.find key) ⟨findObjectId key w, none⟩ w
  | renameFailed (key newname : CStr) (w' : World)
      (hfail : (∃ (o : Slot), (w.objects o).name = newname.chars)
        ∨ ∀ (o : Slot), (w.objects o).name ≠ key.chars)
      (h : w.Reads env w')
      : Effect env w (.rename key newname) ⟨-1, none⟩ w'
  | renamed (key newname : CStr) (o : Slot) (w' : World) (hname : (w.objects o).name = key.chars)
      (hnew : ∀ (o' : Slot), (w.objects o').name ≠ newname.chars)
      (h : World.Edited env o (renameObject.renamed newname (w.objects o)) w w')
      : Effect env w (.rename key newname) ⟨o.id, none⟩ w'
  | destroyFailed (key : CStr)
      (hfail : findObject key w = none
        ∨ ∃ (o : Slot), findObject key w = some o ∧ (w.objects o).size = 0#64)
      : Effect env w (.destroy key) ⟨-1, none⟩ w
  | destroyed (key : CStr) (o : Slot) (w' : World) (hfind : findObject key w = some o)
      (hsize : (w.objects o).size ≠ 0#64) (h : w.Destroyed env o w')
      : Effect env w (.destroy key) ⟨0, none⟩ w'
  | writeFailed (objid : Int) (buf : Mem) (size offset : Nat)
      : Effect env w (.write objid buf size offset) ⟨-1, none⟩ w
  | written (o : Slot) (buf : Mem) (size offset : Nat) (hmax : size ≤ maxSize)
      (hfit : InBlock size offset) (w' : World) (v : View)
      (hprog : (Job.ofWrite o buf size offset hfit).Progress (w.view env) v 4100)
      (hview : w'.view env = v.finish o (BitVec.ofNat 64 (offset + size)))
      (htag : w'.Tagged) (hnoTable : w'.NoTable)
      : Effect env w (.write o.id buf size offset) ⟨size, none⟩ w'
  | read (objid : Int) (buf : Mem) (size offset : Nat) (r : Int) (buf' : Mem) (w' : World)
      (h : w.Reads env w')
      : Effect env w (.read objid buf size offset) ⟨r, some buf'⟩ w'

variable {env : Env} {w w' : World}

theorem World.Logged.reads {log : List Event} (h : w.Logged log) (htag : w.Tagged)
    : w.Reads env { w with log := log } :=
  ⟨rfl, htag, h, fun _ h => h⟩

theorem Op.Accepts.safe {op : Op} (h : op.Accepts w) : op.Safe := by
  have hid : ∀ (objid : Int), w.Live objid → objid < maxObjs + 2 := by
    rintro objid ⟨o, rfl, -⟩
    have := o.isLt
    unfold Slot.id
    omega
  cases op with
  | create key => exact h.lt
  | find key => exact h.lt
  | rename key newname => exact ⟨h.1.lt, h.2.lt⟩
  | destroy key => exact h.lt
  | write objid buf size offset => exact ⟨hid objid h.1, h.2.2.1⟩
  | read objid buf size offset => exact ⟨hid objid h.1, h.2⟩

theorem objstoreWrite_tooBig (o : Slot) (buf : Mem) (size offset : Nat) (hsize : maxSize < size)
    : objstoreWrite env o.id buf size offset w = .ok (-1, w) := by
  unfold objstoreWrite
  rw [if_neg o.id_ge, if_pos hsize]
  rfl

namespace Op

variable {r : Int} {key newname : CStr} {objid : Int} {buf buf' : Mem} {size offset : Nat}

theorem exec_create (h : createObject key w = .ok (r, w'))
    : (Op.create key).exec env w = .ok (⟨r, none⟩, w') := by
  simp only [exec, h, bind, Except.bind]
  rfl

theorem exec_rename (h : renameObject key newname w = (r, w'))
    : (Op.rename key newname).exec env w = .ok (⟨r, none⟩, w') := by
  simp only [exec, h]
  rfl

theorem exec_destroy (h : destroyObject env key w = .ok (r, w'))
    : (Op.destroy key).exec env w = .ok (⟨r, none⟩, w') := by
  simp only [exec, h, bind, Except.bind]
  rfl

theorem exec_write (h : objstoreWrite env objid buf size offset w = .ok (r, w'))
    : (Op.write objid buf size offset).exec env w = .ok (⟨r, none⟩, w') := by
  simp only [exec, h, bind, Except.bind]
  rfl

theorem exec_read (h : objstoreRead env objid buf size offset w = .ok (r, buf', w'))
    : (Op.read objid buf size offset).exec env w = .ok (⟨r, some buf'⟩, w') := by
  simp only [exec, h, bind, Except.bind]
  rfl

variable {reply : Reply}

theorem create_of_exec (h : (Op.create key).exec env w = .ok (reply, w'))
    : createObject key w = .ok (reply.value, w') := by
  obtain ⟨res, heq, h⟩ := Loop.bind_eq_ok.mp h
  cases h
  exact heq

theorem destroy_of_exec (h : (Op.destroy key).exec env w = .ok (reply, w'))
    : destroyObject env key w = .ok (reply.value, w') := by
  obtain ⟨res, heq, h⟩ := Loop.bind_eq_ok.mp h
  cases h
  exact heq

theorem write_of_exec (h : (Op.write objid buf size offset).exec env w = .ok (reply, w'))
    : objstoreWrite env objid buf size offset w = .ok (reply.value, w') := by
  obtain ⟨res, heq, h⟩ := Loop.bind_eq_ok.mp h
  cases h
  exact heq

theorem read_of_exec (h : (Op.read objid buf size offset).exec env w = .ok (reply, w'))
    : ∃ (buf' : Mem), reply = ⟨reply.value, some buf'⟩
        ∧ objstoreRead env objid buf size offset w = .ok (reply.value, buf', w') := by
  obtain ⟨res, heq, h⟩ := Loop.bind_eq_ok.mp h
  cases h
  exact ⟨_, rfl, heq⟩

end Op

theorem objstoreRead_returnsSize (hr : env.Reliable) (htag : w.Tagged) (o : Slot) (buf : Mem)
    (size offset : Nat) (hsize : size ≤ maxSize) (hfit : InBlock size offset)
    : ∃ (buf' : Mem) (w' : World), objstoreRead env o.id buf size offset w = .ok (size, buf', w') := by
  let job : Fetch := ⟨o, size, startBlock offset, offset % 4096, 0, hfit, by omega⟩
  have hpres : job.Present (w.view env) := by
    have hblocks : job.blocks = 0 := rfl
    refine ⟨?_, ?_⟩
    . intro t h1 h2
      omega
    . intro i h1
      omega
  obtain ⟨buf', w', heq, -⟩ := objstoreRead_bytes hr htag buf offset job hsize rfl rfl hpres
  exact ⟨_, _, heq⟩

theorem objstoreRead_returns (hr : env.Reliable) (htag : w.Tagged) (o : Slot) (buf : Mem)
    (size offset : Nat) (hfit : InBlock size offset)
    : ∃ (r : Int) (buf' : Mem) (w' : World),
        objstoreRead env o.id buf size offset w = .ok (r, buf', w') := by
  by_cases hsize : size ≤ maxSize
  . obtain ⟨buf', w', heq⟩ := objstoreRead_returnsSize hr htag o buf size offset hsize hfit
    exact ⟨_, _, _, heq⟩
  . refine ⟨-1, buf, (w.lock .rd).unlock .rd, ?_⟩
    unfold objstoreRead
    rw [if_neg o.id_ge, if_pos (by omega)]
    rfl

-- a write that needs more blocks than there are
def Op.Starves (env : Env) (w : World) : Op → Prop
  | .write objid _ size offset =>
    ∃ (o : Slot), objid = o.id ∧ size ≤ maxSize ∧ w.blkBmp.free < w.need env o size offset
  | _ => False

/-- The inversion of a call: it returns, and unless the store was full it has one of the effects. -/
theorem Op.exec_cases (hr : env.Reliable) (hok : w.Ok env) (op : Op) (hsafe : op.Safe)
    : ∃ (r : Reply) (w' : World), op.exec env w = .ok (r, w')
        ∧ ((w'.Exhausted ∧ op.Starves env w) ∨ Effect env w op r w') := by
  cases op with
  | create key =>
    cases createObject_cases w key hsafe with
    | inl h =>
      obtain ⟨log, heq, hlog, hfail⟩ := h
      exact ⟨_, _, exec_create heq, Or.inr (.createFailed key _ hfail (hlog.reads hok.tagged))⟩
    | inr h =>
      obtain ⟨o, log, hsize, hnew, heq, hlog⟩ := h
      refine ⟨_, _, exec_create heq, Or.inr (.created key o _ hsize hnew ?_)⟩
      exact ⟨rfl, rfl, rfl, hok.tagged, fun h => h⟩
  | find key => exact ⟨_, _, rfl, Or.inr (.found key)⟩
  | rename key newname =>
    cases renameObject_cases w key newname hsafe.1 hsafe.2 with
    | inl h =>
      obtain ⟨log, heq, hlog, hfail⟩ := h
      exact ⟨_, _, exec_rename heq, Or.inr (.renameFailed key newname _ hfail (hlog.reads hok.tagged))⟩
    | inr h =>
      obtain ⟨o, log, hname, hnew, heq, hlog⟩ := h
      refine ⟨_, _, exec_rename heq, Or.inr (.renamed key newname o _ hname hnew ?_)⟩
      exact ⟨rfl, rfl, rfl, hok.tagged, fun h => h⟩
  | destroy key =>
    by_cases hfound : ∃ (o : Slot), findObject key w = some o ∧ (w.objects o).size ≠ 0#64
    . obtain ⟨o, hfind, hsize⟩ := hfound
      obtain ⟨w', heq, h⟩ := destroyObject_found hr hok key o hfind hsize
      exact ⟨_, _, exec_destroy heq, Or.inr (.destroyed key o w' hfind hsize h)⟩
    . have hfail : findObject key w = none
          ∨ ∃ (o : Slot), findObject key w = some o ∧ (w.objects o).size = 0#64 := by
        generalize findObject key w = found at hfound ⊢
        cases found with
        | none => exact Or.inl rfl
        | some o =>
          refine Or.inr ⟨o, rfl, ?_⟩
          apply Classical.byContradiction
          intro hsize
          exact hfound ⟨o, rfl, hsize⟩
      exact ⟨_, _, exec_destroy (destroyObject_failed key hfail), Or.inr (.destroyFailed key hfail)⟩
  | write objid buf size offset =>
    obtain ⟨hid, hfit⟩ := hsafe
    by_cases hlow : objid < 2
    . have heq : objstoreWrite env objid buf size offset w = .ok (-1, w) :=
        objstoreWrite_noObject objid hlow buf size offset
      exact ⟨_, _, exec_write heq, Or.inr (.writeFailed objid buf size offset)⟩
    . obtain ⟨o, rfl⟩ := Slot.exists_id hlow hid
      by_cases hsize : size ≤ maxSize
      . obtain ⟨w', heq, htag, hcase⟩ := objstoreWrite_starves hr hok o buf size offset hsize hfit
        refine ⟨_, _, exec_write heq, ?_⟩
        cases hcase with
        | inl hstarved => exact Or.inl ⟨hstarved.1, o, rfl, hsize, hstarved.2⟩
        | inr h =>
          obtain ⟨hnoTable, v, hprog, hview⟩ := h
          exact Or.inr (.written o buf size offset hsize hfit w' v hprog hview htag hnoTable)
      . have heq : objstoreWrite env o.id buf size offset w = .ok (-1, w) :=
          objstoreWrite_tooBig o buf size offset (by omega)
        exact ⟨_, _, exec_write heq, Or.inr (.writeFailed o.id buf size offset)⟩
  | read objid buf size offset =>
    obtain ⟨hid, hfit⟩ := hsafe
    have hreturns : ∃ (r : Int) (buf' : Mem) (w' : World),
        objstoreRead env objid buf size offset w = .ok (r, buf', w') := by
      by_cases hlow : objid < 2
      . exact ⟨_, _, _, objstoreRead_noObject objid hlow buf size offset⟩
      . obtain ⟨o, rfl⟩ := Slot.exists_id hlow hid
        exact objstoreRead_returns hr hok.tagged o buf size offset hfit
    obtain ⟨r, buf', w', heq⟩ := hreturns
    have hreads := objstoreRead_reads hr hok.tagged objid buf size offset r buf' w' heq
    exact ⟨_, _, exec_read heq, Or.inr (.read objid buf size offset r buf' w' hreads)⟩

theorem Op.effect (hr : env.Reliable) (hok : w.Ok env) {op : Op} {r : Reply} (hsafe : op.Safe)
    (hexec : op.exec env w = .ok (r, w')) (hfree : ¬ w'.Exhausted)
    : Effect env w op r w' := by
  obtain ⟨r', w'', hexec', hcase⟩ := op.exec_cases hr hok hsafe
  rw [hexec] at hexec'
  cases hexec'
  cases hcase with
  | inl hfull => exact absurd hfull.1 hfree
  | inr heff => exact heff

theorem Op.effect_of_room (hr : env.Reliable) (hok : w.Ok env) {op : Op} {r : Reply} (hsafe : op.Safe)
    (hexec : op.exec env w = .ok (r, w')) (hroom : ¬ op.Starves env w)
    : Effect env w op r w' := by
  obtain ⟨r', w'', hexec', hcase⟩ := op.exec_cases hr hok hsafe
  rw [hexec] at hexec'
  cases hexec'
  cases hcase with
  | inl hfull => exact absurd hfull.2 hroom
  | inr heff => exact heff

theorem Step.effect (hr : env.Reliable) (hok : w.Ok env) {op : Op} {r : Reply}
    (h : Step env w (op, r) w')
    : Effect env w op r w' :=
  Op.effect hr hok h.1.safe h.2.1 h.2.2

namespace World.Edited

variable {o : Slot} {obj : Obj}

theorem objects_eq (h : World.Edited env o obj w w') : w'.objects = Function.update w.objects o obj :=
  congrArg View.objects h.view_eq

theorem cell_eq (h : World.Edited env o obj w w') (r : Ref)
    : (w'.view env).cell r = (w.view env).cell r := by
  rw [h.view_eq]
  exact View.cell_edit o obj h.direct_eq h.indirect_eq r

theorem ok (h : World.Edited env o obj w w') (hok : w.Ok env) : w'.Ok env where
  tagged := h.tagged
  noTable := h.noTable hok.noTable
  own := by
    rw [h.view_eq]
    exact hok.own.edit o obj h.direct_eq h.indirect_eq

end World.Edited

theorem World.Reads.ok (h : w.Reads env w') (hok : w.Ok env) : w'.Ok env where
  tagged := h.tagged
  noTable := h.noTable hok.own hok.noTable
  own := by
    rw [h.view_eq]
    exact hok.own

/-- Every call keeps the block ownership invariant. -/
theorem Effect.ok {op : Op} {r : Reply} (h : Effect env w op r w') (hok : w.Ok env) : w'.Ok env := by
  cases h with
  | createFailed key w' _ h => exact h.ok hok
  | created key o w' _ _ h => exact h.ok hok
  | found key => exact hok
  | renameFailed key newname w' _ h => exact h.ok hok
  | renamed key newname o w' _ _ h => exact h.ok hok
  | destroyFailed key _ => exact hok
  | destroyed key o w' _ _ h => exact h.ok hok
  | writeFailed objid buf size offset => exact hok
  | written o buf size offset hmax hfit w' v hprog hview htag hnoTable =>
    refine ⟨htag, hnoTable, ?_⟩
    rw [hview]
    exact hprog.own.edit o _ rfl rfl
  | read objid buf size offset r buf' w' h => exact h.ok hok

theorem Step.ok (hr : env.Reliable) (hok : w.Ok env) {c : Op × Reply} (h : Step env w c w')
    : w'.Ok env :=
  (Step.effect hr hok h).ok hok

end ObjStore
