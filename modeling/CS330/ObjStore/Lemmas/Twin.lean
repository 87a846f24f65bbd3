import CS330.ObjStore.Lemmas.Builds
import CS330.ObjStore.Lemmas.Frame
import CS330.ObjStore.Space

/-!
This module contains two stores side by side that are given the same calls, except that some of the writes bring
other bytes. Both keep the same names and sizes, and an object keeps the same contents in both as long as the
writes to it are the same and none of them leaves a part of a new block as it was found.
-/

namespace ObjStore

open View

-- The same call, up to the bytes of a write to one of the objects `ids`.
inductive Op.Twin (ids : Int → Prop) : Op → Op → Prop where
  | same (op : Op) : Twin ids op op
  | write (objid : Int) (hid : ids objid) (buf buf' : Mem) (size offset : Nat)
      : Twin ids (.write objid buf size offset) (.write objid buf' size offset)

/-- A call in each of the two stores. -/
structure TwinStep (env : Env) (ids : Int → Prop) (s : World × World) (c : (Op × Reply) × (Op × Reply))
    (s' : World × World) : Prop where
  twin : Op.Twin ids c.1.1 c.2.1
  left : RoomyStep env s.1 c.1 s'.1
  right : RoomyStep env s.2 c.2 s'.2

-- A write to the object in slot `o` that begins inside of a block finds that block.
def Op.Covers (env : Env) (w : World) (o : Slot) : Op → Prop
  | .write objid _ size offset => objid = o.id → size ≤ maxSize → startBlock offset < 4100
      → offset % blockSize ≠ 0 → (w.view env).ptr (dataRef o (startBlock offset)) ≠ 0#32
  | _ => True

/-- A call that is the same in both stores if it writes to the object in slot `o`, and covers what it writes there. -/
structure CoveredStep (env : Env) (o : Slot) (s : World × World) (c : (Op × Reply) × (Op × Reply))
    (s' : World × World) : Prop where
  step : TwinStep env (fun objid => objid ≠ o.id) s c s'
  covers : c.1.1.Covers env s.1 o

-- The invariants of one store.
structure World.Fit (env : Env) (w : World) : Prop where
  ok : w.Ok env
  table : Table w.objects
  tidy : Tidy w.objects

variable {env : Env} {w w' u u' : World} {o : Slot} {key newname : CStr}

theorem RoomyStep.fit (hr : env.Reliable) (hfit : w.Fit env) {c : Op × Reply} (h : RoomyStep env w c w')
    : w'.Fit env := by
  have heff := RoomyStep.effect hr hfit.ok h
  exact ⟨heff.ok hfit.ok, heff.table h.1 hfit.table, heff.tidy h.1 hfit.tidy⟩

/-! What the names and sizes decide. -/

namespace World.SameNames

theorem congr (h : w.SameNames u) (hw : w'.objects = w.objects) (hu : u'.objects = u.objects) : w'.SameNames u' := by
  unfold World.SameNames
  rw [hw, hu]
  exact h

theorem update (h : w.SameNames u) {obj obj' : Obj} (hw : w'.objects = Function.update w.objects o obj)
    (hu : u'.objects = Function.update u.objects o obj') (hsize : obj'.size = obj.size) (hkey : obj'.key = obj.key)
    : w'.SameNames u' := by
  intro o'
  rw [hw, hu]
  by_cases ho : o' = o
  . rw [ho, Function.update_self, Function.update_self]
    exact ⟨hsize, hkey⟩
  . rw [Function.update_of_ne ho, Function.update_of_ne ho]
    exact h o'

theorem keyEq_eq (h : w.SameNames u) (hkey : key.len < keySize) (o : Slot) : w.keyEq o key = u.keyEq o key := by
  rw [Bool.eq_iff_iff, w.keyEq_iff o key hkey, u.keyEq_iff o key hkey, h.name_eq]

theorem findObject_eq (h : w.SameNames u) (hkey : key.len < keySize) : findObject key w = findObject key u := by
  unfold findObject
  have heq : (fun o => w.keyEq o key) = (fun o => u.keyEq o key) := funext (h.keyEq_eq hkey)
  rw [heq]

end World.SameNames

theorem createObject.finish_value {found : Option (Option Slot)} {r : Int} (h : finish key w found = .ok (r, w'))
    : r = (found.bind id).elim (-1) Slot.id := by
  cases found with
  | none =>
    cases h
    rfl
  | some free =>
    cases free with
    | none =>
      cases h
      rfl
    | some o =>
      obtain ⟨objects, -, heq⟩ := Loop.bind_eq_ok.mp h
      cases heq
      rfl

theorem renameObject.finish_value (newname : CStr) (w : World) (found : Option (Option Slot))
    : (finish newname w found).1 = (found.bind id).elim (-1) Slot.id := by
  cases found with
  | none => rfl
  | some objIndex =>
    cases objIndex with
    | none => rfl
    | some o => rfl

theorem World.SameNames.createObject_eq (h : w.SameNames u) (hkey : key.len < keySize) {r r' : Int}
    (hw : createObject key w = .ok (r, w')) (hu : createObject key u = .ok (r', u'))
    : r = r' := by
  have hlock : (w.lock .objCl).SameNames (u.lock .objCl) := h
  have hscan := createObject.scan_congr (fun i => (hlock i).1.symm) (hlock.keyEq_eq hkey) (Loop.range maxObjs) none
  rw [createObject.finish_value hw, createObject.finish_value hu, hscan]

theorem World.SameNames.renameObject_eq (h : w.SameNames u) (hkey : key.len < keySize) (hnew : newname.len < keySize)
    : (renameObject key newname w).1 = (renameObject key newname u).1 := by
  have hlock : (w.lock .objCl).SameNames (u.lock .objCl) := h
  have hscan := renameObject.scan_congr (hlock.keyEq_eq hkey) (hlock.keyEq_eq hnew) (Loop.range maxObjs) none
  unfold renameObject
  rw [renameObject.finish_value, renameObject.finish_value, hscan]

/-! What a call returns, and the names and sizes after it. -/

-- a write that returns: it has done nothing, or it has got through
theorem RoomyStep.write_cases (hr : env.Reliable) (hok : w.Ok env) {objid : Int} {buf : Mem} {size offset : Nat}
    {r : Reply} (h : RoomyStep env w (.write objid buf size offset, r) w')
    : (maxSize < size ∧ r.value = -1 ∧ w' = w)
      ∨ ∃ (o : Slot) (hfit : InBlock size offset) (v : View), objid = o.id ∧ size ≤ maxSize ∧ r.value = size
        ∧ (Job.ofWrite o buf size offset hfit).Progress (w.view env) v 4100
        ∧ w'.view env = v.finish o (BitVec.ofNat 64 (offset + size)) := by
  obtain ⟨⟨o, rfl, -⟩, -, hfit, -⟩ := h.1
  have hwrite := Op.write_of_exec h.2.1
  have hvalue := objstoreWrite_reports hr hok o buf size offset r.value w' hwrite
  by_cases hsize : size ≤ maxSize
  . rw [if_pos hsize] at hvalue
    obtain ⟨-, -, v, hprog, hview⟩ := h.written hr hok hsize hfit
    exact .inr ⟨o, hfit, v, rfl, hsize, hvalue, hprog, hview⟩
  . rw [if_neg hsize] at hvalue
    rw [objstoreWrite_tooBig o buf size offset (by omega)] at hwrite
    exact .inl ⟨by omega, hvalue, (Prod.mk.inj (Except.ok.inj hwrite)).2.symm⟩

theorem Effect.written_key {buf : Mem} {size offset : Nat} {hfit : InBlock size offset} {v : View}
    (hprog : (Job.ofWrite o buf size offset hfit).Progress (w.view env) v 4100)
    (hview : w'.view env = v.finish o (BitVec.ofNat 64 (offset + size)))
    : (w'.objects o).key = (w.objects o).key := by
  have hobj : w'.objects = (v.finish o (BitVec.ofNat 64 (offset + size))).objects :=
    congrArg View.objects hview
  rw [hobj]
  simp only [View.finish, View.edit, View.setObj, Function.update_self]
  exact hprog.key_eq

theorem World.SameNames.written (h : w.SameNames u) {buf buf' : Mem} {size offset : Nat} {hfit : InBlock size offset}
    {v v' : View} (hprog : (Job.ofWrite o buf size offset hfit).Progress (w.view env) v 4100)
    (hview : w'.view env = v.finish o (BitVec.ofNat 64 (offset + size)))
    (hprog' : (Job.ofWrite o buf' size offset hfit).Progress (u.view env) v' 4100)
    (hview' : u'.view env = v'.finish o (BitVec.ofNat 64 (offset + size)))
    : w'.SameNames u' := by
  obtain ⟨hother, -, hsize⟩ := Effect.written_objects hprog hview
  obtain ⟨hother', -, hsize'⟩ := Effect.written_objects hprog' hview'
  intro o'
  by_cases ho : o' = o
  . rw [ho, hsize, hsize', Effect.written_key hprog hview, Effect.written_key hprog' hview']
    exact ⟨rfl, (h o).2⟩
  . rw [hother o' ho, hother' o' ho]
    exact h o'

theorem not_refused {found : Option Slot} (hfound : found = some o) (hsize : (w.objects o).size ≠ 0#64)
    : ¬ (found = none ∨ ∃ (o' : Slot), found = some o' ∧ (w.objects o').size = 0#64) := by
  rintro (hnone | ⟨o', hfound', hzero⟩)
  . rw [hfound] at hnone
    cases hnone
  . rw [hfound] at hfound'
    cases hfound'
    exact hsize hzero

namespace TwinStep

variable {ids : Int → Prop} {op : Op} {r r' : Reply}

theorem created_eq (hnames : w.SameNames u) (h : TwinStep env ids (w, u) ((.create key, r), (.create key, r')) (w', u'))
    : r.value = r'.value :=
  hnames.createObject_eq h.left.1.lt (Op.create_of_exec h.left.2.1) (Op.create_of_exec h.right.2.1)

theorem sameNames_write (hr : env.Reliable) (hok : w.Ok env) (hok' : u.Ok env) (hnames : w.SameNames u) {objid : Int}
    {buf buf' : Mem} {size offset : Nat} (h : RoomyStep env w (.write objid buf size offset, r) w')
    (h' : RoomyStep env u (.write objid buf' size offset, r') u')
    : w'.SameNames u' := by
  rcases h.write_cases hr hok with ⟨hbig, -, rfl⟩ | ⟨o, hfit, v, rfl, hsize, -, hprog, hview⟩
  . rcases h'.write_cases hr hok' with ⟨-, -, rfl⟩ | ⟨o, -, v, -, hsize, -⟩
    . exact hnames
    . omega
  . rcases h'.write_cases hr hok' with ⟨hbig, -⟩ | ⟨o', _, v', hid, -, -, hprog', hview'⟩
    . omega
    . have := Slot.id_inj hid
      subst this
      exact hnames.written hprog hview hprog' hview'

-- `destroy_object` finds the object in both stores or in none of them.
theorem destroy_cases (hnames : w.SameNames u) (hkey : key.len < keySize) (h : Effect env w (.destroy key) r w')
    (h' : Effect env u (.destroy key) r' u')
    : (w' = w ∧ u' = u)
      ∨ ∃ (o : Slot), findObject key w = some o ∧ w.Destroyed env o w' ∧ u.Destroyed env o u' := by
  have hfound := hnames.findObject_eq hkey
  cases h with
  | destroyFailed key hfail =>
    cases h' with
    | destroyFailed key _ => exact .inl ⟨rfl, rfl⟩
    | destroyed key o u' hfind hsize hgone' =>
      rw [(hnames o).1] at hsize
      exact absurd hfail (not_refused (hfound.trans hfind) hsize)
  | destroyed key o w' hfind hsize hgone =>
    cases h' with
    | destroyFailed key hfail' =>
      rw [← (hnames o).1] at hsize
      exact absurd hfail' (not_refused (hfound.symm.trans hfind) hsize)
    | destroyed key o' u' hfind' _ hgone' =>
      rw [hfound, hfind'] at hfind
      cases hfind
      exact .inr ⟨o, hfound.trans hfind', hgone, hgone'⟩

theorem sameNames_same (hr : env.Reliable) (hok : w.Ok env) (hok' : u.Ok env) (hnames : w.SameNames u)
    (h : RoomyStep env w (op, r) w') (h' : RoomyStep env u (op, r') u')
    : w'.SameNames u' := by
  cases op with
  | create key =>
    have hvalue := hnames.createObject_eq h.1.lt (Op.create_of_exec h.2.1) (Op.create_of_exec h'.2.1)
    cases h.effect hr hok with
    | createFailed key w' _ hreads =>
      cases h'.effect hr hok' with
      | createFailed key u' _ hreads' => exact hnames.congr hreads.objects_eq hreads'.objects_eq
      | created key o u' _ _ hedit' =>
        have := o.id_ge
        simp only at hvalue
        omega
    | created key o w' _ _ hedit =>
      cases h'.effect hr hok' with
      | createFailed key u' _ hreads' =>
        have := o.id_ge
        simp only at hvalue
        omega
      | created key o' u' _ _ hedit' =>
        have := Slot.id_inj hvalue
        subst this
        apply hnames.update hedit.objects_eq hedit'.objects_eq rfl
        simp only [createObject.fresh, (hnames o).2]
  | find key =>
    cases h.2.1
    cases h'.2.1
    exact hnames
  | rename key newname =>
    have hvalue : r.value = r'.value := by
      have hleft := congrArg (fun p => p.1.value) (Except.ok.inj h.2.1)
      have hright := congrArg (fun p => p.1.value) (Except.ok.inj h'.2.1)
      exact hleft.symm.trans ((hnames.renameObject_eq h.1.1.lt h.1.2.lt).trans hright)
    cases h.effect hr hok with
    | renameFailed key newname w' _ hreads =>
      cases h'.effect hr hok' with
      | renameFailed key newname u' _ hreads' => exact hnames.congr hreads.objects_eq hreads'.objects_eq
      | renamed key newname o u' _ _ hedit' =>
        have := o.id_ge
        simp only at hvalue
        omega
    | renamed key newname o w' _ _ hedit =>
      cases h'.effect hr hok' with
      | renameFailed key newname u' _ hreads' =>
        have := o.id_ge
        simp only at hvalue
        omega
      | renamed key newname o' u' _ _ hedit' =>
        have := Slot.id_inj hvalue
        subst this
        exact hnames.update hedit.objects_eq hedit'.objects_eq (hnames o).1 rfl
  | destroy key =>
    rcases destroy_cases hnames h.1.lt (h.effect hr hok) (h'.effect hr hok') with ⟨rfl, rfl⟩ | ⟨o, -, hgone, hgone'⟩
    . exact hnames
    . exact hnames.update hgone.objects_eq hgone'.objects_eq rfl rfl
  | write objid buf size offset => exact sameNames_write hr hok hok' hnames h h'
  | read objid buf size offset =>
    cases h.effect hr hok with
    | read objid buf size offset v buf₁ w' hreads =>
      cases h'.effect hr hok' with
      | read objid buf size offset v' buf₂ u' hreads' => exact hnames.congr hreads.objects_eq hreads'.objects_eq

theorem sameNames (hr : env.Reliable) (hok : w.Ok env) (hok' : u.Ok env) (hnames : w.SameNames u) {op' : Op}
    (h : TwinStep env ids (w, u) ((op, r), (op', r')) (w', u'))
    : w'.SameNames u' := by
  obtain ⟨htwin, hleft, hright⟩ := h
  cases htwin with
  | same => exact sameNames_same hr hok hok' hnames hleft hright
  | write objid hid buf buf' size offset => exact sameNames_write hr hok hok' hnames hleft hright

end TwinStep

/-! What an object holds after a call. -/

namespace View.SameContents

variable {v v' v₁ v₁' : View}

theorem symm (h : SameContents o v v') : SameContents o v' v :=
  ⟨fun i => (h.indirect_iff i).symm, fun r hr ho => (h.cell_eq r hr ho).symm⟩

theorem trans (h : SameContents o v v') (h' : SameContents o v' v₁) : SameContents o v v₁ :=
  ⟨fun i => (h.indirect_iff i).trans (h'.indirect_iff i), fun r hr ho => (h.cell_eq r hr ho).trans (h'.cell_eq r hr ho)⟩

theorem of_free (h : ∀ (r : Ref), r.slot = o → v.ptr r = 0#32) (h' : ∀ (r : Ref), r.slot = o → v'.ptr r = 0#32)
    : SameContents o v v' where
  indirect_iff := by
    intro i
    exact iff_of_true (h (.indirect o i) rfl) (h' (.indirect o i) rfl)
  cell_eq := by
    intro r _ ho
    rw [cell_eq_none.mpr (h r ho), cell_eq_none.mpr (h' r ho)]

theorem finish (h : SameContents o v v') (n n' : BitVec 64) : SameContents o (v.finish o n) (v'.finish o n') where
  indirect_iff := by
    intro i
    simp only [View.finish, View.edit, View.setObj, Function.update_self]
    exact h.indirect_iff i
  cell_eq := by
    intro r hr ho
    rw [cell_finish, cell_finish]
    exact h.cell_eq r hr ho

end View.SameContents

theorem View.exists_dataRef (r : Ref) (hr : r.isData = true) (ho : r.slot = o)
    : ∃ (t : Nat), t < 4100 ∧ r = dataRef o t := by
  subst ho
  cases r with
  | direct o i => exact ⟨i, by omega, (dataRef_direct o i).symm⟩
  | indirect o i => cases hr
  | entry o i j => exact ⟨4 + 1024 * i + j, by omega, (dataRef_entry o i j).symm⟩

namespace Job

variable {job : Job} {v₀ v₀' v v' : View}

theorem Progress.indirect_mono (h : job.Progress v₀ v 4100) (h' : job.Progress v₀' v' 4100)
    (hsame : SameContents job.o v₀ v₀') (i : Fin 4) (hi : (v.objects job.o).indirect i ≠ 0#32)
    : (v'.objects job.o).indirect i ≠ 0#32 := by
  cases h.indirect_rest i hi with
  | inl hold =>
    have hold' : (v₀'.objects job.o).indirect i ≠ 0#32 := fun h0 => hold ((hsame.indirect_iff i).mpr h0)
    rw [h'.indirect_old i hold']
    exact hold'
  | inr hneed => exact h'.indirect_new i (by omega) hneed

-- With a shift the first block is the only one.
theorem Touched.eq_start (hshift : 0 < job.shift) {t : Nat} (h : job.Touched t) : t = job.start := by
  obtain ⟨hle, hlt⟩ := h
  have := job.fit
  omega

theorem Written.eq (hcovers : 0 < job.shift → v₀.ptr (dataRef job.o job.start) ≠ 0#32)
    (hsame : SameContents job.o v₀ v₀') {t : Nat} (htouched : job.Touched t) {blk blk' : Block}
    (h : job.Written v₀ t blk) (h' : job.Written v₀' t blk')
    : blk = blk' := by
  funext q
  by_cases hin : job.pos ≤ 4096 * t + q ∧ 4096 * t + q < job.pos + job.size
  . rw [h.new q hin.1 hin.2, h'.new q hin.1 hin.2]
  . by_cases hshift : 0 < job.shift
    . have hcell := v₀.cell_eq _ (hcovers hshift)
      have hcell' := hsame.cell_eq _ (dataRef_isData job.o job.start) (dataRef_slot job.o job.start)
      rw [← htouched.eq_start hshift] at hcell hcell'
      rw [h.old hshift q hin _ hcell, h'.old hshift q hin _ (hcell'.symm.trans hcell)]
    . rw [h.tail (by omega) q hin, h'.tail (by omega) q hin]

theorem Progress.sameContents (h : job.Progress v₀ v 4100) (h' : job.Progress v₀' v' 4100)
    (hsame : SameContents job.o v₀ v₀')
    (hcovers : 0 < job.shift → job.start < 4100 → v₀.ptr (dataRef job.o job.start) ≠ 0#32)
    : SameContents job.o v v' where
  indirect_iff := by
    intro i
    rw [← not_iff_not]
    exact ⟨h.indirect_mono h' hsame i, h'.indirect_mono h hsame.symm i⟩
  cell_eq := by
    intro r hr ho
    obtain ⟨t, ht, rfl⟩ := exists_dataRef r hr ho
    by_cases htouched : job.Touched t
    . obtain ⟨blk, hcell, hw⟩ := h.written t ht htouched
      obtain ⟨blk', hcell', hw'⟩ := h'.written t ht htouched
      have hstart : job.start < 4100 := by
        have := htouched.1
        omega
      rw [hcell, hcell', hw.eq (fun hshift => hcovers hshift hstart) hsame htouched hw']
    . have hout : ∀ (s : Nat), s < 4100 → job.Touched s → dataRef job.o t ≠ dataRef job.o s := by
        intro s hs hs' heq
        rw [dataRef_inj ht hs heq] at htouched
        exact htouched hs'
      rw [h.frame _ hr hout, h'.frame _ hr hout]
      exact hsame.cell_eq _ hr ho

end Job

theorem World.Destroyed.sameContents (h : w.Destroyed env o w') (h' : u.Destroyed env o u')
    : SameContents o (w'.view env) (u'.view env) := by
  apply SameContents.of_free
  . intro r hr
    rw [h.ptr_eq, if_pos hr]
  . intro r hr
    rw [h'.ptr_eq, if_pos hr]

namespace CoveredStep

variable {op : Op} {r r' : Reply}

theorem sameContents_write (hr : env.Reliable) (hok : w.Ok env) (hok' : u.Ok env)
    (hsame : SameContents o (w.view env) (u.view env)) {buf : Mem} {size offset : Nat}
    (h : RoomyStep env w (.write o.id buf size offset, r) w')
    (h' : RoomyStep env u (.write o.id buf size offset, r') u')
    (hcovers : (Op.write o.id buf size offset).Covers env w o)
    : SameContents o (w'.view env) (u'.view env) := by
  rcases h.write_cases hr hok with ⟨hbig, -, rfl⟩ | ⟨o₁, hfit, v, hid, hsize, -, hprog, hview⟩
  . rcases h'.write_cases hr hok' with ⟨-, -, rfl⟩ | ⟨o₂, _, v, -, hsize, -⟩
    . exact hsame
    . omega
  . rcases h'.write_cases hr hok' with ⟨hbig, -⟩ | ⟨o₂, _, v', hid', -, -, hprog', hview'⟩
    . omega
    . have h₁ := Slot.id_inj hid
      have h₂ := Slot.id_inj hid'
      subst h₁ h₂
      rw [hview, hview']
      apply SameContents.finish
      apply hprog.sameContents hprog' hsame
      intro hshift hstart
      exact hcovers rfl hsize hstart (Nat.ne_of_gt hshift)

theorem sameContents_same (hr : env.Reliable) (hok : w.Ok env) (hok' : u.Ok env) (hnames : w.SameNames u)
    (hsame : SameContents o (w.view env) (u.view env)) (h : RoomyStep env w (op, r) w')
    (h' : RoomyStep env u (op, r') u') (hcovers : op.Covers env w o)
    : SameContents o (w'.view env) (u'.view env) := by
  have heff := h.effect hr hok
  have heff' := h'.effect hr hok'
  by_cases hspares : op.Spares w o
  . have hspares' : op.Spares u o := by
      cases op with
      | destroy key =>
        intro hfind
        exact hspares ((hnames.findObject_eq h.1.lt).trans hfind)
      | _ => exact hspares
    exact (heff.sameContents o hspares).symm.trans (hsame.trans (heff'.sameContents o hspares'))
  . -- a call that does not spare the object destroys it or writes to it
    cases op with
    | create key => exact absurd trivial hspares
    | find key => exact absurd trivial hspares
    | rename key newname => exact absurd trivial hspares
    | read objid buf size offset => exact absurd trivial hspares
    | destroy key =>
      have hfind : findObject key w = some o := Classical.not_not.mp hspares
      rcases TwinStep.destroy_cases hnames h.1.lt heff heff' with ⟨rfl, rfl⟩ | ⟨o', hfind', hgone, hgone'⟩
      . exact hsame
      . rw [hfind] at hfind'
        cases hfind'
        exact hgone.sameContents hgone'
    | write objid buf size offset =>
      have hid : objid = o.id := Classical.not_not.mp hspares
      subst hid
      exact sameContents_write hr hok hok' hsame h h' hcovers

theorem sameContents (hr : env.Reliable) (hok : w.Ok env) (hok' : u.Ok env) (hnames : w.SameNames u)
    (hsame : SameContents o (w.view env) (u.view env)) {op' : Op}
    (h : CoveredStep env o (w, u) ((op, r), (op', r')) (w', u'))
    : SameContents o (w'.view env) (u'.view env) := by
  obtain ⟨⟨htwin, hleft, hright⟩, hcovers⟩ := h
  cases htwin with
  | same => exact sameContents_same hr hok hok' hnames hsame hleft hright hcovers
  | write objid hid buf buf' size offset =>
    have heff := (RoomyStep.effect hr hok hleft).sameContents o hid
    have heff' := (RoomyStep.effect hr hok' hright).sameContents o hid
    exact heff.symm.trans (hsame.trans heff')

end CoveredStep

end ObjStore
