import CS330.ObjStore.Keys
import CS330.ObjStore.Lemmas.Twin

/-!
This module contains what can still be read of an object that is gone. Freed blocks are handed out again as they are,
and a write that begins inside of a new block keeps what is in front of it. Objects without such writes do not show
what was in the store before them.
-/

namespace ObjStore

open View

-- Reads of the object in slot `o` return the same in both stores, whatever buffer they are given.
def SameReads (env : Env) (o : Slot) (s : World × World) : Prop :=
  ∀ (buf : Mem) (size offset : Nat),
    Except.map (fun res => (res.1, res.2.1)) (objstoreRead env o.id buf size offset s.1)
      = Except.map (fun res => (res.1, res.2.1)) (objstoreRead env o.id buf size offset s.2)

structure Twins (env : Env) (s : World × World) : Prop where
  left : s.1.Fit env
  right : s.2.Fit env
  names : s.1.SameNames s.2

variable {env : Env} {w w' w₀ : World} {s s' : World × World} {o : Slot} {key : CStr} {disk : BlockNo → Block}

theorem fit_mount (hr : env.Reliable) (hsound : Sound disk) (htidy : Tidy (diskObj disk))
    (hmount : objstoreInit env (World.ofDisk disk) = .ok (0, w₀))
    : w₀.Fit env := by
  obtain ⟨w₀', hmount', hmounted⟩ := objstoreInit_spec hr (World.ofDisk disk)
  rw [hmount] at hmount'
  cases hmount'
  refine ⟨roomy_ok hr hsound.own hmount .nil, ?_, ?_⟩
  . rw [hmounted.objects_eq]
    exact hsound.table
  . rw [hmounted.objects_eq]
    exact htidy

namespace Twins

theorem refl (h : w.Fit env) : Twins env (w, w) :=
  ⟨h, h, .of_objects rfl⟩

theorem step (hr : env.Reliable) {ids : Int → Prop} {c : (Op × Reply) × (Op × Reply)} (h : Twins env s)
    (hstep : TwinStep env ids s c s')
    : Twins env s' where
  left := hstep.left.fit hr h.left
  right := hstep.right.fit hr h.right
  names := TwinStep.sameNames hr h.left.ok h.right.ok h.names hstep

-- A new object has no blocks yet, in both stores.
theorem created (hr : env.Reliable) {ids : Int → Prop} {r : Reply} (h : Twins env s)
    (hstep : TwinStep env ids s ((.create key, ⟨o.id, none⟩), (.create key, r)) s')
    : SameContents o (s'.1.view env) (s'.2.view env) := by
  obtain ⟨hsize, hedit⟩ := hstep.left.created hr h.left.ok
  have hvalue := TwinStep.created_eq h.names hstep
  have hsame : SameContents o (s.1.view env) (s.2.view env) := by
    apply SameContents.of_free
    . exact h.left.tidy.ptr_free hsize
    . have hsize' : (s.2.objects o).size = 0#64 := by
        rw [(h.names o).1]
        exact hsize
      exact h.right.tidy.ptr_free hsize'
  have hright := (hstep.right.effect hr h.right.ok).sameContents o trivial
  exact (hedit.sameContents o).symm.trans (hsame.trans hright)

theorem sameReads (hr : env.Reliable) (h : Twins env s) (hsame : SameContents o (s.1.view env) (s.2.view env))
    : SameReads env o s := by
  intro buf size offset
  have hrel := objstoreRead_rel hr hr h.left.ok.tagged h.right.ok.tagged o.id buf size offset (by
    intro o' hid
    rw [← Slot.id_inj hid]
    exact hsame)
  generalize objstoreRead env o.id buf size offset s.1 = x at hrel ⊢
  generalize objstoreRead env o.id buf size offset s.2 = y at hrel ⊢
  cases hrel with
  | ok hab => exact congrArg Except.ok (Prod.ext hab.1 hab.2.1)
  | error e => rfl

end Twins

/-! A freed block that is handed out again. -/

-- No object of the store has a block.
def View.Bare (v : View) : Prop :=
  ∀ (r : Ref), v.ptr r = 0#32

def firstSlot : Slot :=
  ⟨0, by decide⟩

namespace View.Bare

variable {v : View}

theorem used_iff (h : v.Bare) (hown : v.Own) (b : BlockNo) : v.Used b ↔ b.toNat < resBlocks := by
  rw [hown.used_iff]
  constructor
  . rintro (hres | ⟨r, hptr, -⟩)
    . exact hres
    . rw [h r] at hptr
      rw [← hptr]
      decide
  . exact .inl

end View.Bare

-- The first block behind the tables is the one that is taken.
theorem allocBlock_bare (hbare : (w.view env).Bare) (hown : (w.view env).Own)
    : (allocBlock w).1 = 20256#32 ∧ w.Spare := by
  have hused := hbare.used_iff hown
  have hbit : ∀ (b : BlockNo), w.blkBmp.bit b.toNat = decide (b.toNat < resBlocks) := by
    intro b
    rw [Bool.eq_iff_iff, decide_eq_true_iff]
    exact hused b
  have hfirst : w.blkBmp.bit 20256 = false := hbit 20256#32
  refine ⟨?_, 20256, by decide, by decide, hfirst⟩
  cases allocBlock_cases w with
  | inl hsome =>
    obtain ⟨b, log, -, -, hfree, hbelow, heq, -⟩ := hsome
    rw [heq]
    rw [hbit, decide_eq_false_iff_not] at hfree
    apply BitVec.eq_of_toNat_eq
    apply Nat.le_antisymm
    . apply Nat.le_of_not_lt
      intro hlt
      rw [hbelow 20256 (by decide) hlt] at hfirst
      cases hfirst
    . exact Nat.le_of_not_lt hfree
  | inr hnone =>
    obtain ⟨log, hfull, -⟩ := hnone
    rw [hfull 20256 (by decide) (by decide)] at hfirst
    cases hfirst

theorem updateBlock_bare (hr : env.Reliable) (htag : w.Tagged) (hbare : (w.view env).Bare) (hown : (w.view env).Own)
    (buf : Mem) (size : Nat) (x : Xfer) (hx : 0 < x.remaining) (temp : Block) (htemp : x.temp = some temp)
    (hfit : x.shift + curSize x.remaining ≤ blockSize)
    : ∃ (w' : World),
        updateBlock env buf size 0#32 x w
          = .ok (0, 20256#32, x.advance (chunk buf size x ((w.view env).data 20256#32) temp), w')
        ∧ w'.objects = w.objects
        ∧ (w'.view env).data 20256#32 = chunk buf size x ((w.view env).data 20256#32) temp := by
  obtain ⟨hfirst, hspare⟩ := allocBlock_bare hbare hown
  obtain ⟨b, log, hne, halloc, -⟩ := allocBlock_spare hspare
  rw [halloc] at hfirst
  simp only at hfirst
  subst hfirst
  have hover : ¬ blockSize < x.shift + curSize x.remaining := by omega
  obtain ⟨w₁, w', hread, hwrite, hview, -⟩ := updateBlock_fill hr (w := { w with
    blkBmp := w.blkBmp.set (20256#32).toNat, log := log }) htag buf size 20256#32 hne x temp
  have hdata := congrFun (congrArg View.data hview) 20256#32
  simp only [View.setData, Function.update_self] at hdata
  refine ⟨w', ?_, congrArg View.objects hview, hdata⟩
  unfold updateBlock
  simp only [hx, ↓reduceIte, htemp, hover, halloc, hread]
  rw [← chunk, hwrite]
  rfl

theorem World.Spare.free_pos (h : w.Spare) : 0 < w.blkBmp.free := by
  obtain ⟨m, -, hlt, hclear⟩ := h
  have := Bitmap.free_set w.blkBmp m hlt hclear
  omega

theorem exists_first (hzero : ∀ (o : Slot), w.objects o = Obj.zero) (hkey : key.Short)
    : ∃ (w' : World), RoomyStep env w (.create key, ⟨firstSlot.id, none⟩) w'
        ∧ w'.objects = Function.update w.objects firstSlot (createObject.fresh key Obj.zero)
        ∧ (w'.view env).data = (w.view env).data := by
  have hscan : createObject.scan (w.lock .objCl) key (Loop.range maxObjs) none = some (some firstSlot) := by
    rw [createObject.scan_eq_some]
    refine ⟨⟨congrArg Obj.size (hzero firstSlot), ?_⟩, ?_⟩
    . intro j hj
      exact absurd hj (Nat.not_lt_zero j.val)
    . intro j _
      rw [← Bool.not_eq_true, World.keyEq_iff _ _ _ hkey.lt]
      intro hname
      have hname' : (w.objects j).name = key.chars := hname
      rw [hzero j, Table.zero_name] at hname'
      exact hkey.chars_ne_nil hname'.symm
  cases createObject_cases w key hkey.lt with
  | inl h =>
    obtain ⟨log, hcreate, -⟩ := h
    have hvalue := createObject.finish_value hcreate
    rw [hscan] at hvalue
    cases hvalue
  | inr h =>
    obtain ⟨o, log, -, -, hcreate, -⟩ := h
    have hvalue := createObject.finish_value hcreate
    rw [hscan] at hvalue
    have := Slot.id_inj hvalue
    subst this
    refine ⟨_, ⟨hkey, Op.exec_create hcreate, fun hstarves => hstarves⟩, ?_, rfl⟩
    simp only [hzero]

-- One byte, written to an object that has no block in a store where no object has one.
theorem exists_byte (hr : env.Reliable) (hfit : w.Fit env) (hbare : (w.view env).Bare) (o : Slot)
    (hlive : (w.objects o).size ≠ 0#64) (buf : Mem) (offset : Nat) (hoff : offset < 4096)
    : ∃ (w' : World), RoomyStep env w (.write o.id buf 1 offset, ⟨1, none⟩) w'
        ∧ w'.objects = Function.update w.objects o { w.objects o with
            size := BitVec.ofNat 64 (offset + 1)
            direct := Function.update (w.objects o).direct 0 20256#32 }
        ∧ (w'.view env).data 20256#32 = chunk buf 1 (Xfer.start 1 offset (some (Buf.zero blockSize)))
            ((w.view env).data 20256#32) (Buf.zero blockSize) := by
  let x : Xfer := Xfer.start 1 offset (some (Buf.zero blockSize))
  have hshift : x.shift = offset := Nat.mod_eq_of_lt hoff
  have hstart : startBlock offset = 0 := by
    unfold startBlock
    simp only [blockSize]
    omega
  have hin : x.shift + curSize x.remaining ≤ blockSize := by
    rw [hshift]
    exact hoff
  obtain ⟨w₁, hupdate, hobj, hdata⟩ := updateBlock_bare hr (w := w.emit (.cmalloc true)) hfit.ok.tagged hbare
    hfit.ok.own buf 1 x Nat.zero_lt_one (Buf.zero blockSize) rfl hin
  have hnull : (w.objects o).direct 0 = 0#32 := hbare (.direct o 0)
  have hwrite := objstoreWrite_single hr o buf 1 offset (by decide) hstart (w := w)
    (by rw [hnull]; exact hupdate) rfl
  refine ⟨_, ⟨⟨⟨o, rfl, hlive⟩, Nat.le_refl 1, ?_, ?_⟩, Op.exec_write hwrite, ?_⟩, ?_, hdata⟩
  . unfold InBlock
    simp only [blockSize]
    omega
  . omega
  . rintro ⟨o', -, -, hlt⟩
    have hneed := w.need_le_one env o' 1 offset (by decide) (by omega)
    have hfree := (allocBlock_bare hbare hfit.ok.own).2.free_pos
    omega
  . simp only [hobj]
    rfl

theorem RoomyStep.bare_created (hr : env.Reliable) (hok : w.Ok env) (hbare : (w.view env).Bare)
    (h : RoomyStep env w (.create key, ⟨o.id, none⟩) w')
    : (w'.view env).Bare := by
  obtain ⟨-, hedit⟩ := h.created hr hok
  intro r
  rw [hedit.view_eq, View.ptr_edit o _ hedit.direct_eq hedit.indirect_eq]
  exact hbare r

theorem exists_destroyed (hr : env.Reliable) (hfit : w.Fit env) (hlive : (w.objects o).size ≠ 0#64)
    (hname : (w.objects o).name = key.chars) (hkey : key.Short)
    : ∃ (w' : World), RoomyStep env w (.destroy key, ⟨0, none⟩) w' ∧ w.Destroyed env o w' := by
  have hfind := (hfit.table.findObject_iff key hkey o).mpr hname
  obtain ⟨w', hdestroy, hgone⟩ := destroyObject_found hr hfit.ok key o hfind hlive
  exact ⟨w', ⟨hkey, Op.exec_destroy hdestroy, fun hstarves => hstarves⟩, hgone⟩

/--
An object is created in an empty store, given the byte `c` and destroyed, and another one is created: the block that
will be its first one holds `c`.
-/
theorem exists_recycled (hr : env.Reliable) (hfit : w₀.Fit env) (hzero : ∀ (o : Slot), w₀.objects o = Obj.zero)
    (c : Byte)
    : ∃ (w₁ w₂ w₃ w₄ : World),
        RoomyStep env w₀ (.create keyA, ⟨firstSlot.id, none⟩) w₁
        ∧ RoomyStep env w₁ (.write firstSlot.id (fun _ => c) 1 0, ⟨1, none⟩) w₂
        ∧ RoomyStep env w₂ (.destroy keyA, ⟨0, none⟩) w₃
        ∧ RoomyStep env w₃ (.create keyB, ⟨firstSlot.id, none⟩) w₄
        ∧ w₄.Fit env ∧ (w₄.view env).Bare ∧ (w₄.objects firstSlot).size ≠ 0#64
        ∧ (w₄.view env).data 20256#32 ⟨0, by decide⟩ = c := by
  obtain ⟨w₁, hcreate, hobj₁, -⟩ := exists_first hzero keyA_short
  have hfit₁ := hcreate.fit hr hfit
  have hbare₁ := hcreate.bare_created hr hfit.ok (View.ptr_of_zero hzero)
  have hsame₁ : w₁.objects firstSlot = createObject.fresh keyA Obj.zero := by
    rw [hobj₁, Function.update_self]
  obtain ⟨w₂, hwrite, hobj₂, hdata₂⟩ := exists_byte hr hfit₁ hbare₁ firstSlot (by rw [hsame₁]; decide)
    (fun _ => c) 0 (by decide)
  have hfit₂ := hwrite.fit hr hfit₁
  have hlive₂ : (w₂.objects firstSlot).size ≠ 0#64 := by
    rw [hobj₂, Function.update_self]
    exact (by decide : BitVec.ofNat 64 (0 + 1) ≠ 0#64)
  have hname₂ : (w₂.objects firstSlot).name = keyA.chars := by
    rw [hobj₂, Function.update_self, hsame₁]
    exact createObject.fresh_name keyA keyA_short.lt Obj.zero
  obtain ⟨w₃, hdestroy, hgone⟩ := exists_destroyed hr hfit₂ hlive₂ hname₂ keyA_short
  have hfit₃ := hdestroy.fit hr hfit₂
  have hzero₃ : ∀ (o : Slot), w₃.objects o = Obj.zero := by
    intro o
    rw [hgone.objects_eq, hobj₂, hobj₁]
    by_cases ho : o = firstSlot
    . rw [ho, Function.update_self]
    . rw [Function.update_of_ne ho, Function.update_of_ne ho, Function.update_of_ne ho, hzero]
  obtain ⟨w₄, hcreate', hobj₄, hdata₄⟩ := @exists_first env w₃ keyB hzero₃ keyB_short
  refine ⟨w₁, w₂, w₃, w₄, hcreate, hwrite, hdestroy, hcreate', hcreate'.fit hr hfit₃,
    hcreate'.bare_created hr hfit₃.ok (View.ptr_of_zero hzero₃), ?_, ?_⟩
  . rw [hobj₄, Function.update_self]
    decide
  . rw [hdata₄, hgone.data_eq, hdata₂]
    rfl

-- The same call, with the same result, in both stores; `op'` may differ from `op` in the bytes it writes.
def both (op op' : Op) (value : Int) : (Op × Reply) × (Op × Reply) :=
  ((op, ⟨value, none⟩), (op', ⟨value, none⟩))

theorem TwinStep.mono {ids ids' : Int → Prop} {c : (Op × Reply) × (Op × Reply)} (h : TwinStep env ids s c s')
    (hids : ∀ (objid : Int), ids objid → ids' objid)
    : TwinStep env ids' s c s' := by
  obtain ⟨htwin, hleft, hright⟩ := h
  refine ⟨?_, hleft, hright⟩
  generalize c.1.1 = op at htwin ⊢
  generalize c.2.1 = op' at htwin ⊢
  cases htwin with
  | same => exact .same op
  | write objid hid buf buf' size offset => exact .write objid (hids objid hid) buf buf' size offset

theorem TwinStep.both {u u' : World} {op : Op} {value : Int} (ids : Int → Prop)
    (h : RoomyStep env w (op, ⟨value, none⟩) w') (h' : RoomyStep env u (op, ⟨value, none⟩) u')
    : TwinStep env ids (w, u) (ObjStore.both op op value) (w', u') :=
  ⟨.same op, h, h'⟩

def callsOnA : List ((Op × Reply) × (Op × Reply)) :=
  [both (.create keyA) (.create keyA) firstSlot.id,
    both (.write firstSlot.id (fun _ => 1#8) 1 0) (.write firstSlot.id (fun _ => 2#8) 1 0) 1,
    both (.destroy keyA) (.destroy keyA) 0]

-- Two stores that have held different bytes, and now hold one object without any.
theorem exists_twins
    : ∃ (w₀ : World) (s₁ s₂ : World × World),
        objstoreInit (steady true) (World.ofDisk blankDisk) = .ok (0, w₀)
        ∧ Run (TwinStep (steady true) (fun objid => objid = firstSlot.id)) (w₀, w₀) callsOnA s₁
        ∧ TwinStep (steady true) (fun _ => False) s₁ (both (.create keyB) (.create keyB) firstSlot.id) s₂
        ∧ s₂.1.Fit (steady true) ∧ s₂.2.Fit (steady true)
        ∧ (s₂.1.view (steady true)).Bare ∧ (s₂.2.view (steady true)).Bare
        ∧ (s₂.1.objects firstSlot).size ≠ 0#64 ∧ (s₂.2.objects firstSlot).size ≠ 0#64
        ∧ (s₂.1.view (steady true)).data 20256#32 ⟨0, by decide⟩ = 1#8
        ∧ (s₂.2.view (steady true)).data 20256#32 ⟨0, by decide⟩ = 2#8 := by
  have hr := steady_reliable true
  obtain ⟨w₀, hmount, hzero, -⟩ := destroyObject.exists_blank (steady true) hr
  have hfit := fit_mount hr sound_blank tidy_blank hmount
  obtain ⟨w₁, w₂, w₃, w₄, h₁, h₂, h₃, h₄, hfit₄, hbare, hlive, hbyte⟩ := exists_recycled hr hfit hzero 1#8
  obtain ⟨u₁, u₂, u₃, u₄, g₁, g₂, g₃, g₄, gfit₄, gbare, glive, gbyte⟩ := exists_recycled hr hfit hzero 2#8
  have htwin : Op.Twin (fun objid => objid = firstSlot.id) (.write firstSlot.id (fun _ => 1#8) 1 0)
      (.write firstSlot.id (fun _ => 2#8) 1 0) := by
    apply Op.Twin.write
    rfl
  have hwrite : TwinStep (steady true) (fun objid => objid = firstSlot.id) (w₁, u₁)
      (both (.write firstSlot.id (fun _ => 1#8) 1 0) (.write firstSlot.id (fun _ => 2#8) 1 0) 1) (w₂, u₂) :=
    ⟨htwin, h₂, g₂⟩
  have hrun := ((Run.nil.snoc (TwinStep.both _ h₁ g₁)).snoc hwrite).snoc (TwinStep.both _ h₃ g₃)
  exact ⟨w₀, (w₃, u₃), (w₄, u₄), hmount, hrun, TwinStep.both _ h₄ g₄, hfit₄, gfit₄, hbare, gbare, hlive, glive,
    hbyte, gbyte⟩

theorem exists_delivered (hr : env.Reliable) (hfit : w.Fit env) (hbare : (w.view env).Bare)
    (hlive : (w.objects o).size ≠ 0#64)
    : ∃ (w' : World) (buf' : Mem) (v : World),
        RoomyStep env w (.write o.id (fun _ => 3#8) 1 1, ⟨1, none⟩) w'
        ∧ objstoreRead env o.id (fun _ => 0#8) 1 0 w' = .ok (1, buf', v)
        ∧ buf' 0 = (w.view env).data 20256#32 ⟨0, by decide⟩ := by
  obtain ⟨w', hwrite, hobj, hdata⟩ := exists_byte hr hfit hbare o hlive (fun _ => 3#8) 1 (by decide)
  have hptr : (w'.view env).ptr (dataRef o 0) = 20256#32 := by
    simp [View.ptr, World.view, hobj, dataRef]
  obtain ⟨buf', v, hread, hbytes⟩ := objstoreRead_present hr (hwrite.fit hr hfit).ok.tagged o (fun _ => 0#8) 1 0
    (by decide) (by decide) 1 (by decide)
    (by
      intro t _ ht
      have : t = 0 := by omega
      rw [this, hptr]
      decide)
    (by
      intro i hi
      omega)
  have hcell := (w'.view env).cell_eq (dataRef o 0) (by rw [hptr]; decide)
  have hbyte := hbytes 0 (by omega) (by omega) (by omega)
  rw [byteAt_eq hcell 0 (by decide), hptr, hdata] at hbyte
  exact ⟨w', buf', v, hwrite, hread, (Option.some.inj hbyte).symm⟩

/-! The contents of an object in two runs. -/

end ObjStore
