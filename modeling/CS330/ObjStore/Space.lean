import CS330.ObjStore.Contents
import CS330.ObjStore.Lemmas.Overrun
import CS330.ObjStore.Lemmas.Tidy
import CS330.ObjStore.Ownership
import Mathlib.Data.Fintype.Card
import Mathlib.Data.Fintype.Prod

/-!
This module contains what happens when the free blocks run out. `alloc_block` fails with `-1`, which its
callers take for a block number: the write goes on and reports success. As long as every write finds the
blocks that it needs, all pointers are numbers of blocks.
-/

namespace ObjStore

open View

variable {env : Env} {w w' : World} {disk : BlockNo → Block}

theorem objstoreWrite_reports (hr : env.Reliable) (hok : w.Ok env) (o : Slot) (buf : Mem)
    (size offset : Nat) (r : Int) (w' : World)
    (h : objstoreWrite env o.id buf size offset w = .ok (r, w'))
    : r = if size ≤ maxSize then (size : Int) else -1 := by
  by_cases hsize : size ≤ maxSize
  . rw [if_pos hsize]
    by_cases hfit : InBlock size offset
    . obtain ⟨w'', hwrite, -⟩ := objstoreWrite_spec hr hok o buf size offset hsize hfit
      rw [h] at hwrite
      cases hwrite
      rfl
    . have hover : blockSize < offset % blockSize + curSize size := by
        unfold InBlock at hfit
        rw [curSize_eq]
        simp only [blockSize] at *
        omega
      have hpos : 0 < size := by
        rw [curSize_eq] at hover
        simp only [blockSize] at hover
        omega
      by_cases hstart : startBlock offset < 4100
      . rw [objstoreWrite_overrun hr hok.tagged o buf size offset hpos hsize hstart hover] at h
        cases h
      . obtain ⟨w'', hwrite⟩ := objstoreWrite_past hr hok.tagged o buf size offset hpos hsize (by omega) hover
        rw [h] at hwrite
        cases hwrite
        rfl
  . rw [if_neg hsize]
    rw [objstoreWrite_tooBig o buf size offset (by omega)] at h
    cases h
    rfl

/-- An accepted call that returns; a write finds the blocks that it needs. -/
def RoomyStep (env : Env) (w : World) (c : Op × Reply) (w' : World) : Prop :=
  c.1.Accepts w ∧ c.1.exec env w = .ok (c.2, w') ∧ ¬ c.1.Starves env w

theorem RoomyStep.effect (hr : env.Reliable) (hok : w.Ok env) {op : Op} {r : Reply}
    (h : RoomyStep env w (op, r) w')
    : Effect env w op r w' :=
  Op.effect_of_room hr hok h.1.safe h.2.1 h.2.2

section Written

variable {o : Slot} {buf : Mem} {size offset : Nat} {r : Reply}

theorem RoomyStep.written (hr : env.Reliable) (hok : w.Ok env)
    (h : RoomyStep env w (.write o.id buf size offset, r) w') (hsize : size ≤ maxSize)
    (hfit : InBlock size offset)
    : w'.Tagged ∧ w'.NoTable ∧ ∃ (v : View),
        (Job.ofWrite o buf size offset hfit).Progress (w.view env) v 4100
        ∧ w'.view env = v.finish o (BitVec.ofNat 64 (offset + size)) := by
  obtain ⟨-, hexec, hroom⟩ := h
  obtain ⟨w'', hwrite, htag, hcase⟩ := objstoreWrite_starves hr hok o buf size offset hsize hfit
  have hexec' := Op.write_of_exec hexec
  rw [hwrite] at hexec'
  have hsame := (Prod.mk.inj (Except.ok.inj hexec')).2
  subst hsame
  cases hcase with
  | inl hstarved =>
    have hlt := hstarved.2
    rw [Job.need_ofWrite env w o buf size offset hfit] at hlt
    exact absurd ⟨o, rfl, hsize, hlt⟩ hroom
  | inr hgood => exact ⟨htag, hgood⟩

-- A write after which no allocation has failed has found the blocks that it needed.
theorem Step.roomy (hr : env.Reliable) (hok : w.Ok env) {op : Op} (h : Step env w (op, r) w')
    : RoomyStep env w (op, r) w' := by
  refine ⟨h.1, h.2.1, ?_⟩
  intro hstarves
  obtain ⟨hacc, hexec, hfree⟩ := h
  cases op with
  | create key => exact hstarves
  | find key => exact hstarves
  | rename key newname => exact hstarves
  | destroy key => exact hstarves
  | read objid buf size offset => exact hstarves
  | write objid buf size offset =>
    obtain ⟨o, rfl, hsize, hlt⟩ := hstarves
    obtain ⟨w'', hwrite, -, hcase⟩ := objstoreWrite_starves hr hok o buf size offset hsize hacc.2.2.1
    have hexec' := Op.write_of_exec hexec
    rw [hwrite] at hexec'
    have hsame := (Prod.mk.inj (Except.ok.inj hexec')).2
    subst hsame
    cases hcase with
    | inl hstarved => exact hfree hstarved.1
    | inr hgood =>
      obtain ⟨-, v, hprog, -⟩ := hgood
      have hspent := hprog.free_eq
      rw [Job.need_ofWrite env w o buf size offset hacc.2.2.1] at hspent
      have hbmp : (w.view env).blkBmp = w.blkBmp := rfl
      rw [hbmp] at hspent
      omega

theorem RoomyStep.created (hr : env.Reliable) (hok : w.Ok env) {key : CStr}
    (h : RoomyStep env w (.create key, ⟨o.id, none⟩) w')
    : (w.objects o).size = 0#64
      ∧ World.Edited env o (createObject.fresh key (w.objects o)) w w' := by
  have heff := h.effect hr hok
  generalize hreply : (⟨o.id, none⟩ : Reply) = r at heff
  cases heff with
  | createFailed key w' _ _ =>
    have := o.id_ge
    have hid : o.id = -1 := congrArg Reply.value hreply
    omega
  | created key o' w' hsize _ hedit =>
    have := Slot.id_inj (congrArg Reply.value hreply)
    subst this
    exact ⟨hsize, hedit⟩

-- A write of at most one block that does not get to the pointer blocks.
theorem World.need_le_one (env : Env) (w : World) (o : Slot) (size offset : Nat) (hsize : size ≤ 4096)
    (hstart : startBlock offset < 4)
    : w.need env o size offset ≤ 1 := by
  have hmissing : ∀ (i : Fin 4), ¬ 4096 * (4 + 1024 * i.val - startBlock offset) < size := by
    intro i
    omega
  unfold World.need
  rw [Finset.filter_false_of_mem (fun i _ h => hmissing i h.1), Finset.card_empty, Nat.add_zero]
  apply Finset.card_le_one.mpr
  intro t ht t' ht'
  have h1 := (Finset.mem_filter.mp ht).2.1
  have h2 := (Finset.mem_filter.mp ht').2.1
  omega

end Written

theorem roomy_ok (hr : env.Reliable) (hown : (diskView disk).Own) {w₀ : World}
    (hmount : objstoreInit env (World.ofDisk disk) = .ok (0, w₀)) {calls : List (Op × Reply)}
    (hrun : Run (RoomyStep env) w₀ calls w)
    : w.Ok env := by
  obtain ⟨w₀', hmount', hmounted⟩ := objstoreInit_spec hr (World.ofDisk disk)
  rw [hmount] at hmount'
  cases hmount'
  apply Run.inv (I := fun w => w.Ok env) ?_ ?_ hrun
  . apply hmounted.ok
    rw [hmounted.view_eq]
    exact hown
  . rintro u ⟨op, r⟩ u' hok hstep
    exact (hstep.effect hr hok).ok hok

theorem roomy_tidy (hr : env.Reliable) (hown : (diskView disk).Own) (htidy : Tidy (diskObj disk)) {w₀ : World}
    (hmount : objstoreInit env (World.ofDisk disk) = .ok (0, w₀)) {calls : List (Op × Reply)}
    (hrun : Run (RoomyStep env) w₀ calls w)
    : Tidy w.objects := by
  have hboth : w.Ok env ∧ Tidy w.objects := by
    apply Run.inv (I := fun w => w.Ok env ∧ Tidy w.objects) ?_ ?_ hrun
    . refine ⟨roomy_ok hr hown hmount .nil, ?_⟩
      obtain ⟨w₀', hmount', hmounted⟩ := objstoreInit_spec hr (World.ofDisk disk)
      rw [hmount] at hmount'
      cases hmount'
      rw [hmounted.objects_eq]
      exact htidy
    . rintro u ⟨op, r⟩ u' ⟨hok, htidy⟩ hstep
      have heff := hstep.effect hr hok
      exact ⟨heff.ok hok, heff.tidy hstep.1 htidy⟩
  exact hboth.2

theorem Reaches.roomy (hr : env.Reliable) (hown : (diskView disk).Own) (h : Reaches env disk w)
    : ∃ (w₀ : World) (calls : List (Op × Reply)),
        objstoreInit env (World.ofDisk disk) = .ok (0, w₀) ∧ Run (RoomyStep env) w₀ calls w := by
  obtain ⟨w₀, calls, hmount, hrun⟩ := h
  have hsim : ∀ (u : World) (c : Op × Reply) (u' t : World), u = t ∧ u.Ok env → Step env u c u'
      → ∃ (t' : World), RoomyStep env t c t' ∧ u' = t' ∧ u'.Ok env := by
    rintro u ⟨op, r⟩ u' t ⟨rfl, hok⟩ hstep
    exact ⟨u', hstep.roomy hr hok, rfl, hstep.ok hr hok⟩
  obtain ⟨w', hrun', heq, -⟩ := hrun.sim hsim ⟨rfl, roomy_ok hr hown hmount .nil⟩
  subst heq
  exact ⟨w₀, calls, hmount, hrun'⟩

theorem View.Own.ptr_lt {v : View} (hown : v.Own) (r : Ref) : (v.ptr r).toNat < 64 * blkBmpLn := by
  by_cases hnull : v.ptr r = 0#32
  . rw [hnull]
    decide
  . exact Bitmap.bit_lt _ _ (hown.ptr_used r hnull)

/--
In a run all of whose writes found the blocks that they needed, every pointer is the number of a block. A
further write that does not find them is not reported: exactly then the result is wrong.
-/
theorem roomy_run (hr : env.Reliable) (hown : (diskView disk).Own) {w₀ : World}
    (hmount : objstoreInit env (World.ofDisk disk) = .ok (0, w₀)) {calls : List (Op × Reply)}
    (hrun : Run (RoomyStep env) w₀ calls w)
    : (∀ (r : Ref), ((w.view env).ptr r).toNat < 64 * blkBmpLn)
      ∧ ∀ (o : Slot) (buf : Mem) (size offset : Nat) (r : Int) (w' : World),
          objstoreWrite env o.id buf size offset w = .ok (r, w')
          → ((w.blkBmp.free < w.need env o size offset → r = -1)
            ↔ (maxSize < size ∨ w.need env o size offset ≤ w.blkBmp.free)) := by
  have hok := roomy_ok hr hown hmount hrun
  refine ⟨hok.own.ptr_lt, ?_⟩
  intro o buf size offset r w' hwrite
  have hres := objstoreWrite_reports hr hok o buf size offset r w' hwrite
  by_cases hsize : size ≤ maxSize
  . rw [if_pos hsize] at hres
    omega
  . rw [if_neg hsize] at hres
    omega

-- The names of a store do not exhaust the keys of 21 characters.
def keyOf (n : Nat) : CStr where
  mem := fun k => if k < 21 then if n.testBit k then 98#8 else 97#8 else 0#8
  len := 21
  nul := rfl
  nonzero := by
    intro k hk
    rw [if_pos hk]
    split
    . decide
    . decide

theorem keyOf_short (n : Nat) : (keyOf n).Short :=
  ⟨Nat.zero_lt_succ 20, show 21 < keySize by decide⟩

theorem keyOf_inj {n n' : Nat} (hn : n < 2 ^ 21) (hn' : n' < 2 ^ 21)
    (h : (keyOf n).chars = (keyOf n').chars)
    : n = n' := by
  apply Nat.eq_of_testBit_eq
  intro k
  by_cases hk : k < 21
  . have hmem := congrArg (fun l => l[k]?) h
    simp only [CStr.chars, keyOf, List.getElem?_map, List.getElem?_range hk, Option.map_some, hk, ↓reduceIte,
      Option.some.injEq] at hmem
    cases hb : n.testBit k <;> cases hb' : n'.testBit k
    . rfl
    . simp [hb, hb'] at hmem
    . simp [hb, hb'] at hmem
    . rfl
  . have hpow : 2 ^ 21 ≤ 2 ^ k := Nat.pow_le_pow_right (by decide) (by omega)
    rw [Nat.testBit_lt_two_pow (Nat.lt_of_lt_of_le hn hpow),
      Nat.testBit_lt_two_pow (Nat.lt_of_lt_of_le hn' hpow)]

theorem exists_unnamed (w : World)
    : ∃ (key : CStr), key.Short ∧ ∀ (o : Slot), (w.objects o).name ≠ key.chars := by
  apply Classical.byContradiction
  intro hall
  have hnamed : ∀ (n : Fin (2 ^ 21)), ∃ (o : Slot), (w.objects o).name = (keyOf n).chars := by
    intro n
    apply Classical.byContradiction
    intro hnone
    exact hall ⟨keyOf n, keyOf_short n, fun o ho => hnone ⟨o, ho⟩⟩
  choose slot hslot using hnamed
  have hinj : Function.Injective slot := by
    intro n n' heq
    apply Fin.ext
    apply keyOf_inj n.isLt n'.isLt
    rw [← hslot n, ← hslot n', heq]
  have := Fintype.card_le_of_injective slot hinj
  rw [Fintype.card_fin, Fintype.card_fin] at this
  exact absurd this (by decide)

theorem card_pairs {m n : Nat} {f : Fin m × Fin 9 → Fin n} (hinj : Function.Injective f)
    : m * 9 ≤ n := by
  have := Fintype.card_le_of_injective f hinj
  rwa [Fintype.card_prod, Fintype.card_fin, Fintype.card_fin, Fintype.card_fin] at this

-- There are more places for pointers than blocks.
theorem View.Own.exists_null {v : View} (hown : v.Own)
    : ∃ (o : Slot) (t : Nat), t < 4100 ∧ v.ptr (dataRef o t) = 0#32 := by
  apply Classical.byContradiction
  intro hall
  have hne : ∀ (o : Slot) (t : Fin 9), v.ptr (dataRef o t) ≠ 0#32 := by
    intro o t h0
    exact hall ⟨o, t, by omega, h0⟩
  let f (p : Slot × Fin 9) : Fin (64 * blkBmpLn) := ⟨(v.ptr (dataRef p.1 p.2)).toNat, hown.ptr_lt _⟩
  have hinj : Function.Injective f := by
    rintro ⟨o, t⟩ ⟨o', t'⟩ heq
    have hptr : v.ptr (dataRef o t) = v.ptr (dataRef o' t') := BitVec.eq_of_toNat_eq (Fin.mk.inj heq)
    have hplace := hown.inj _ _ (hne o t) hptr
    have hslot : o = o' := by
      have := congrArg Ref.slot hplace
      rwa [dataRef_slot, dataRef_slot] at this
    subst hslot
    have ht := dataRef_inj (by omega) (by omega) hplace
    rw [Fin.ext ht]
  exact absurd (card_pairs hinj) (by decide)

theorem World.Started.writes {cached : Bool} {o : Slot} (h : w.Started (steady cached) o) (buf : Mem)
    (size offset : Nat) (hpos : 1 ≤ size) (hsize : size ≤ 4096) (hfit : InBlock size offset)
    (hoffset : offset < 4 * 4096)
    : ∃ (r : Reply) (w' : World), RoomyStep (steady cached) w (.write o.id buf size offset, r) w' := by
  have hr := steady_reliable cached
  have hacc : (Op.write o.id buf size offset).Accepts w := ⟨⟨o, rfl, h.live⟩, hpos, hfit, by omega⟩
  obtain ⟨r, w', hexec, -⟩ := Op.exec_cases hr (h.reaches.ok hr own_blank) _ hacc.safe
  refine ⟨r, w', hacc, hexec, ?_⟩
  rintro ⟨o', hid, -, hlt⟩
  have := Slot.id_inj hid
  subst this
  have hstart : startBlock offset < 4 := by
    rw [startBlock_eq (by simp only [maxSize, blockSize]; omega)]
    omega
  have hneed := World.need_le_one (steady cached) w o size offset hsize hstart
  have hspare : 0 < w.blkBmp.free := by
    have hclear : w.blkBmp.bit resBlocks = false := by
      rw [h.blkBmp_eq, bit_diskBmp_blank]
      simp
    have := Bitmap.free_set w.blkBmp resBlocks (by decide) hclear
    omega
  omega

/-- A world that a blank store reaches as long as its writes find the blocks that they need. -/
def RoomyReaches (w : World) : Prop :=
  ∃ (w₀ : World) (calls : List (Op × Reply)),
    objstoreInit (steady true) (World.ofDisk blankDisk) = .ok (0, w₀)
    ∧ Run (RoomyStep (steady true)) w₀ calls w

namespace RoomyReaches

variable (h : RoomyReaches w)

include h

theorem step {c : Op × Reply} (hstep : RoomyStep (steady true) w c w') : RoomyReaches w' := by
  obtain ⟨w₀, calls, hmount, hrun⟩ := h
  exact ⟨w₀, calls ++ [c], hmount, hrun.snoc hstep⟩

theorem ok : w.Ok (steady true) := by
  obtain ⟨w₀, calls, hmount, hrun⟩ := h
  exact roomy_ok (steady_reliable true) own_blank hmount hrun

theorem tidy : Tidy w.objects := by
  obtain ⟨w₀, calls, hmount, hrun⟩ := h
  exact roomy_tidy (steady_reliable true) own_blank tidy_blank hmount hrun

-- A write of one byte to a block that is not there needs a block, which is taken away from the free ones.
theorem write (o : Slot) (t : Nat) (ht : t < 4100) (hlive : (w.objects o).size ≠ 0#64)
    (hnull : (w.view (steady true)).ptr (dataRef o t) = 0#32)
    (hroom : w.need (steady true) o 1 (4096 * t) ≤ w.blkBmp.free)
    : ∃ (w' : World), RoomyReaches w' ∧ w'.blkBmp.free < w.blkBmp.free := by
  have hr := steady_reliable true
  have hstart : startBlock (4096 * t) = t := by
    rw [startBlock_eq (by simp only [maxSize, blockSize]; omega)]
    omega
  have hfit : InBlock 1 (4096 * t) := by
    unfold InBlock
    simp only [blockSize]
    omega
  have hacc : (Op.write o.id (fun _ => 0#8) 1 (4096 * t)).Accepts w :=
    ⟨⟨o, rfl, hlive⟩, Nat.le_refl 1, hfit, by omega⟩
  have hstarves : ¬ (Op.write o.id (fun _ => 0#8) 1 (4096 * t)).Starves (steady true) w := by
    rintro ⟨o', hid, -, hlt⟩
    have := Slot.id_inj hid
    subst this
    omega
  obtain ⟨w', hwrite, htag, hcase⟩ :=
    objstoreWrite_starves hr h.ok o (fun _ => 0#8) 1 (4096 * t) (by decide) hfit
  have hstep : RoomyStep (steady true) w (_, ⟨1, none⟩) w' := ⟨hacc, Op.exec_write hwrite, hstarves⟩
  refine ⟨w', h.step hstep, ?_⟩
  cases hcase with
  | inl hstarved =>
    have := hstarved.2
    rw [Job.need_ofWrite (steady true) w o (fun _ => 0#8) 1 (4096 * t) hfit] at this
    have hbmp : (w.view (steady true)).blkBmp = w.blkBmp := rfl
    rw [hbmp] at this
    omega
  | inr hdone =>
    obtain ⟨-, v, hprog, hview⟩ := hdone
    have hfree := hprog.free_eq
    rw [Job.need_ofWrite (steady true) w o (fun _ => 0#8) 1 (4096 * t) hfit] at hfree
    have hbmp : v.blkBmp = w'.blkBmp := (congrArg View.blkBmp hview).symm
    have hbmp₀ : (w.view (steady true)).blkBmp = w.blkBmp := rfl
    rw [hbmp, hbmp₀] at hfree
    have hpos : 0 < w.need (steady true) o 1 (4096 * t) := by
      unfold World.need
      rw [hstart]
      apply Nat.add_pos_left
      apply Finset.card_pos.mpr
      refine ⟨t, ?_⟩
      rw [Finset.mem_filter, Finset.mem_range]
      exact ⟨ht, ⟨Nat.le_refl t, by omega⟩, hnull⟩
    omega

-- An object can be added as long as there is a slot for it.
theorem create (hslot : ∃ (o : Slot), (w.objects o).size = 0#64)
    : ∃ (w' : World) (o : Slot), RoomyReaches w' ∧ w'.blkBmp = w.blkBmp ∧ (w'.objects o).size ≠ 0#64
        ∧ (w'.view (steady true)).ptr (dataRef o 0) = 0#32 := by
  obtain ⟨key, hkey, hunnamed⟩ := exists_unnamed w
  have hr := steady_reliable true
  have hacc : (Op.create key).Accepts w := hkey
  obtain ⟨r, w', hexec, hcase⟩ := Op.exec_cases hr h.ok (.create key) hacc.safe
  have hstep : RoomyStep (steady true) w (.create key, r) w' := ⟨hacc, hexec, id⟩
  refine ⟨w', ?_⟩
  have heff := hstep.effect hr h.ok
  cases heff with
  | createFailed key w' hfail _ =>
    exfalso
    cases hfail with
    | inl hdup =>
      obtain ⟨o, hname⟩ := hdup
      exact hunnamed o hname
    | inr hfull =>
      obtain ⟨o, ho⟩ := hslot
      exact hfull o ho
  | created key o w' hsize _ hedit =>
    have hobj := hedit.objects_eq
    have hbmp : w'.blkBmp = w.blkBmp := congrArg View.blkBmp hedit.view_eq
    refine ⟨o, h.step hstep, hbmp, ?_, ?_⟩
    . rw [hobj, Function.update_self]
      exact (by decide : 1#64 ≠ 0#64)
    . rw [hedit.view_eq, ptr_edit o _ hedit.direct_eq hedit.indirect_eq]
      exact Tidy.ptr_free (v := w.view (steady true)) h.tidy hsize _ (dataRef_slot o 0)

end RoomyReaches

-- Of the worlds that can be reached, take one with the fewest free blocks.
theorem exists_starving
    : ∃ (w : World) (o : Slot) (t : Nat), RoomyReaches w ∧ (w.objects o).size ≠ 0#64 ∧ t < 4100
        ∧ w.blkBmp.free < w.need (steady true) o 1 (4096 * t) := by
  classical
  have hr := steady_reliable true
  obtain ⟨w₀, hmount, -⟩ := objstoreInit_spec hr (World.ofDisk blankDisk)
  have hex : ∃ (n : Nat) (w : World), RoomyReaches w ∧ w.blkBmp.free = n :=
    ⟨_, w₀, ⟨w₀, [], hmount, .nil⟩, rfl⟩
  obtain ⟨w, hw, hfree⟩ := Nat.find_spec hex
  have hleast : ∀ (w' : World), RoomyReaches w' → w.blkBmp.free ≤ w'.blkBmp.free := by
    intro w' hw'
    rw [hfree]
    exact Nat.find_min' hex ⟨w', hw', rfl⟩
  have hnull : ∃ (w' : World) (o : Slot) (t : Nat), RoomyReaches w' ∧ w'.blkBmp = w.blkBmp ∧ t < 4100
      ∧ (w'.objects o).size ≠ 0#64 ∧ (w'.view (steady true)).ptr (dataRef o t) = 0#32 := by
    by_cases hslot : ∃ (o : Slot), (w.objects o).size = 0#64
    . obtain ⟨w', o, hw', hbmp, hlive, hnull⟩ := hw.create hslot
      exact ⟨w', o, 0, hw', hbmp, by omega, hlive, hnull⟩
    . obtain ⟨o, t, ht, hnull⟩ := hw.ok.own.exists_null
      exact ⟨w, o, t, hw, rfl, ht, fun h0 => hslot ⟨o, h0⟩, hnull⟩
  obtain ⟨w', o, t, hw', hbmp, ht, hlive, hnull⟩ := hnull
  refine ⟨w', o, t, hw', hlive, ht, ?_⟩
  apply Classical.byContradiction
  intro hroom
  obtain ⟨w'', hw'', hlt⟩ := hw'.write o t ht hlive hnull (by omega)
  have := hleast w'' hw''
  rw [hbmp] at hlt
  omega

/-- From a blank store a write is reached that needs a block, finds none and returns its size. -/
theorem not_reports_space
    : ∃ (w : World) (o : Slot) (t : Nat) (w' : World), RoomyReaches w ∧ (w.objects o).size ≠ 0#64
        ∧ 4096 * t + 1 ≤ maxSize ∧ w.blkBmp.free < w.need (steady true) o 1 (4096 * t)
        ∧ objstoreWrite (steady true) o.id (fun _ => 0#8) 1 (4096 * t) w = .ok (1, w') := by
  obtain ⟨w, o, t, hw, hlive, ht, hlt⟩ := exists_starving
  have hfit : InBlock 1 (4096 * t) := by
    unfold InBlock
    simp only [blockSize]
    omega
  obtain ⟨w', hwrite, -⟩ :=
    objstoreWrite_spec (steady_reliable true) hw.ok o (fun _ => 0#8) 1 (4096 * t) (by decide) hfit
  refine ⟨w, o, t, w', hw, hlive, ?_, hlt, hwrite⟩
  simp only [maxSize, blockSize]
  omega

theorem roomy_run_created
    : ∃ (w₀ w : World) (calls : List (Op × Reply)),
        objstoreInit (steady true) (World.ofDisk blankDisk) = .ok (0, w₀)
        ∧ Run (RoomyStep (steady true)) w₀ calls w
        ∧ (∃ (o : Slot), (w.objects o).size ≠ 0#64)
        ∧ (∀ (r : Ref), ((w.view (steady true)).ptr r).toNat < 64 * blkBmpLn)
        ∧ ∀ (o : Slot) (buf : Mem) (size offset : Nat) (r : Int) (w' : World),
            objstoreWrite (steady true) o.id buf size offset w = .ok (r, w')
            → ((w.blkBmp.free < w.need (steady true) o size offset → r = -1)
              ↔ (maxSize < size ∨ w.need (steady true) o size offset ≤ w.blkBmp.free)) := by
  have hr := steady_reliable true
  obtain ⟨w₀, hmount, hmounted⟩ := objstoreInit_spec hr (World.ofDisk blankDisk)
  have hstart : RoomyReaches w₀ := ⟨w₀, [], hmount, .nil⟩
  have hslot : ∃ (o : Slot), (w₀.objects o).size = 0#64 := by
    refine ⟨⟨0, by decide⟩, ?_⟩
    rw [hmounted.objects_eq]
    exact congrArg Obj.size (diskObj_blank _)
  obtain ⟨w, o, ⟨w₁, calls, hmount₁, hrun⟩, -, hlive, -⟩ := hstart.create hslot
  have hall := roomy_run hr own_blank hmount₁ hrun
  exact ⟨w₁, w, calls, hmount₁, hrun, ⟨o, hlive⟩, hall.1, hall.2⟩

end ObjStore
