import CS330.ObjStore.Contents

/-!
This module contains what an unmount and the mount after it keep. Without the cache all of a store comes
back. With it the tables do, and so do the contents of the objects provided that no block in use has been
changed in the cache only.
-/

namespace ObjStore

open View

variable {env : Env} {w w' : World} {o : Slot} {disk : BlockNo → Block}

theorem View.Clean.update {v v' : View} (h : v.Clean) (o : Slot) (hbmp : v'.objBmp = v.objBmp.set o)
    (hobj : ∀ (o' : Slot), o' ≠ o → v'.objects o' = v.objects o')
    (hdata : ∀ (b : BlockNo), Reserved b → v'.data b = v.data b)
    : v'.Clean := by
  intro o' hbit
  have hlt : o.val < 64 * objBmpLn := by
    have := o.isLt
    simp only [objBmpLn, maxObjs] at *
    omega
  rw [hbmp, Bitmap.bit_set _ _ hlt, Bool.or_eq_false_iff, decide_eq_false_iff_not] at hbit
  have ho : o' ≠ o := fun heq => hbit.1 (congrArg Fin.val heq)
  rw [hobj o' ho, diskObj_congr hdata]
  exact h o' hbit.2

theorem World.Edited.clean {o : Slot} {obj : Obj} (h : World.Edited env o obj w w')
    (hclean : (w.view env).Clean)
    : (w'.view env).Clean := by
  rw [h.view_eq]
  apply hclean.update o rfl
  . intro o' ho
    exact Function.update_of_ne ho _ _
  . intro b _
    rfl

theorem Effect.clean {op : Op} {r : Reply} (h : Effect env w op r w') (hclean : (w.view env).Clean)
    : (w'.view env).Clean := by
  cases h with
  | createFailed key w' _ h => rwa [h.view_eq]
  | created key o w' _ _ h => exact h.clean hclean
  | found key => exact hclean
  | renameFailed key newname w' _ h => rwa [h.view_eq]
  | renamed key newname o w' _ _ h => exact h.clean hclean
  | destroyFailed key _ => exact hclean
  | destroyed key o w' _ _ h =>
    apply hclean.update o h.objBmp_eq
    . intro o' ho
      have hobj : (w'.view env).objects = Function.update w.objects o Obj.zero := h.objects_eq
      rw [hobj, Function.update_of_ne ho]
      rfl
    . intro b _
      rw [h.data_eq]
  | writeFailed objid buf size offset => exact hclean
  | written o buf size offset hmax hfit w' v hprog hview _ _ =>
    rw [hview]
    apply hclean.update o
    . exact congrArg (fun m => Bitmap.set m o) hprog.objBmp_eq
    . intro o' ho
      rw [← hprog.other o' ho]
      exact Function.update_of_ne ho _ _
    . intro b hb
      exact hprog.reserved_eq b hb
  | read objid buf size offset r buf' w' h => rwa [h.view_eq]

-- The tables and the blocks in use are the same in both views.
structure View.Survives (v v' : View) : Prop where
  objects_eq : v'.objects = v.objects
  blkBmp_eq : v'.blkBmp = v.blkBmp
  data_eq : ∀ (b : BlockNo), v.Used b → ¬ Reserved b → v'.data b = v.data b

namespace View.Survives

variable {v v' : View}

theorem data_ptr (h : v.Survives v') (hown : v.Own) (r : Ref) (hr : v.ptr r ≠ 0#32)
    : v'.data (v.ptr r) = v.data (v.ptr r) :=
  h.data_eq _ (hown.ptr_used r hr) (hown.ptr_not_reserved r hr)

theorem ptr_eq (h : v.Survives v') (hown : v.Own) (r : Ref) : v'.ptr r = v.ptr r := by
  cases r with
  | direct o i => simp only [ptr, h.objects_eq]
  | indirect o i => simp only [ptr, h.objects_eq]
  | entry o i j =>
    simp only [ptr, h.objects_eq]
    split
    . rfl
    . next hne =>
      have := h.data_ptr hown (.indirect o i) hne
      rw [show v.ptr (.indirect o i) = (v.objects o).indirect i from rfl] at this
      rw [this]

theorem own (h : v.Survives v') (hown : v.Own) : v'.Own := by
  apply Owned.congr hown
  . intro b
    unfold Used
    rw [h.blkBmp_eq]
  . exact h.ptr_eq hown

theorem sameContents (h : v.Survives v') (hown : v.Own) (o : Slot) : SameContents o v v' where
  indirect_iff := by
    intro i
    rw [h.objects_eq]
  cell_eq := by
    intro r _ _
    unfold cell
    rw [h.ptr_eq hown r]
    split
    . rfl
    . next hne => rw [h.data_ptr hown r hne]

end View.Survives

theorem findObjectId_congr (hobj : w'.objects = w.objects) (key : CStr) (hkey : key.len < keySize)
    : findObjectId key w' = findObjectId key w := by
  have hkeys : (fun (o : Slot) => w'.keyEq o key) = fun (o : Slot) => w.keyEq o key := by
    funext o
    rw [Bool.eq_iff_iff, w'.keyEq_iff o key hkey, w.keyEq_iff o key hkey, hobj]
  simp only [findObjectId, findObject, hkeys]

def readReply (env : Env) (objid : Int) (buf : Mem) (size offset : Nat) (w : World)
    : Except Fault (Int × Mem) :=
  (objstoreRead env objid buf size offset w).map (fun r => (r.1, r.2.1))

theorem readReply_congr (hr : env.Reliable) (htag : w.Tagged) (htag' : w'.Tagged)
    (hsame : ∀ (o : Slot), SameContents o (w.view env) (w'.view env)) (objid : Int) (buf : Mem)
    (size offset : Nat)
    : readReply env objid buf size offset w' = readReply env objid buf size offset w := by
  have hrel := objstoreRead_rel hr hr htag htag' objid buf size offset (fun o _ => hsame o)
  unfold readReply
  generalize objstoreRead env objid buf size offset w = x at hrel ⊢
  generalize objstoreRead env objid buf size offset w' = y at hrel ⊢
  cases hrel with
  | error e => rfl
  | ok h =>
    obtain ⟨h1, h2, -, -⟩ := h
    simp only [Except.map, h1, h2]

/-- Every cached block that is in use is on the disk as it is in the cache. -/
def World.Synced (w : World) : Prop :=
  ∀ (i : Fin cacheLen), w.cacheInfo i ≠ 0#32 → w.blkBmp.bit (w.cacheInfo i).toNat = true
    → w.cache i = w.disk (w.cacheInfo i)

theorem World.Synced.look_eq (h : w.Synced) (b : BlockNo) (hb : b ≠ 0#32) (hused : (w.view env).Used b)
    : w.look env b = w.disk b := by
  unfold World.look
  split
  . unfold DirectMapped.look
    split
    . next hhit =>
      have := h (cacheIndex b)
      rw [hhit] at this
      exact this hb hused
    . rfl
  . rfl

theorem World.Remounted.data_eq (h : w.Remounted w') (b : BlockNo) (hb : b ≠ 0#32)
    : (w'.view env).data b = w'.disk b := by
  have hmiss : ¬ 0#32 = b := fun heq => hb heq.symm
  rw [World.view_data _ _ _ hb]
  simp only [World.look, DirectMapped.look, h.cacheInfo_eq, hmiss, ↓reduceIte, ite_self]

theorem World.Remounted.clean_view (h : w.Remounted w') : (w'.view env).Clean := by
  intro o _
  have hnat := toNat_objBlockNo (objBlock o)
  have hne : objBlockNo (objBlock o) ≠ 0#32 := by
    intro heq
    rw [heq] at hnat
    simp at hnat
  have hobj : (w'.view env).objects o = diskObj w'.disk o := congrFun h.clean o
  rw [hobj]
  unfold diskObj
  rw [h.data_eq _ hne]

/-- What an unmount and a mount do to a store whose blocks in use are all on the disk. -/
theorem exists_remounted (hr : env.Reliable) (hok : w.Ok env) (hclean : (w.view env).Clean)
    (hdisk : ∀ (b : BlockNo), b ≠ 0#32 → (w.view env).Used b → w.look env b = w.disk b)
    : ∃ (w₁ w₂ : World), objstoreDestroy env w = .ok (0, w₁)
        ∧ objstoreInit env (World.ofDisk w₁.disk) = .ok (0, w₂)
        ∧ w.Remounted w₂ ∧ (w.view env).Survives (w₂.view env) ∧ w₂.Ok env := by
  obtain ⟨w₁, hdestroy, hunmounted⟩ := objstoreDestroy_spec hr w
  obtain ⟨w₂, hinit, hmounted⟩ := objstoreInit_spec hr (World.ofDisk w₁.disk)
  have hremounted := hunmounted.remounted hok hclean hmounted
  have hsurvives : (w.view env).Survives (w₂.view env) := by
    refine ⟨hremounted.objects_eq, hremounted.blkBmp_eq, ?_⟩
    intro b hused hres
    have hb : b ≠ 0#32 := by
      rintro rfl
      exact hres hok.own.null_reserved
    rw [hremounted.data_eq b hb, World.view_data _ _ _ hb, hdisk b hb hused]
    exact hremounted.data b (Nat.le_of_not_lt hres)
  exact ⟨w₁, w₂, hdestroy, hinit, hremounted, hsurvives, hmounted.ok (hsurvives.own hok.own)⟩

theorem Reaches.clean (hr : env.Reliable) (hown : (diskView disk).Own) (h : Reaches env disk w)
    : (w.view env).Clean := by
  apply h.inv_effect hr hown (I := fun w => (w.view env).Clean)
  . intro w₀ hmounted
    rw [hmounted.view_eq]
    exact diskView_clean disk
  . intro u op r u' _ _ heff hclean
    exact heff.clean hclean

/--
Without the cache an unmount and a mount are the identity, on the tables in memory and on the blocks
behind them.
-/
theorem remount_uncached (hr : env.Reliable) (hc : env.cached = false) (hown : (diskView disk).Own)
    (h : Reaches env disk w)
    : ∃ (w₁ w₂ : World), objstoreDestroy env w = .ok (0, w₁)
        ∧ objstoreInit env (World.ofDisk w₁.disk) = .ok (0, w₂)
        ∧ w₂.objects = w.objects ∧ w₂.blkBmp = w.blkBmp
        ∧ (∀ (b : BlockNo), resBlocks ≤ b.toNat → w₂.disk b = w.disk b)
        ∧ (∀ (key : CStr), key.len < keySize → findObjectId key w₂ = findObjectId key w)
        ∧ ∀ (objid : Int) (buf : Mem) (size offset : Nat),
            readReply env objid buf size offset w₂ = readReply env objid buf size offset w := by
  have hok := h.ok hr hown
  have hdisk : ∀ (b : BlockNo), b ≠ 0#32 → (w.view env).Used b → w.look env b = w.disk b := by
    intro b _ _
    simp [World.look, hc]
  obtain ⟨w₁, w₂, hdestroy, hinit, hremounted, hsurvives, hok₂⟩ :=
    exists_remounted hr hok (h.clean hr hown) hdisk
  refine ⟨w₁, w₂, hdestroy, hinit, hremounted.objects_eq, hremounted.blkBmp_eq, hremounted.data, ?_, ?_⟩
  . exact findObjectId_congr hremounted.objects_eq
  . exact readReply_congr hr hok.tagged hok₂.tagged (hsurvives.sameContents hok.own)

theorem remount_uncached_started
    : ∃ (w w₁ w₂ : World) (o : Slot), w.Started (steady false) o
        ∧ objstoreDestroy (steady false) w = .ok (0, w₁)
        ∧ objstoreInit (steady false) (World.ofDisk w₁.disk) = .ok (0, w₂) ∧ w₂.objects = w.objects := by
  obtain ⟨w, o, h⟩ := exists_started false
  obtain ⟨w₁, w₂, hdestroy, hinit, hobjects, -⟩ :=
    remount_uncached (steady_reliable false) rfl own_blank h.reaches
  exact ⟨w, w₁, w₂, o, h, hdestroy, hinit, hobjects⟩

/--
The worlds of a store over its whole life, which begins with a blank disk: calls that overrun nothing and
find the free blocks they need, and unmounts at times when every block in use is on the disk.
-/
inductive Served (env : Env) : World → Prop where
  | mount {w : World} (hinit : objstoreInit env (World.ofDisk blankDisk) = .ok (0, w)) : Served env w
  | call {w w' : World} {op : Op} {r : Reply} (h : Served env w) (hsafe : op.Safe)
      (hexec : op.exec env w = .ok (r, w')) (hfree : ¬ w'.Exhausted)
      : Served env w'
  | remount {w w₁ w₂ : World} (h : Served env w) (hsync : w.Synced)
      (hdestroy : objstoreDestroy env w = .ok (0, w₁))
      (hinit : objstoreInit env (World.ofDisk w₁.disk) = .ok (0, w₂))
      : Served env w₂

theorem Served.inv (hr : env.Reliable) (h : Served env w) : w.Ok env ∧ (w.view env).Clean := by
  induction h with
  | mount hinit =>
    obtain ⟨w', hinit', hmounted⟩ := objstoreInit_spec hr (World.ofDisk blankDisk)
    rw [hinit] at hinit'
    cases hinit'
    refine ⟨hmounted.ok ?_, ?_⟩
    . rw [hmounted.view_eq]
      exact own_blank
    . rw [hmounted.view_eq]
      exact diskView_clean blankDisk
  | call h hsafe hexec hfree ih =>
    have heff := Op.effect hr ih.1 hsafe hexec hfree
    exact ⟨heff.ok ih.1, heff.clean ih.2⟩
  | remount h hsync hdestroy hinit ih =>
    obtain ⟨w₁, w₂, hdestroy', hinit', hremounted, -, hok⟩ :=
      exists_remounted hr ih.1 ih.2 (fun b hb hused => hsync.look_eq b hb hused)
    rw [hdestroy] at hdestroy'
    cases hdestroy'
    rw [hinit] at hinit'
    cases hinit'
    exact ⟨hok, hremounted.clean_view⟩

/--
A store that is unmounted when every block in use is on the disk comes back with the same objects under
the same keys, and every read gives the bytes that it would have given before.
-/
theorem remount_synced (hr : env.Reliable) (h : Served env w) (hsync : w.Synced)
    : ∃ (w₁ w₂ : World), objstoreDestroy env w = .ok (0, w₁)
        ∧ objstoreInit env (World.ofDisk w₁.disk) = .ok (0, w₂)
        ∧ w₂.objects = w.objects
        ∧ (∀ (key : CStr), key.len < keySize → findObjectId key w₂ = findObjectId key w)
        ∧ ∀ (objid : Int) (buf : Mem) (size offset : Nat),
            readReply env objid buf size offset w₂ = readReply env objid buf size offset w := by
  obtain ⟨hok, hclean⟩ := h.inv hr
  obtain ⟨w₁, w₂, hdestroy, hinit, hremounted, hsurvives, hok₂⟩ :=
    exists_remounted hr hok hclean (fun b hb hused => hsync.look_eq b hb hused)
  refine ⟨w₁, w₂, hdestroy, hinit, hremounted.objects_eq, ?_, ?_⟩
  . exact findObjectId_congr hremounted.objects_eq
  . exact readReply_congr hr hok.tagged hok₂.tagged (hsurvives.sameContents hok.own)

theorem Reaches.served (h : Reaches env blankDisk w) : Served env w := by
  obtain ⟨w₀, calls, hinit, hrun⟩ := h
  apply Run.inv (I := Served env) (.mount hinit) _ hrun
  rintro u ⟨op, r⟩ u' hserved ⟨hacc, hexec, hfree⟩
  exact hserved.call hacc.safe hexec hfree

theorem remount_synced_started
    : ∃ (w w₁ w₂ : World) (o : Slot), w.Started (steady true) o ∧ w.Synced
        ∧ objstoreDestroy (steady true) w = .ok (0, w₁)
        ∧ objstoreInit (steady true) (World.ofDisk w₁.disk) = .ok (0, w₂)
        ∧ findObjectId keyA w₂ = findObjectId keyA w := by
  obtain ⟨w, o, h⟩ := exists_started true
  have hsync : w.Synced := fun i hne => absurd (h.cacheInfo_eq i) hne
  obtain ⟨w₁, w₂, hdestroy, hinit, -, hfind, -⟩ :=
    remount_synced (steady_reliable true) h.reaches.served hsync
  exact ⟨w, w₁, w₂, o, h, hsync, hdestroy, hinit, hfind keyA keyA_short.lt⟩

theorem World.Remounted.readReply_first (hr : env.Reliable) (h : w.Remounted w') (htag : w'.Tagged)
    (hown : (w.view env).Own) (hne : (w.objects o).direct 0 ≠ 0#32) (dst : Mem)
    : ∃ (buf : Mem), readReply env o.id dst 4096 0 w' = .ok (4096, buf)
        ∧ buf 0 = (w.disk ((w.objects o).direct 0)).get 0 := by
  have hres : resBlocks ≤ ((w.objects o).direct 0).toNat :=
    Nat.le_of_not_lt (hown.ptr_not_reserved (.direct o 0) hne)
  have hplace : (w'.view env).ptr (dataRef o 0) = (w.objects o).direct 0 := by
    rw [← h.objects_eq]
    rfl
  have hbyte : (w'.view env).byteAt o 0 = some ((w.disk ((w.objects o).direct 0)).get 0) := by
    have hcell : (w'.view env).cell (dataRef o 0) = some (w.disk ((w.objects o).direct 0)) := by
      unfold View.cell
      rw [hplace, if_neg hne, h.data_eq _ hne, h.data _ hres]
    exact byteAt_eq hcell 0 (by decide)
  obtain ⟨buf, u, hread, hbuf⟩ := objstoreRead_present hr htag o dst 4096 0 (by decide) (by decide) 1
    (by decide)
    (by
      intro t _ ht
      have : t = 0 := by omega
      rw [this, hplace]
      exact hne)
    (by
      intro i hi
      omega)
  have hbuf₀ := hbuf 0 (by decide) (by decide) (by decide)
  rw [hbyte] at hbuf₀
  refine ⟨buf, ?_, (Option.some.inj hbuf₀).symm⟩
  simp only [readReply, hread, Except.map]
  rfl

theorem exists_unflushed
    : ∃ (w : World) (o : Slot) (buf : Mem), Reaches (steady true) blankDisk w
        ∧ (w.objects o).size ≠ 0#64 ∧ (w.objects o).direct 0 ≠ 0#32
        ∧ w.disk ((w.objects o).direct 0) = Buf.zero blockSize
        ∧ readReply (steady true) o.id (fun _ => 0#8) 4096 0 w = .ok (4096, buf) ∧ buf 0 = 1#8 := by
  have hr := steady_reliable true
  obtain ⟨w₀, o, hstarted⟩ := exists_started true
  obtain ⟨w, hwrite, hfree, hdisk, -⟩ := hstarted.write (fun _ => 1#8) 4096 (by decide) (by decide)
  have hstep : Step (steady true) w₀ (.write o.id (fun _ => 1#8) 4096 0, ⟨4096, none⟩) w :=
    ⟨⟨⟨o, rfl, hstarted.live⟩, by decide, by decide, by decide⟩, Op.exec_write hwrite, hfree⟩
  obtain ⟨w', hwrite', htag, hcase⟩ := objstoreWrite_spec hr (hstarted.reaches.ok hr own_blank) o
    (fun _ => 1#8) 4096 0 (by decide) (by decide)
  rw [hwrite] at hwrite'
  cases hwrite'
  cases hcase with
  | inl hfull => exact absurd hfull hfree
  | inr hgood =>
    obtain ⟨-, v, hprog, hview⟩ := hgood
    obtain ⟨buf, u, hread, hbuf⟩ := objstoreRead_written hr htag (by decide) (by decide) (by decide)
      hprog hview (fun _ => 0#8)
    have hne : (w.objects o).direct 0 ≠ 0#32 := by
      have hbyte := hprog.byteAt_new (by decide) 0 (by decide) (by decide)
      rw [← byteAt_finish v o (BitVec.ofNat 64 (0 + 4096)), ← hview] at hbyte
      exact ptr_ne_zero_of_byteAt (t := 0) hbyte
    refine ⟨w, o, buf, hstarted.reaches.step hstep, ?_, hne, hdisk _ hne, ?_, hbuf 0 (by decide)⟩
    . rw [(Effect.written_objects hprog hview).2.2]
      decide
    . simp only [readReply, hread, Except.map]
      rfl

/--
The flush of `objstore_destroy` passes over the slots that are occupied: a block of ones that was only
ever in the cache reads as zeros after the next mount.
-/
theorem remount_loses_block
    : ∃ (w w₁ w₂ : World) (o : Slot) (buf buf₂ : Mem), Reaches (steady true) blankDisk w
        ∧ (w.objects o).size ≠ 0#64
        ∧ objstoreDestroy (steady true) w = .ok (0, w₁)
        ∧ objstoreInit (steady true) (World.ofDisk w₁.disk) = .ok (0, w₂)
        ∧ readReply (steady true) o.id (fun _ => 0#8) 4096 0 w = .ok (4096, buf) ∧ buf 0 = 1#8
        ∧ readReply (steady true) o.id (fun _ => 0#8) 4096 0 w₂ = .ok (4096, buf₂) ∧ buf₂ 0 = 0#8 := by
  have hr := steady_reliable true
  obtain ⟨w, o, buf, hreach, hlive, hne, hdisk, hread, hbuf⟩ := exists_unflushed
  have hok := hreach.ok hr own_blank
  obtain ⟨w₁, hdestroy, hunmounted⟩ := objstoreDestroy_spec hr w
  obtain ⟨w₂, hinit, hmounted⟩ := objstoreInit_spec hr (World.ofDisk w₁.disk)
  have hremounted := hunmounted.remounted hok (hreach.clean hr own_blank) hmounted
  obtain ⟨buf₂, hread₂, hbuf₂⟩ :=
    hremounted.readReply_first hr hmounted.tagged hok.own hne (fun _ => 0#8)
  rw [hdisk, Buf.get_zero] at hbuf₂
  exact ⟨w, w₁, w₂, o, buf, buf₂, hreach, hlive, hdestroy, hinit, hread, hbuf, hread₂, hbuf₂⟩

end ObjStore
