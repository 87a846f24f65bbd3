import CS330.ObjStore.Contents
import CS330.ObjStore.Lemmas.Places
import CS330.ObjStore.Space

/-!
This module contains what a write into a block that is there already does to the rest of the object. The old
bytes are read only for a write that does not begin with the block, and a block behind a hole is seen where
it does not belong.
-/

namespace ObjStore

open View

/-- The reads of the bytes of an object that a write was not about give the same before and after it. -/
def Preserves (env : Env) (w w' : World) (o : Slot) (size offset : Nat) : Prop :=
  ∀ (dst : Mem) (n a : Nat), n ≤ maxSize → a % blockSize = 0
    → ∃ (before after : Mem) (u u' : World),
        objstoreRead env o.id dst n a w = .ok (n, before, u)
        ∧ objstoreRead env o.id dst n a w' = .ok (n, after, u')
        ∧ ∀ (p : Nat), p < n → a + p < maxSize → ¬ (offset ≤ a + p ∧ a + p < offset + size)
          → after p = before p

-- There is a hole from which on a read gets to block `t` too early.
def View.Displaced (v : View) (o : Slot) (t : Nat) : Prop :=
  (∃ (k : Nat), k < loopStart t ∧ v.ptr (dataRef o k) = 0#32)
    ∧ ∀ (u : Nat), loopStart t ≤ u → u < t → v.ptr (dataRef o u) ≠ 0#32

/--
A write at the start of a block finds zeros behind its end. Where the block is seen in a wrong place, the
write changes nothing.
-/
def View.KeepsRest (v : View) (o : Slot) (buf : Mem) (size offset : Nat) : Prop :=
  (offset % 4096 = 0 → ∀ (q : Nat), size ≤ q → q < 4096 → v.byteAt o (offset + q) = some 0#8)
    ∧ (v.Displaced o (offset / 4096)
      → ∀ (k : Nat), k < size → v.byteAt o (offset + k) = some (buf k))

variable {env : Env} {w w' : World} {disk : BlockNo → Block} {o : Slot} {buf : Mem} {size offset : Nat}

/-- What a write of `size` bytes within block `offset / 4096` does to the contents. -/
structure View.Overwritten (v v' : View) (o : Slot) (buf : Mem) (size offset : Nat) : Prop where
  ptr_iff : ∀ (t : Nat), t < 4100 → (v'.ptr (dataRef o t) = 0#32 ↔ v.ptr (dataRef o t) = 0#32)
  other : ∀ (t q : Nat), t < 4100 → t ≠ offset / 4096 → q < 4096
    → v'.byteAt o (4096 * t + q) = v.byteAt o (4096 * t + q)
  new : ∀ (k : Nat), k < size → v'.byteAt o (offset + k) = some (buf k)
  rest : ∀ (q : Nat), q < 4096
    → ¬ (offset ≤ 4096 * (offset / 4096) + q ∧ 4096 * (offset / 4096) + q < offset + size)
    → v'.byteAt o (4096 * (offset / 4096) + q)
      = if offset % 4096 = 0 then some 0#8 else v.byteAt o (4096 * (offset / 4096) + q)

theorem Job.Progress.overwritten {v v' : View} {hfit : InBlock size offset}
    (h : (Job.ofWrite o buf size offset hfit).Progress v v' 4100) (hpos : 1 ≤ size)
    (hin : offset % blockSize + size ≤ blockSize) (hmax : offset < maxSize)
    (hptr : v.ptr (dataRef o (offset / 4096)) ≠ 0#32)
    : v.Overwritten v' o buf size offset := by
  have hstart : startBlock offset = offset / 4096 := startBlock_eq (by omega)
  simp only [blockSize, maxSize] at hin hmax
  have htouched : ∀ (t : Nat), (Job.ofWrite o buf size offset hfit).Touched t ↔ t = offset / 4096 := by
    intro t
    simp only [Job.Touched, Job.ofWrite, hstart]
    omega
  have hpos' : (Job.ofWrite o buf size offset hfit).pos = offset := by
    simp only [Job.pos, Job.ofWrite, hstart]
    omega
  have hother : ∀ (t : Nat), t < 4100 → t ≠ offset / 4096 → v'.cell (dataRef o t) = v.cell (dataRef o t) := by
    intro t ht hne
    apply h.frame _ (dataRef_isData _ _)
    intro s hs hs' heq
    rw [htouched] at hs'
    exact hne ((dataRef_inj ht hs heq).trans hs')
  obtain ⟨blk, hcell, hw⟩ := h.written (offset / 4096) (by omega) ((htouched _).mpr rfl)
  have hcell' : v'.cell (dataRef o (offset / 4096)) = some blk := hcell
  refine ⟨?_, ?_, ?_, ?_⟩
  . intro t ht
    by_cases heq : t = offset / 4096
    . subst heq
      rw [← cell_eq_none, hcell']
      simp [hptr]
    . rw [← cell_eq_none, ← cell_eq_none, hother t ht heq]
  . intro t q ht hne hq
    have hdiv : (4096 * t + q) / 4096 = t := by omega
    unfold byteAt
    rw [hdiv, hother t ht hne]
  . intro k hk
    have hnew := h.byteAt_new (by simp only [maxSize, blockSize]; omega) (offset + k) (by omega) (by omega)
    rw [hnew]
    congr 2
    omega
  . intro q hq hout
    rw [byteAt_eq hcell' q hq, Buf.get_lt _ _ hq]
    have hout' : ¬ ((Job.ofWrite o buf size offset hfit).pos ≤ 4096 * (offset / 4096) + q
        ∧ 4096 * (offset / 4096) + q
          < (Job.ofWrite o buf size offset hfit).pos + (Job.ofWrite o buf size offset hfit).size) := by
      rw [hpos']
      exact hout
    by_cases hshift : offset % 4096 = 0
    . rw [if_pos hshift, hw.tail hshift ⟨q, hq⟩ hout']
      unfold Job.temp
      rw [if_pos (by simp only [Job.ofWrite, hstart]; omega)]
    . rw [if_neg hshift]
      have hcell₀ := cell_eq v _ hptr
      rw [byteAt_eq hcell₀ q hq, Buf.get_lt _ _ hq]
      exact congrArg some (hw.old (Nat.pos_of_ne_zero hshift) ⟨q, hq⟩ hout' _ hcell₀)

theorem View.displaced_of_route {v : View} {s k t : Nat} (htidy : (v.objects o).Tidy)
    (hroute : (v.route o s)[k]? = some t) (hne : s + k ≠ t)
    : v.Displaced o t := by
  have hle := le_of_route htidy hroute
  obtain ⟨ht, -, hpresent⟩ := (mem_route htidy).mp (List.mem_of_getElem? hroute)
  have hhole : ∃ (u : Nat), s ≤ u ∧ u ≤ s + k ∧ v.ptr (dataRef o u) = 0#32 := by
    apply Classical.byContradiction
    intro hnone
    have hroute' := View.route_eq htidy (by omega) (fun u h1 h2 h3 => hnone ⟨u, h1, h2, h3⟩)
    rw [hroute'] at hroute
    exact hne (Option.some.inj hroute)
  obtain ⟨u, h1, h2, hnull⟩ := hhole
  have hlt : u < loopStart t := by
    apply Classical.byContradiction
    intro hge
    exact hpresent u h1 (by omega) (by omega) hnull
  refine ⟨⟨u, hlt, hnull⟩, ?_⟩
  intro u' h3 h4
  exact hpresent u' (by omega) h3 (by omega)

theorem World.need_eq_zero (env : Env) (w : World) (htidy : (w.objects o).Tidy)
    (hin : offset % blockSize + size ≤ blockSize) (hmax : offset < maxSize)
    (hptr : (w.view env).ptr (dataRef o (offset / 4096)) ≠ 0#32)
    : w.need env o size offset = 0 := by
  have hstart : startBlock offset = offset / 4096 := startBlock_eq (by omega)
  simp only [blockSize, maxSize] at hin hmax
  unfold World.need
  rw [hstart, Nat.add_eq_zero_iff, Finset.card_eq_zero, Finset.card_eq_zero, Finset.filter_eq_empty_iff,
    Finset.filter_eq_empty_iff]
  constructor
  . rintro t - ⟨htouched, hnull⟩
    have ht : t = offset / 4096 := by omega
    subst ht
    exact hptr hnull
  . rintro i - ⟨hi, hnull⟩
    have hle : 4 + 1024 * i.val ≤ offset / 4096 := by omega
    apply htidy.indirect_le _ i ?_ (indirect_of_ptr (by omega) (by omega) hptr) hnull
    show i.val ≤ (offset / 4096 - 4) / 1024
    omega

-- Reads from a block of the object on deliver what they did for the bytes that were not written.
def View.Kept (v v' : View) (o : Slot) (size offset : Nat) : Prop :=
  ∀ (s p : Nat), 4096 * s + p < maxSize → ¬ (offset ≤ 4096 * s + p ∧ 4096 * s + p < offset + size)
    → v'.served o s p = v.served o s p

namespace View.Overwritten

variable {v v' : View} (h : v.Overwritten v' o buf size offset)
variable (htidy : (v.objects o).Tidy) (htidy' : (v'.objects o).Tidy)
variable (hin : offset % blockSize + size ≤ blockSize) (hmax : offset < maxSize)
variable (hptr : v.ptr (dataRef o (offset / 4096)) ≠ 0#32)

include h htidy htidy'

theorem route_eq (s : Nat) : v'.route o s = v.route o s :=
  route_congr htidy htidy' h.ptr_iff

-- Byte `q` of what a read from block `s` on delivers in place of block `k`, if that is block `t`.
theorem served_eq {s k t q : Nat} (hq : q < 4096) (hroute : (v.route o s)[k]? = some t)
    : v.served o s (4096 * k + q) = (v.byteAt o (4096 * t + q)).getD 0#8
      ∧ v'.served o s (4096 * k + q) = (v'.byteAt o (4096 * t + q)).getD 0#8 := by
  have hdiv : (4096 * k + q) / 4096 = k := by omega
  have hmod : (4096 * k + q) % 4096 = q := by omega
  unfold served
  simp only [h.route_eq htidy htidy', hdiv, hmod, hroute, and_self]

-- The converse: what is delivered from other blocks is what it was.
theorem kept (hkeeps : v.KeepsRest o buf size offset) : v.Kept v' o size offset := by
  intro s p hp hout
  simp only [maxSize, blockSize] at hp
  obtain ⟨k, q, hq, rfl⟩ : ∃ (k q : Nat), q < 4096 ∧ p = 4096 * k + q :=
    ⟨p / 4096, p % 4096, Nat.mod_lt _ (by decide), by omega⟩
  cases hroute : (v.route o s)[k]? with
  | none =>
    have hdiv : (4096 * k + q) / 4096 = k := by omega
    unfold served
    rw [h.route_eq htidy htidy', hdiv, hroute]
  | some t =>
    obtain ⟨hold, hnew⟩ := h.served_eq htidy htidy' hq hroute
    rw [hold, hnew]
    obtain ⟨ht, hst, hpresent⟩ := (mem_route htidy).mp (List.mem_of_getElem? hroute)
    by_cases heq : t = offset / 4096
    . subst heq
      by_cases hwrote : offset ≤ 4096 * (offset / 4096) + q ∧ 4096 * (offset / 4096) + q < offset + size
      . -- the bytes that were written, in a wrong place
        have hdisp := View.displaced_of_route htidy hroute (by omega)
        have hsame := hkeeps.2 hdisp (4096 * (offset / 4096) + q - offset) (by omega)
        have hnew := h.new (4096 * (offset / 4096) + q - offset) (by omega)
        have hpos : offset + (4096 * (offset / 4096) + q - offset) = 4096 * (offset / 4096) + q := by omega
        rw [hpos] at hsame hnew
        rw [hsame, hnew]
      . rw [h.rest q hq hwrote]
        split
        . next halign =>
          have hbase : 4096 * (offset / 4096) = offset := by omega
          rw [hbase, hkeeps.1 halign q (by omega) hq]
        . rfl
    . rw [h.other t q ht heq hq]

include hin hmax hptr

omit hin in
-- Behind a write at the start of its block come zeros.
theorem zero_behind (hkept : v.Kept v' o size offset) (halign : offset % 4096 = 0) (q : Nat)
    (hq : size ≤ q) (hq' : q < 4096)
    : v.byteAt o (offset + q) = some 0#8 := by
  simp only [blockSize, maxSize] at hmax
  have hbase : 4096 * (offset / 4096) = offset := by omega
  have hroute : (v.route o (offset / 4096))[0]? = some (offset / 4096) := by
    apply View.route_eq htidy (k := 0) (by omega)
    intro u h1 h2
    have : u = offset / 4096 := by omega
    rw [this]
    exact hptr
  have hserved := hkept (offset / 4096) (4096 * 0 + q) (by simp only [maxSize, blockSize]; omega) (by omega)
  obtain ⟨hold, hnew⟩ := h.served_eq htidy htidy' hq' hroute
  have hrest := h.rest q hq' (by omega)
  rw [if_pos halign] at hrest
  have hbyte := byteAt_eq (cell_eq v _ hptr) q hq'
  rw [hold, hnew, hrest, hbyte] at hserved
  rw [hbase] at hbyte
  rw [hbyte]
  exact congrArg some hserved.symm

-- A block that is seen in a wrong place does not change.
theorem same_displaced (hkept : v.Kept v' o size offset) (hdisp : v.Displaced o (offset / 4096)) (k : Nat)
    (hk : k < size)
    : v.byteAt o (offset + k) = some (buf k) := by
  simp only [blockSize, maxSize] at hin hmax
  obtain ⟨⟨s, hs, hnull⟩, hpresent⟩ := hdisp
  have hstart := loopStart_le (offset / 4096)
  have hmem : offset / 4096 ∈ v.route o s := by
    apply (mem_route htidy).mpr
    refine ⟨by omega, by omega, ?_⟩
    intro u h1 h2 h3
    by_cases heq : u = offset / 4096
    . rw [heq]
      exact hptr
    . exact hpresent u h2 (by omega)
  obtain ⟨i, hroute⟩ := List.mem_iff_getElem?.mp hmem
  have hlt := lt_of_route htidy hroute s (Nat.le_refl s) (by omega) hnull
  have hq : offset % 4096 + k < 4096 := by omega
  have hserved := hkept s (4096 * i + (offset % 4096 + k)) (by simp only [maxSize, blockSize]; omega)
    (by omega)
  obtain ⟨hold, hnew⟩ := h.served_eq htidy htidy' hq hroute
  have hpos : 4096 * (offset / 4096) + (offset % 4096 + k) = offset + k := by omega
  have hbyte := byteAt_eq (cell_eq v _ hptr) (offset % 4096 + k) hq
  rw [hold, hnew, hbyte, hpos, h.new k hk] at hserved
  rw [hpos] at hbyte
  rw [hbyte]
  exact congrArg some hserved.symm

end View.Overwritten

theorem preserves_iff_kept (hr : env.Reliable) (htag : w.Tagged) (htag' : w'.Tagged)
    : Preserves env w w' o size offset ↔ (w.view env).Kept (w'.view env) o size offset := by
  constructor
  . intro h s p hp hout
    have hstart : startBlock (4096 * s) = s := by
      rw [startBlock_eq (by omega)]
      omega
    have haligned : 4096 * s % blockSize = 0 := Nat.mul_mod_right 4096 s
    obtain ⟨before, after, u, u', hread, hread', hsame⟩ :=
      h (fun _ => 0#8) maxSize (4096 * s) (Nat.le_refl _) haligned
    obtain ⟨before', _, heq, -, hserved⟩ :=
      objstoreRead_route hr htag o (fun _ => 0#8) maxSize (4096 * s) (Nat.le_refl _) haligned
    obtain ⟨after', _, heq', -, hserved'⟩ :=
      objstoreRead_route hr htag' o (fun _ => 0#8) maxSize (4096 * s) (Nat.le_refl _) haligned
    rw [hread] at heq
    cases heq
    rw [hread'] at heq'
    cases heq'
    have hp' : p < maxSize := by omega
    rw [hstart] at hserved hserved'
    rw [← hserved p hp', ← hserved' p hp']
    exact hsame p hp' hp hout
  . intro h dst n a hn haligned
    obtain ⟨before, u, hread, -, hserved⟩ := objstoreRead_route hr htag o dst n a hn haligned
    obtain ⟨after, u', hread', -, hserved'⟩ := objstoreRead_route hr htag' o dst n a hn haligned
    refine ⟨before, after, u, u', hread, hread', ?_⟩
    intro p hp hmax hout
    have hstart : startBlock a = a / 4096 := startBlock_eq (by omega)
    have hbase : 4096 * (a / 4096) = a := by
      simp only [blockSize] at haligned
      omega
    rw [hserved p hp, hserved' p hp, hstart]
    apply h
    . rw [hbase]
      exact hmax
    . rw [hbase]
      exact hout

section Reaches

variable {r : Int}

theorem World.Ok.overwritten (hr : env.Reliable) (hok : w.Ok env) (htidy : Tidy w.objects) (hpos : 1 ≤ size)
    (hin : offset % blockSize + size ≤ blockSize) (hmax : offset < maxSize)
    (hptr : (w.view env).ptr (dataRef o (offset / 4096)) ≠ 0#32)
    (hwrite : objstoreWrite env o.id buf size offset w = .ok (r, w'))
    : w'.Tagged ∧ Tidy w'.objects ∧ (w.view env).Overwritten (w'.view env) o buf size offset := by
  have hfit : InBlock size offset := by
    unfold InBlock
    omega
  have hlive : (w.objects o).size ≠ 0#64 := by
    intro hfree
    exact hptr (Tidy.ptr_free (v := w.view env) htidy hfree _ (dataRef_slot o _))
  have hoff : offset < 2 ^ 63 := by
    simp only [maxSize, blockSize] at hmax
    omega
  have hroom : ¬ (Op.write o.id buf size offset).Starves env w := by
    rintro ⟨o', hid, -, hlt⟩
    have := Slot.id_inj hid
    subst this
    have := w.need_eq_zero env (htidy o) hin hmax hptr
    omega
  have hstep : RoomyStep env w (.write o.id buf size offset, ⟨r, none⟩) w' :=
    ⟨⟨⟨o, rfl, hlive⟩, hpos, hfit, hoff⟩, Op.exec_write hwrite, hroom⟩
  have heff := hstep.effect hr hok
  obtain ⟨htag, -, v, hprog, hview⟩ := hstep.written hr hok (by simp only [maxSize, blockSize] at *; omega) hfit
  have hover := hprog.overwritten hpos hin hmax hptr
  refine ⟨htag, heff.tidy hstep.1 htidy, ?_⟩
  rw [hview]
  refine ⟨?_, ?_, ?_, ?_⟩
  . intro t ht
    rw [← cell_eq_none, cell_finish, cell_eq_none]
    exact hover.ptr_iff t ht
  . intro t q ht hne hq
    rw [byteAt_finish]
    exact hover.other t q ht hne hq
  . intro k hk
    rw [byteAt_finish]
    exact hover.new k hk
  . intro q hq hout
    rw [byteAt_finish]
    exact hover.rest q hq hout

/--
A write within a block that the object has keeps the other bytes of the object exactly when it does not
begin with the block or finds zeros behind its end, and changes nothing if the block is seen elsewhere.
-/
theorem preserves_iff (hr : env.Reliable) (hown : (diskView disk).Own) (htidy : Tidy (diskObj disk))
    (h : Reaches env disk w) (hpos : 1 ≤ size) (hin : offset % blockSize + size ≤ blockSize)
    (hmax : offset < maxSize) (hptr : (w.view env).ptr (dataRef o (offset / 4096)) ≠ 0#32)
    (hwrite : objstoreWrite env o.id buf size offset w = .ok (r, w'))
    : Preserves env w w' o size offset ↔ (w.view env).KeepsRest o buf size offset := by
  have hok := h.ok hr hown
  have htidy₁ := h.tidy hr hown htidy
  obtain ⟨htag, htidy₂, hover⟩ := hok.overwritten hr htidy₁ hpos hin hmax hptr hwrite
  rw [preserves_iff_kept hr hok.tagged htag]
  constructor
  . intro hkept
    exact ⟨hover.zero_behind (htidy₁ o) (htidy₂ o) hmax hptr hkept,
      hover.same_displaced (htidy₁ o) (htidy₂ o) hin hmax hptr hkept⟩
  . exact hover.kept (htidy₁ o) (htidy₂ o)

end Reaches

theorem exists_ones
    : ∃ (w : World) (o : Slot), Reaches (steady true) blankDisk w
        ∧ (w.view (steady true)).ptr (dataRef o 0) ≠ 0#32
        ∧ ∀ (q : Nat), q < 4096 → (w.view (steady true)).byteAt o q = some 1#8 := by
  have hr := steady_reliable true
  obtain ⟨w, o, hstarted⟩ := exists_started true
  have hok := hstarted.reaches.ok hr own_blank
  obtain ⟨w', hwrite, hfree, -⟩ := hstarted.write (fun _ => 1#8) 4096 (by decide) (by decide)
  have hstep : Step (steady true) w (.write o.id (fun _ => 1#8) 4096 0, ⟨4096, none⟩) w' :=
    ⟨⟨⟨o, rfl, hstarted.live⟩, by decide, by decide, by decide⟩, Op.exec_write hwrite, hfree⟩
  obtain ⟨-, -, v, hprog, hview⟩ := (hstep.roomy hr hok).written hr hok (by decide) (by decide)
  have hbytes : ∀ (q : Nat), q < 4096 → (w'.view (steady true)).byteAt o q = some 1#8 := by
    intro q hq
    rw [hview, byteAt_finish]
    exact hprog.byteAt_new (by decide) q (by omega) (by omega)
  refine ⟨w', o, hstarted.reaches.step hstep, ?_, hbytes⟩
  exact ptr_ne_zero_of_byteAt (t := 0) (hbytes 0 (by decide))

theorem exists_write (w : World) (o : Slot) (hok : w.Ok (steady true)) (buf : Mem) (size offset : Nat)
    (hsize : size ≤ maxSize) (hfit : InBlock size offset)
    : ∃ (w' : World), objstoreWrite (steady true) o.id buf size offset w = .ok (size, w') := by
  obtain ⟨w', hwrite, -⟩ := objstoreWrite_spec (steady_reliable true) hok o buf size offset hsize hfit
  exact ⟨w', hwrite⟩

theorem preserves_ones
    : ∃ (w w' : World) (o : Slot), Reaches (steady true) blankDisk w
        ∧ objstoreWrite (steady true) o.id (fun _ => 2#8) 100 1 w = .ok (100, w')
        ∧ Preserves (steady true) w w' o 100 1 := by
  have hr := steady_reliable true
  obtain ⟨w, o, hreach, hptr, -⟩ := exists_ones
  obtain ⟨w', hwrite⟩ := exists_write w o (hreach.ok hr own_blank) (fun _ => 2#8) 100 1 (by decide) (by decide)
  refine ⟨w, w', o, hreach, hwrite, ?_⟩
  rw [preserves_iff hr own_blank tidy_blank hreach (by decide) (by decide) (by decide) hptr hwrite]
  refine ⟨fun halign => absurd halign (by decide), ?_⟩
  rintro ⟨⟨k, hk, -⟩, -⟩
  exact absurd hk (Nat.not_lt_zero k)

/-- One byte is written at the start of a block of ones, and the ones behind it are gone. -/
theorem not_preserves_ones
    : ∃ (w w' : World) (o : Slot), Reaches (steady true) blankDisk w
        ∧ (w.view (steady true)).ptr (dataRef o 0) ≠ 0#32
        ∧ objstoreWrite (steady true) o.id (fun _ => 2#8) 1 0 w = .ok (1, w')
        ∧ ¬ Preserves (steady true) w w' o 1 0 := by
  have hr := steady_reliable true
  obtain ⟨w, o, hreach, hptr, hones⟩ := exists_ones
  have hok := hreach.ok hr own_blank
  have htidy := hreach.tidy hr own_blank tidy_blank
  obtain ⟨w', hwrite⟩ := exists_write w o hok (fun _ => 2#8) 1 0 (by decide) (by decide)
  refine ⟨w, w', o, hreach, hptr, hwrite, ?_⟩
  obtain ⟨htag, htidy', hover⟩ :=
    hok.overwritten hr htidy (by decide) (by decide) (by decide) hptr hwrite
  rw [preserves_iff_kept hr hok.tagged htag]
  intro hkept
  have hzero := hover.zero_behind (htidy o) (htidy' o) (by decide) hptr hkept rfl 1 (by decide) (by decide)
  rw [hones _ (by decide)] at hzero
  exact absurd hzero (by decide)

end ObjStore
