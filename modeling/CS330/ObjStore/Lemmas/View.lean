import CS330.ObjStore.Lemmas.Alloc

/-!
This module contains how the places of a view change when a block is taken or overwritten, and that the
ownership invariant survives it.
-/

namespace ObjStore

theorem ptrAt_setPtr (buf : Block) (j j' : Fin 1024) (p : BlockNo)
    : ptrAt (setPtr buf j p) j' = if j' = j then p else ptrAt buf j' := by
  unfold ptrAt setPtr
  rw [Buf.word_setWord _ _ _ _ (by decide) (by have := j'.isLt; simp only [blockSize]; omega)]
  simp only [Fin.ext_iff]

@[simp]
theorem setPtr_ptrAt (buf : Block) (j : Fin 1024) : setPtr buf j (ptrAt buf j) = buf := by
  unfold ptrAt setPtr
  exact Buf.setWord_word _ _ (by decide) (by decide)

@[simp]
theorem ptrAt_zero (j : Fin 1024) : ptrAt (Buf.zero blockSize) j = 0#32 := by
  simp [ptrAt]

namespace View

variable {v : View}

def putPtr (v : View) : Ref → BlockNo → View
  | .direct o i, p =>
    v.setObj o { v.objects o with direct := Function.update (v.objects o).direct i p }
  | .indirect o i, p =>
    v.setObj o { v.objects o with indirect := Function.update (v.objects o).indirect i p }
  | .entry o i j, p =>
    v.setData ((v.objects o).indirect i) (setPtr (v.data ((v.objects o).indirect i)) j p)

def cell (v : View) (r : Ref) : Option Block :=
  if v.ptr r = 0#32 then none else some (v.data (v.ptr r))

def Valid (v : View) : Ref → Prop
  | .direct _ _ => True
  | .indirect _ _ => True
  | .entry o i _ => (v.objects o).indirect i ≠ 0#32

theorem cell_eq (v : View) (r : Ref) (h : v.ptr r ≠ 0#32) : v.cell r = some (v.data (v.ptr r)) := by
  simp [cell, h]

theorem cell_eq_none {v : View} {r : Ref} : v.cell r = none ↔ v.ptr r = 0#32 := by
  unfold cell
  split
  . next h => simp [h]
  . next h => simp [h]

theorem ptr_setData (b : BlockNo) (blk : Block)
    (h : ∀ (o : Slot) (i : Fin 4), (v.objects o).indirect i ≠ 0#32 → (v.objects o).indirect i ≠ b)
    (r : Ref)
    : (v.setData b blk).ptr r = v.ptr r := by
  cases r with
  | direct o i => rfl
  | indirect o i => rfl
  | entry o i j =>
    simp only [ptr, setData]
    by_cases h0 : (v.objects o).indirect i = 0#32
    . simp [h0]
    . simp [h0, Function.update_of_ne (h o i h0)]

@[simp]
theorem ptr_mark (b : BlockNo) (r : Ref) : (v.mark b).ptr r = v.ptr r := by
  cases r <;> rfl

theorem ptr_putPtr_direct (o : Slot) (i : Fin 4) (p : BlockNo) (r : Ref)
    : (v.putPtr (.direct o i) p).ptr r = Function.update v.ptr (.direct o i) p r := by
  simp only [Function.update_apply]
  cases r with
  | direct o' i' =>
    simp only [putPtr, setObj, ptr, Function.update_apply, Ref.direct.injEq]
    by_cases ho : o' = o
    . subst ho
      by_cases hi : i' = i <;> simp [hi]
    . simp [ho]
  | indirect o' i' =>
    simp only [putPtr, setObj, ptr, Function.update_apply, reduceCtorEq, ↓reduceIte]
    by_cases ho : o' = o <;> simp [ho]
  | entry o' i' j' =>
    simp only [putPtr, setObj, ptr, Function.update_apply, reduceCtorEq, ↓reduceIte]
    by_cases ho : o' = o <;> simp [ho]

section Edit

variable (o : Slot) (obj : Obj) (hdirect : obj.direct = (v.objects o).direct)
variable (hindirect : obj.indirect = (v.objects o).indirect)

include hdirect hindirect

theorem ptr_edit (r : Ref) : (v.edit o obj).ptr r = v.ptr r := by
  cases r with
  | direct o' i =>
    simp only [ptr, edit, setObj, Function.update_apply]
    by_cases ho : o' = o <;> simp [ho, hdirect]
  | indirect o' i =>
    simp only [ptr, edit, setObj, Function.update_apply]
    by_cases ho : o' = o <;> simp [ho, hindirect]
  | entry o' i j =>
    simp only [ptr, edit, setObj, Function.update_apply]
    by_cases ho : o' = o <;> simp [ho, hindirect]

theorem cell_edit (r : Ref) : (v.edit o obj).cell r = v.cell r := by
  unfold cell
  rw [ptr_edit o obj hdirect hindirect]
  rfl

theorem Own.edit (h : v.Own) : (v.edit o obj).Own :=
  Owned.congr h (fun _ => Iff.rfl) (ptr_edit o obj hdirect hindirect)

end Edit

theorem Own.indirect_ne (h : v.Own) (r : Ref) (hr : r.isData = true) (hp : v.ptr r ≠ 0#32) (o : Slot)
    (i : Fin 4)
    : (v.objects o).indirect i ≠ v.ptr r := by
  intro heq
  have := h.inj r (.indirect o i) hp heq.symm
  subst this
  simp [Ref.isData] at hr

theorem Own.ne_zero (h : v.Own) (b : BlockNo) (hb : ¬ v.Used b) : b ≠ 0#32 := by
  intro heq
  subst heq
  exact hb (h.reserved_used _ h.null_reserved)

theorem ptr_putPtr_entry (h : v.Own) (o : Slot) (i : Fin 4) (j : Fin 1024) (p : BlockNo)
    (hv : v.Valid (.entry o i j)) (r : Ref)
    : (v.putPtr (.entry o i j) p).ptr r = Function.update v.ptr (.entry o i j) p r := by
  have hind : (v.objects o).indirect i ≠ 0#32 := hv
  simp only [Function.update_apply]
  cases r with
  | direct o' i' => rfl
  | indirect o' i' => rfl
  | entry o' i' j' =>
    simp only [putPtr, setData, ptr, Ref.entry.injEq]
    by_cases h0 : (v.objects o').indirect i' = 0#32
    . have : ¬ (o' = o ∧ i' = i ∧ j' = j) := by
        rintro ⟨rfl, rfl, -⟩
        exact hind h0
      simp [h0, this]
    . simp only [h0, ↓reduceIte, Function.update_apply]
      by_cases hsame : (v.objects o').indirect i' = (v.objects o).indirect i
      . -- the pointer block is the same, hence so is the place that holds it
        have hplace := h.inj (.indirect o' i') (.indirect o i) h0 hsame
        simp only [Ref.indirect.injEq] at hplace
        obtain ⟨rfl, rfl⟩ := hplace
        simp [ptrAt_setPtr]
      . have : ¬ (o' = o ∧ i' = i ∧ j' = j) := by
          rintro ⟨rfl, rfl, -⟩
          exact hsame rfl
        simp [hsame, this]

theorem used_putPtr (r : Ref) (p b : BlockNo) : (v.putPtr r p).Used b ↔ v.Used b := by
  cases r <;> rfl

def take (v : View) (r : Ref) (b : BlockNo) : View :=
  (v.mark b).putPtr r b

theorem Own.mark_ptr (h : v.Own) (b : BlockNo) (hlt : b.toNat < 64 * blkBmpLn) (hb : ¬ v.Used b)
    (r : Ref) (hr : v.ptr r = 0#32) {v' : View} (hptr : ∀ r', v'.ptr r' = Function.update v.ptr r b r')
    (hused : ∀ b', v'.Used b' ↔ (v.mark b).Used b')
    : v'.Own := by
  apply Owned.congr (h.acquire r b hr hb)
  . intro b'
    rw [hused, used_mark _ _ _ hlt]
  . exact hptr

section Take

variable (h : v.Own) (r : Ref) (hr : r.isData = true) (hv : v.Valid r) (hp : v.ptr r = 0#32)
variable (b : BlockNo) (hlt : b.toNat < 64 * blkBmpLn) (hb : ¬ v.Used b)

include hr hv

theorem ptr_take (h : v.Own) (r' : Ref) : (v.take r b).ptr r' = Function.update v.ptr r b r' := by
  -- marking a bit changes no place, so that `ptr_putPtr` applies after it
  cases r with
  | direct o i =>
    unfold take
    rw [ptr_putPtr_direct]
    congr 1
  | indirect o i => simp [Ref.isData] at hr
  | entry o i j =>
    have := ptr_putPtr_entry h o i j b hv r'
    rw [← this]
    cases r' <;> rfl

include h hp hlt hb

theorem Own.take : (v.take r b).Own := by
  apply h.mark_ptr b hlt hb r hp
  . exact ptr_take r hr hv b h
  . intro b'
    exact used_putPtr r b b'

omit hlt hb in
theorem cell_take (r' : Ref) (hr' : r'.isData = true) (hne : r' ≠ r)
    : (v.take r b).cell r' = v.cell r' := by
  unfold cell
  rw [ptr_take r hr hv b h, Function.update_of_ne hne]
  by_cases h0 : v.ptr r' = 0#32
  . simp [h0]
  . simp only [h0, ↓reduceIte, Option.some.injEq]
    cases r with
    | direct o i => rfl
    | indirect o i => rfl
    | entry o i j =>
      simp only [View.take, putPtr, setData, mark]
      rw [Function.update_of_ne]
      exact (h.indirect_ne r' hr' h0 o i).symm

end Take

section Store

variable (h : v.Own) (r : Ref) (hr : r.isData = true) (hp : v.ptr r ≠ 0#32) (blk : Block)

include h hr hp

theorem ptr_store (r' : Ref) : (v.setData (v.ptr r) blk).ptr r' = v.ptr r' := by
  apply ptr_setData
  intro o i _
  exact h.indirect_ne r hr hp o i

theorem Own.store : (v.setData (v.ptr r) blk).Own := by
  apply Owned.congr h
  . intro b
    rfl
  . exact ptr_store h r hr hp blk

theorem cell_store (r' : Ref)
    : (v.setData (v.ptr r) blk).cell r' = if r' = r then some blk else v.cell r' := by
  unfold cell
  rw [ptr_store h r hr hp]
  by_cases heq : r' = r
  . subst heq
    simp [hp, setData]
  . by_cases h0 : v.ptr r' = 0#32
    . simp [h0, heq]
    . have hne : v.ptr r' ≠ v.ptr r := by
        intro hsame
        exact heq (h.inj r' r h0 hsame)
      simp [h0, heq, setData, Function.update_of_ne hne]

end Store

theorem setData_reserved {b : BlockNo} (hb : ¬ Reserved b) (c : Block) (k : BlockNo) (hk : Reserved k)
    : (v.setData b c).data k = v.data k := by
  simp only [setData]
  rw [Function.update_of_ne]
  rintro rfl
  exact hb hk

/-- In `v'` the place `r` of the contents holds `c`, and the rest is as in `v`. -/
structure Stored (v : View) (r : Ref) (c : Block) (v' : View) : Prop where
  own : v'.Own
  objBmp_eq : v'.objBmp = v.objBmp
  free_eq : v'.blkBmp.free + (if v.ptr r = 0#32 then 1 else 0) = v.blkBmp.free
  reserved_eq : ∀ (b : BlockNo), Reserved b → v'.data b = v.data b
  other : ∀ (o : Slot), o ≠ r.slot → v'.objects o = v.objects o
  size_eq : (v'.objects r.slot).size = (v.objects r.slot).size
  key_eq : (v'.objects r.slot).key = (v.objects r.slot).key
  indirect_eq : (v'.objects r.slot).indirect = (v.objects r.slot).indirect
  cell_self : v'.cell r = some c
  cell_other : ∀ (r' : Ref), r'.isData = true → r' ≠ r → v'.cell r' = v.cell r'

theorem Stored.old (h : v.Own) (r : Ref) (hr : r.isData = true) (hp : v.ptr r ≠ 0#32) (c : Block)
    : Stored v r c (v.setData (v.ptr r) c) where
  own := h.store r hr hp c
  objBmp_eq := rfl
  free_eq := by
    rw [if_neg hp, Nat.add_zero, setData]
  reserved_eq := by
    intro b hb
    exact setData_reserved (h.ptr_not_reserved r hp) c b hb
  other := fun _ _ => rfl
  size_eq := rfl
  key_eq := rfl
  indirect_eq := rfl
  cell_self := by
    rw [cell_store h r hr hp c]
    simp
  cell_other := by
    intro r' _ hne
    rw [cell_store h r hr hp c]
    simp [hne]

theorem Stored.new (h : v.Own) (r : Ref) (hr : r.isData = true) (hv : v.Valid r) (hp : v.ptr r = 0#32)
    (b : BlockNo) (hlt : b.toNat < 64 * blkBmpLn) (hb : ¬ v.Used b) (c : Block)
    : Stored v r c ((v.take r b).setData b c) := by
  have htake := h.take r hr hv hp b hlt hb
  have hself : (v.take r b).ptr r = b := by
    rw [ptr_take r hr hv b h]
    simp
  have hne : (v.take r b).ptr r ≠ 0#32 := by
    rw [hself]
    exact h.ne_zero b hb
  have hstore := Stored.old htake r hr hne c
  rw [hself] at hstore
  refine ⟨hstore.own, ?_, ?_, ?_, ?_, ?_, ?_, ?_, hstore.cell_self, ?_⟩
  . cases r <;> rfl
  . have hmark : ((v.take r b).setData b c).blkBmp = v.blkBmp.set b.toNat := by
      cases r <;> rfl
    have hclear : v.blkBmp.bit b.toNat = false := by
      simpa [Used] using hb
    rw [if_pos hp, hmark, Bitmap.free_set _ _ hlt hclear]
  . intro k hk
    rw [hstore.reserved_eq k hk]
    cases r with
    | direct o' i => rfl
    | indirect o' i => rfl
    | entry o' i j => exact setData_reserved (h.ptr_not_reserved (.indirect o' i) hv) _ k hk
  . intro o ho
    rw [hstore.other o ho]
    cases r with
    | direct o' i => exact Function.update_of_ne ho _ _
    | indirect o' i => exact Function.update_of_ne ho _ _
    | entry o' i j => rfl
  . cases r with
    | direct o' i => simp [View.take, putPtr, setObj, setData, mark, Ref.slot]
    | indirect o' i => simp [Ref.isData] at hr
    | entry o' i j => rfl
  . cases r with
    | direct o' i => simp [View.take, putPtr, setObj, setData, mark, Ref.slot]
    | indirect o' i => simp [Ref.isData] at hr
    | entry o' i j => rfl
  . cases r with
    | direct o' i => simp [View.take, putPtr, setObj, setData, mark, Ref.slot]
    | indirect o' i => simp [Ref.isData] at hr
    | entry o' i j => rfl
  . intro r' hr' hne'
    rw [hstore.cell_other r' hr' hne', cell_take h r hr hv hp b r' hr' hne']

def takeIndirect (v : View) (o : Slot) (i : Fin 4) (b : BlockNo) : View :=
  ((v.mark b).putPtr (.indirect o i) b).setData b (Buf.zero blockSize)

section TakeIndirect

variable (h : v.Own) (o : Slot) (i : Fin 4) (hp : (v.objects o).indirect i = 0#32)
variable (b : BlockNo) (hlt : b.toNat < 64 * blkBmpLn) (hb : ¬ v.Used b)

include h hb

theorem Own.ptr_ne (r : Ref) : v.ptr r ≠ b := by
  intro heq
  have hne : v.ptr r ≠ 0#32 := by
    rw [heq]
    exact h.ne_zero b hb
  exact hb (heq ▸ h.ptr_used r hne)

include hp

theorem ptr_takeIndirect (r : Ref)
    : (v.takeIndirect o i b).ptr r = Function.update v.ptr (.indirect o i) b r := by
  have hb0 := h.ne_zero b hb
  simp only [Function.update_apply]
  cases r with
  | direct o' i' =>
    simp only [takeIndirect, putPtr, setObj, setData, mark, ptr, Function.update_apply, reduceCtorEq,
      ↓reduceIte]
    by_cases ho : o' = o <;> simp [ho]
  | indirect o' i' =>
    simp only [takeIndirect, putPtr, setObj, setData, mark, ptr, Function.update_apply,
      Ref.indirect.injEq]
    by_cases ho : o' = o
    . subst ho
      by_cases hi : i' = i <;> simp [hi]
    . simp [ho]
  | entry o' i' j' =>
    simp only [takeIndirect, putPtr, setObj, setData, mark, ptr, Function.update_apply, reduceCtorEq,
      ↓reduceIte]
    have hold := Own.ptr_ne h b hb (.indirect o' i')
    simp only [ptr] at hold
    by_cases ho : o' = o
    . subst ho
      by_cases hi : i' = i
      . subst hi
        simp [hb0, hp]
      . simp [hi, hold]
    . simp [ho, hold]

include hlt

theorem Own.takeIndirect : (v.takeIndirect o i b).Own := by
  apply h.mark_ptr b hlt hb (.indirect o i) hp
  . exact ptr_takeIndirect h o i hp b hb
  . intro b'
    rfl

omit hlt in
theorem cell_takeIndirect (r : Ref) (hr : r.isData = true)
    : (v.takeIndirect o i b).cell r = v.cell r := by
  have hne : r ≠ .indirect o i := by
    rintro rfl
    simp [Ref.isData] at hr
  unfold cell
  rw [ptr_takeIndirect h o i hp b hb, Function.update_of_ne hne]
  have hold := Own.ptr_ne h b hb r
  simp only [View.takeIndirect, putPtr, setObj, setData, mark, Function.update_of_ne hold]

end TakeIndirect

end View

end ObjStore
