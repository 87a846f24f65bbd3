import CS330.ObjStore.Contents
import CS330.ObjStore.Lemmas.Frame
import Mathlib.Data.List.Induction

/-!
This module contains the size that `fillup_size_details` reports. It is where the last write has ended, even if
an earlier one went further, and 1 before the first write.
-/

namespace ObjStore

open View

-- keys that fit into the key field, and offsets that fit into an `off_t`
def Op.Sized : Op → Prop
  | .create key => key.len < keySize
  | .write _ _ _ offset => offset < 2 ^ 63
  | _ => True

-- the call has begun, ended or written the object in slot `o`
def Op.Resizes (w : World) (o : Slot) (r : Int) : Op → Prop
  | .create _ => r = o.id
  | .destroy key => findObject key w = some o ∧ r = 0
  | .write objid _ _ _ => objid = o.id ∧ 0 ≤ r
  | _ => False

/--
The worlds in which the object in slot `o` has been created and not been destroyed since; `ends` is where the
writes to it that succeeded have ended. Transfers may fail, and the store may be full.
-/
inductive Written (env : Env) (o : Slot) : World → List Nat → Prop where
  | created {w w' : World} (key : CStr) (hsized : (Op.create key).Sized)
      (hcreate : createObject key w = .ok (o.id, w'))
      : Written env o w' []
  | wrote {w w' : World} {ends : List Nat} {r : Int} (h : Written env o w ends) (buf : Mem) (size offset : Nat)
      (hsized : (Op.write o.id buf size offset).Sized)
      (hwrite : objstoreWrite env o.id buf size offset w = .ok (r, w')) (hdone : 0 ≤ r)
      : Written env o w' (ends ++ [offset + size])
  | other {w w' : World} {ends : List Nat} (h : Written env o w ends) (op : Op) (r : Reply) (hsized : op.Sized)
      (hexec : op.exec env w = .ok (r, w')) (hkeeps : ¬ op.Resizes w o r.value)
      : Written env o w' ends

variable {env : Env} {w w' : World} {o : Slot} {ends : List Nat}

theorem createObject_size {key : CStr} {r : Int} (hkey : key.len < keySize) (h : createObject key w = .ok (r, w'))
    (o : Slot)
    : (w'.objects o).size = if r = o.id then 1#64 else (w.objects o).size := by
  cases createObject_cases w key hkey with
  | inl hfail =>
    obtain ⟨log, heq, -, -⟩ := hfail
    rw [heq] at h
    cases h
    rw [if_neg]
    unfold Slot.id
    omega
  | inr hdone =>
    obtain ⟨free, log, -, -, heq, -⟩ := hdone
    rw [heq] at h
    cases h
    by_cases ho : o = free
    . subst ho
      rw [if_pos rfl]
      simp [createObject.fresh]
    . have hid : ¬ free.id = o.id := by
        intro hid
        apply ho
        apply Fin.ext
        unfold Slot.id at hid
        omega
      rw [if_neg hid]
      simp [Function.update_of_ne ho]

theorem renameObject_size (key newname : CStr) (w : World) (o : Slot)
    : ((renameObject key newname w).2.objects o).size = (w.objects o).size := by
  rcases renameObject_ends key newname w with heq | ⟨o', heq⟩
  . rw [heq]
    rfl
  . rw [heq, markObjDirty_eq]
    by_cases ho : o = o'
    . subst ho
      simp only [World.setObj, Function.update_self, World.unlock, World.emit]
    . simp only [World.setObj, Function.update_of_ne ho, World.unlock, World.lock, World.emit]

theorem destroyObject_size {key : CStr} {r : Int} (h : destroyObject env key w = .ok (r, w')) (o : Slot)
    (hkeeps : ¬ (findObject key w = some o ∧ r = 0))
    : (w'.objects o).size = (w.objects o).size := by
  rcases destroyObject_finish h with ⟨-, rfl⟩ | ⟨o', hfind, hsize, h⟩
  . rfl
  . have hinv := destroyObject.finish_inv (I := w.SameNames) (fun i u hu => destroyObject.direct_sameNames o' i hu)
      (fun i u hu => destroyObject.indirect_sameNames o' i hu) h hsize (.of_objects rfl)
    cases hinv with
    | inl hgave => exact (hgave o).1
    | inr hdone =>
      obtain ⟨u, hu, hr, rfl⟩ := hdone
      have ho : o ≠ o' := by
        intro ho
        exact hkeeps ⟨by rw [hfind, ho], hr⟩
      simp only [markObjDirty_eq, World.setObj, Function.update_of_ne ho]
      exact (hu o).1

theorem objstoreWrite_size {buf : Mem} {size offset : Nat} {r : Int}
    (h : objstoreWrite env o.id buf size offset w = .ok (r, w')) (o' : Slot)
    : (r = -1 ∨ r = size ∧ size ≤ maxSize)
      ∧ (w'.objects o').size
        = if o' = o ∧ 0 ≤ r then BitVec.ofNat 64 (offset + size) else (w.objects o').size := by
  cases objstoreWrite_sameNames h with
  | inl hgave =>
    obtain ⟨rfl, hsame⟩ := hgave
    refine ⟨.inl rfl, ?_⟩
    rw [if_neg]
    . exact (hsame o').1
    . intro hdone
      exact absurd hdone.2 (by decide)
  | inr hdone =>
    obtain ⟨u, hsame, rfl, hsize, rfl⟩ := hdone
    refine ⟨.inr ⟨rfl, hsize⟩, ?_⟩
    by_cases ho : o' = o
    . subst ho
      rw [if_pos ⟨rfl, Int.natCast_nonneg size⟩]
      simp [markObjDirty_eq, World.setObj]
    . rw [if_neg (fun h => ho h.1)]
      simp only [markObjDirty_eq, World.setObj, Function.update_of_ne ho]
      exact (hsame o').1

theorem objstoreWrite_noSlot {objid : Int} {buf : Mem} {size offset : Nat} {r : Int}
    (h : objstoreWrite env objid buf size offset w = .ok (r, w')) (hid : ∀ (o : Slot), objid ≠ o.id)
    : w' = w := by
  rcases objstoreWrite_slot h with ⟨-, hw, -⟩ | ⟨o, hslot, -⟩
  . exact hw
  . exact absurd hslot (hid o)

theorem Op.exec_size {op : Op} {r : Reply} (hsized : op.Sized) (h : op.exec env w = .ok (r, w'))
    (hkeeps : ¬ op.Resizes w o r.value)
    : (w'.objects o).size = (w.objects o).size := by
  cases op with
  | create key =>
    have hne : r.value ≠ o.id := hkeeps
    rw [createObject_size hsized (Op.create_of_exec h), if_neg hne]
  | find key =>
    cases h
    rfl
  | rename key newname =>
    cases h
    exact renameObject_size key newname w o
  | destroy key => exact destroyObject_size (Op.destroy_of_exec h) o hkeeps
  | write objid buf size offset =>
    have hwrite := Op.write_of_exec h
    by_cases hid : ∃ (o' : Slot), objid = o'.id
    . obtain ⟨o', rfl⟩ := hid
      rw [(objstoreWrite_size hwrite o).2, if_neg]
      rintro ⟨rfl, hdone⟩
      exact hkeeps ⟨rfl, hdone⟩
    . rw [objstoreWrite_noSlot hwrite (fun o' ho => hid ⟨o', ho⟩)]
  | read objid buf size offset =>
    obtain ⟨buf', -, hread⟩ := Op.read_of_exec h
    exact (objstoreRead_sameNames hread o).1

theorem Written.size_eq (h : Written env o w ends)
    : (∀ (e : Nat), e ∈ ends → e < 2 ^ 64) ∧ (w.objects o).size = BitVec.ofNat 64 (ends.getLast?.getD 1) := by
  induction h with
  | created key hsized hcreate =>
    refine ⟨nofun, ?_⟩
    rw [createObject_size hsized hcreate, if_pos rfl]
    rfl
  | wrote h buf size offset hsized hwrite hdone ih =>
    obtain ⟨hreply, hsize⟩ := objstoreWrite_size hwrite o
    refine ⟨?_, ?_⟩
    . have hmax : size ≤ maxSize := by
        rcases hreply with rfl | ⟨-, hmax⟩
        . exact absurd hdone (by decide)
        . exact hmax
      have hoffset : offset < 2 ^ 63 := hsized
      simp only [maxSize, blockSize] at hmax
      intro e he
      rw [List.mem_append, List.mem_singleton] at he
      rcases he with he | rfl
      . exact ih.1 e he
      . omega
    . rw [hsize, if_pos ⟨rfl, hdone⟩, List.getLast?_concat]
      rfl
  | other h op r hsized hexec hkeeps ih =>
    refine ⟨ih.1, ?_⟩
    rw [Op.exec_size hsized hexec hkeeps, ih.2]

theorem fillupSizeDetails_size (o : Slot) (w : World) (size : BitVec 64)
    : (∃ (blocks : BitVec 64), fillupSizeDetails (o.val + 2) w = .ok (some (size, blocks)))
      ↔ (w.objects o).size = size := by
  have hlow : ¬ o.val + 2 < 2 := by omega
  have hlt : o.val + 2 - 2 < maxObjs := o.isLt
  simp only [fillupSizeDetails, hlow, hlt, ↓reduceIte, ↓reduceDIte, Except.ok.injEq, Option.some.injEq,
    Prod.mk.injEq]
  constructor
  . rintro ⟨blocks, heq, -⟩
    exact heq
  . intro heq
    exact ⟨_, heq, rfl⟩

theorem ofNat_inj {m n : Nat} (hm : m < 2 ^ 64) (hn : n < 2 ^ 64)
    : BitVec.ofNat 64 m = BitVec.ofNat 64 n ↔ m = n := by
  constructor
  . intro heq
    have hnat := congrArg BitVec.toNat heq
    rw [BitVec.toNat_ofNat, BitVec.toNat_ofNat, Nat.mod_eq_of_lt hm, Nat.mod_eq_of_lt hn] at hnat
    exact hnat
  . intro heq
    rw [heq]

/-- The size that is reported is the greatest end of a write exactly when the last write went as far as any. -/
theorem written_size_iff (h : Written env o w ends)
    : (∃ (blocks : BitVec 64),
        fillupSizeDetails (o.val + 2) w = .ok (some (BitVec.ofNat 64 (ends.max?.getD 0), blocks)))
      ↔ ∃ (before : List Nat) (last : Nat), ends = before ++ [last] ∧ ∀ (e : Nat), e ∈ before → e ≤ last := by
  obtain ⟨hbound, hsize⟩ := h.size_eq
  rw [fillupSizeDetails_size, hsize]
  cases ends using List.reverseRecOn with
  | nil =>
    constructor
    . intro heq
      exact absurd heq (by decide)
    . rintro ⟨before, last, heq, -⟩
      simp at heq
  | append_singleton before last =>
    cases hmax : (before ++ [last]).max? with
    | none => simp at hmax
    | some m =>
      obtain ⟨hmem, hge⟩ := List.max?_eq_some_iff.mp hmax
      rw [List.getLast?_concat, Option.getD_some, Option.getD_some,
        ofNat_inj (hbound last (by simp)) (hbound m hmem)]
      constructor
      . rintro rfl
        refine ⟨before, last, rfl, ?_⟩
        intro e he
        exact hge e (List.mem_append_left _ he)
      . rintro ⟨before', last', heq, hle⟩
        obtain ⟨rfl, hlast⟩ := List.append_inj' heq rfl
        cases hlast
        have hlast := hge last (by simp)
        rw [List.mem_append, List.mem_singleton] at hmem
        rcases hmem with hmem | rfl
        . exact Nat.le_antisymm hlast (hle m hmem)
        . rfl

theorem World.Started.written (h : w.Started env o) : Written env o w [] := by
  obtain ⟨w₀, -, hstep⟩ := h.step
  exact .created keyA keyA_short.lt (Op.create_of_exec hstep.2.1)

theorem written_size_iff_started
    : ∃ (w : World) (o : Slot), Written (steady true) o w [100]
        ∧ ∃ (blocks : BitVec 64), fillupSizeDetails (o.val + 2) w = .ok (some (100, blocks)) := by
  obtain ⟨w, o, hstarted⟩ := exists_started true
  obtain ⟨w', hwrite, -⟩ := hstarted.write (fun _ => 1#8) 100 (by decide) (by decide)
  have hwritten : Written (steady true) o w' [100] :=
    .wrote hstarted.written _ 100 0 (Nat.two_pow_pos 63) hwrite (by decide)
  exact ⟨w', o, hwritten, (written_size_iff hwritten).mpr ⟨[], 100, rfl, nofun⟩⟩

-- 4096 bytes, and then the first 100 of them once more
theorem not_written_size_started
    : ∃ (w : World) (o : Slot), Written (steady true) o w [4096, 100]
        ∧ ¬ ∃ (blocks : BitVec 64), fillupSizeDetails (o.val + 2) w = .ok (some (4096, blocks)) := by
  have hr := steady_reliable true
  obtain ⟨w, o, hstarted⟩ := exists_started true
  obtain ⟨w', hwrite, hfree, -⟩ := hstarted.write (fun _ => 1#8) 4096 (by decide) (by decide)
  have hstep : Step (steady true) w (.write o.id (fun _ => 1#8) 4096 0, ⟨4096, none⟩) w' :=
    ⟨⟨⟨o, rfl, hstarted.live⟩, by decide, by decide, by decide⟩, Op.exec_write hwrite, hfree⟩
  have hok := (hstarted.reaches.step hstep).ok hr own_blank
  obtain ⟨w'', hwrite', -⟩ := objstoreWrite_spec hr hok o (fun _ => 1#8) 100 0 (by decide) (by decide)
  have hwritten : Written (steady true) o w' [4096] :=
    .wrote hstarted.written _ 4096 0 (Nat.two_pow_pos 63) hwrite (by decide)
  have hwritten' : Written (steady true) o w'' [4096, 100] :=
    .wrote hwritten _ 100 0 (Nat.two_pow_pos 63) hwrite' (by decide)
  refine ⟨w'', o, hwritten', ?_⟩
  rw [fillupSizeDetails_size, hwritten'.size_eq.2]
  decide

end ObjStore
