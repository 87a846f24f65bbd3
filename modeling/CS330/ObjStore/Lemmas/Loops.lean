import CS330.ObjStore.Lemmas.Update

/-!
This module contains how the calls with loops over the pointers of an object end. They give up at once, or get through
the direct pointers, and may then return while they are at the pointer blocks.
-/

namespace ObjStore

variable {env : Env} {w w' : World} {o : Slot}

theorem freePointerBlock.entry_ne_ret {blockData : Block} (j : Fin 1024) (u : World) (r : Int) (v : World)
    : entry blockData j u ≠ .ok (.ret r v) := by
  intro h
  unfold entry at h
  split at h
  . obtain ⟨u', -, h⟩ := Loop.bind_eq_ok.mp h
    cases h
  . cases h

-- A `free_pointer_block` gives up without a page or when it cannot read the block, or frees everything.
theorem freePointerBlock_cases {b : BlockNo} {r : Int} (h : freePointerBlock env b w = .ok (r, w'))
    : (cmalloc env w = (none, w') ∧ r = -1)
      ∨ ∃ (page : Block) (w₁ : World), cmalloc env w = (some page, w₁)
          ∧ ((∃ (blockData : Block), readChBlk env b page w₁ = (false, blockData, w') ∧ r = -1)
            ∨ ∃ (blockData : Block) (w₂ u : World), readChBlk env b page w₁ = (true, blockData, w₂)
              ∧ Loop.run (freePointerBlock.entry blockData) (Loop.range 1024) w₂ = .ok (.next u)
              ∧ freeBlock b u = .ok w' ∧ r = 0) := by
  unfold freePointerBlock at h
  split at h
  . next hpage =>
    cases h
    exact .inl ⟨hpage, rfl⟩
  . next page w₁ hpage =>
    refine .inr ⟨page, w₁, hpage, ?_⟩
    split at h
    . next blockData w₂ hread =>
      cases h
      exact .inl ⟨blockData, hread, rfl⟩
    . next blockData w₂ hread =>
      obtain ⟨flow, hrun, h⟩ := Loop.bind_eq_ok.mp h
      rcases Loop.run_eq_ok hrun with ⟨u, rfl⟩ | ⟨r', u, rfl⟩
      . obtain ⟨u', hfree, h⟩ := Loop.bind_eq_ok.mp h
        cases h
        exact .inr ⟨blockData, w₂, u, hread, hrun, hfree, rfl⟩
      . exact absurd hrun (Loop.run_ne_ret freePointerBlock.entry_ne_ret _ _ _ _)

-- a `destroy_object` has found an object that is in use, or has done nothing
theorem destroyObject_finish {key : CStr} {r : Int} (h : destroyObject env key w = .ok (r, w'))
    : (r = -1 ∧ w' = w)
      ∨ ∃ (o : Slot), findObject key w = some o ∧ (w.objects o).size ≠ 0#64
          ∧ destroyObject.finish env w (some o) = .ok (r, w') := by
  unfold destroyObject at h
  cases hfind : findObject key w with
  | none =>
    rw [hfind] at h
    cases h
    exact .inl ⟨rfl, rfl⟩
  | some o =>
    rw [hfind] at h
    by_cases hsize : (w.objects o).size = 0#64
    . rw [destroyObject.finish, if_pos hsize] at h
      cases h
      exact .inl ⟨rfl, rfl⟩
    . exact .inr ⟨o, rfl, hsize, h⟩

namespace destroyObject

theorem direct_ne_ret (i : Fin 4) (u : World) (r : Int) (v : World) : direct o i u ≠ .ok (.ret r v) := by
  intro h
  unfold direct at h
  split at h
  . obtain ⟨u', -, h⟩ := Loop.bind_eq_ok.mp h
    cases h
  . cases h

-- A `destroy_object` that has found its object either returns from its second loop, or clears the slot in the end.
theorem finish_loops {r : Int} (hsize : (w.objects o).size ≠ 0#64) (h : finish env w (some o) = .ok (r, w'))
    : ∃ (u v : World), Loop.run (direct o) (Loop.range 4) w = .ok (.next u)
        ∧ ((Loop.run (indirect env o) (Loop.range 4) u = .ok (.ret r v) ∧ w' = v)
          ∨ (Loop.run (indirect env o) (Loop.range 4) u = .ok (.next v)
            ∧ r = 0
            ∧ w' = markObjDirty o (v.setObj o { v.objects o with size := 0#64, key := Buf.zero keySize }))) := by
  simp only [finish, hsize, ↓reduceIte] at h
  obtain ⟨flow, hrun₁, h⟩ := Loop.bind_eq_ok.mp h
  rcases Loop.run_eq_ok hrun₁ with ⟨u, rfl⟩ | ⟨r', u, rfl⟩
  . obtain ⟨flow, hrun₂, h⟩ := Loop.bind_eq_ok.mp h
    rcases Loop.run_eq_ok hrun₂ with ⟨v, rfl⟩ | ⟨r', v, rfl⟩
    . cases h
      exact ⟨u, v, hrun₁, .inr ⟨hrun₂, rfl, rfl⟩⟩
    . cases h
      exact ⟨u, _, hrun₁, .inl ⟨hrun₂, rfl⟩⟩
  . exact absurd hrun₁ (Loop.run_ne_ret direct_ne_ret _ _ _ _)

end destroyObject

theorem Slot.exists_id {objid : Int} (h1 : ¬ objid < 2) (h2 : objid < maxObjs + 2)
    : ∃ (o : Slot), objid = o.id := by
  refine ⟨⟨(objid - 2).toNat, by omega⟩, ?_⟩
  unfold Slot.id
  simp only
  omega

theorem objstoreWrite_noObject (objid : Int) (hid : objid < 2) (buf : Mem) (size offset : Nat)
    : objstoreWrite env objid buf size offset w = .ok (-1, w) := by
  unfold objstoreWrite
  rw [if_pos hid]
  rfl

theorem objstoreRead_noObject (objid : Int) (hid : objid < 2) (buf : Mem) (size offset : Nat)
    : objstoreRead env objid buf size offset w = .ok (-1, buf, (w.lock .rd).unlock .rd) := by
  unfold objstoreRead
  rw [if_pos hid]
  rfl

-- a call that returns has named a slot, or has done nothing
theorem objstoreWrite_slot {objid : Int} {buf : Mem} {size offset : Nat} {r : Int}
    (h : objstoreWrite env objid buf size offset w = .ok (r, w'))
    : (r = -1 ∧ w' = w ∧ (objid < 2 ∨ maxSize < size)) ∨ ∃ (o : Slot), objid = o.id ∧ size ≤ maxSize := by
  by_cases hlow : objid < 2
  . rw [objstoreWrite_noObject objid hlow] at h
    cases h
    exact .inl ⟨rfl, rfl, .inl hlow⟩
  . unfold objstoreWrite at h
    rw [if_neg hlow] at h
    split at h
    . next hsize =>
      cases h
      exact .inl ⟨rfl, rfl, .inr hsize⟩
    . next hsize =>
      split at h
      . obtain ⟨o, hid⟩ := Slot.exists_id hlow (by omega)
        exact .inr ⟨o, hid, by omega⟩
      . cases h

theorem objstoreRead_slot {objid : Int} {buf buf' : Mem} {size offset : Nat} {r : Int}
    (h : objstoreRead env objid buf size offset w = .ok (r, buf', w'))
    : (r = -1 ∧ w' = (w.lock .rd).unlock .rd ∧ (objid < 2 ∨ maxSize < size))
      ∨ ∃ (o : Slot), objid = o.id ∧ size ≤ maxSize := by
  by_cases hlow : objid < 2
  . rw [objstoreRead_noObject objid hlow] at h
    cases h
    exact .inl ⟨rfl, rfl, .inl hlow⟩
  . unfold objstoreRead at h
    rw [if_neg hlow] at h
    split at h
    . next hsize =>
      cases h
      exact .inl ⟨rfl, rfl, .inr hsize⟩
    . next hsize =>
      split at h
      . obtain ⟨o, hid⟩ := Slot.exists_id hlow (by omega)
        exact .inr ⟨o, hid, by omega⟩
      . cases h

namespace objstoreRead

variable {size start : Nat}

theorem direct_ne_ret (i : Fin 4) (s : Xfer × Mem × World) (r : Int) (v : Xfer × Mem × World)
    : direct env o size start i s ≠ .ok (.ret r v) := by
  intro h
  unfold direct at h
  simp only at h
  split at h
  . cases h
  . split at h
    . obtain ⟨res, -, h⟩ := Loop.bind_eq_ok.mp h
      cases h
    . cases h

theorem entry_ne_ret {blockData : Block} (j : Fin 1024) (s : Xfer × Mem × World) (r : Int)
    (v : Xfer × Mem × World)
    : entry env size start blockData j s ≠ .ok (.ret r v) := by
  intro h
  unfold entry at h
  simp only at h
  split at h
  . cases h
  . split at h
    . obtain ⟨res, -, h⟩ := Loop.bind_eq_ok.mp h
      cases h
    . cases h

-- A pass for a pointer block leaves the loop, gives the call up, or gets through the entries.
inductive Pass (env : Env) (o : Slot) (size start : Nat) (i : Fin 4) (x : Xfer) (buf : Mem) (w : World)
    : Loop.Flow Int (Xfer × Mem × World) → Prop where
  | leaves (hstop : ¬ ((w.objects o).indirect i ≠ 0#32 ∧ 0 < x.remaining))
    : Pass env o size start i x buf w (.stop (x, buf, w))
  | noPage (hgo : (w.objects o).indirect i ≠ 0#32 ∧ 0 < x.remaining) (w₁ : World)
    (hpage : cmalloc env w = (none, w₁))
    : Pass env o size start i x buf w (.ret (-1) (x, buf, w₁.unlock .rd))
  | unread (hgo : (w.objects o).indirect i ≠ 0#32 ∧ 0 < x.remaining) (page blockData : Block) (w₁ w₂ : World)
    (hpage : cmalloc env w = (some page, w₁))
    (hread : readChBlk env ((w₁.objects o).indirect i) page w₁ = (false, blockData, w₂))
    : Pass env o size start i x buf w (.ret (-1) (x, buf, w₂.unlock .rd))
  | through (hgo : (w.objects o).indirect i ≠ 0#32 ∧ 0 < x.remaining) (page blockData : Block) (w₁ w₂ : World)
    (u : Xfer × Mem × World) (hpage : cmalloc env w = (some page, w₁))
    (hread : readChBlk env ((w₁.objects o).indirect i) page w₁ = (true, blockData, w₂))
    (hrun : Loop.run (entry env size start blockData) (Loop.range 1024) (x, buf, w₂) = .ok (.next u))
    : Pass env o size start i x buf w (.next u)

theorem indirect_pass {i : Fin 4} {x : Xfer} {buf : Mem} {flow : Loop.Flow Int (Xfer × Mem × World)}
    (h : indirect env o size start i (x, buf, w) = .ok flow)
    : Pass env o size start i x buf w flow := by
  simp only [indirect] at h
  split at h
  . next hgo =>
    split at h
    . next w₁ hpage =>
      cases h
      exact .noPage hgo w₁ hpage
    . next page w₁ hpage =>
      split at h
      . next blockData w₂ hread =>
        cases h
        exact .unread hgo page blockData w₁ w₂ hpage hread
      . next blockData w₂ hread =>
        rcases Loop.run_eq_ok h with ⟨u, rfl⟩ | ⟨r, u, rfl⟩
        . exact .through hgo page blockData w₁ w₂ u hpage hread h
        . exact absurd h (Loop.run_ne_ret entry_ne_ret _ _ _ _)
  . next hstop =>
    cases h
    exact .leaves hstop

end objstoreRead

theorem objstoreRead_loops {buf buf' : Mem} {size offset : Nat} {r : Int} (hsize : size ≤ maxSize)
    (h : objstoreRead env o.id buf size offset w = .ok (r, buf', w'))
    : ∃ (u v : Xfer × Mem × World),
        Loop.run (objstoreRead.direct env o size (startBlock offset)) (Loop.range 4)
          (Xfer.start size offset (cmalloc env (w.lock .rd)).1, buf, (cmalloc env (w.lock .rd)).2) = .ok (.next u)
        ∧ ((Loop.run (objstoreRead.indirect env o size (startBlock offset)) (Loop.range 4) u = .ok (.ret r v)
            ∧ w' = v.2.2)
          ∨ (Loop.run (objstoreRead.indirect env o size (startBlock offset)) (Loop.range 4) u = .ok (.next v)
            ∧ r = size ∧ w' = v.2.2.unlock .rd)) := by
  unfold objstoreRead at h
  rw [if_neg o.id_ge, if_neg (by omega), dif_pos o.id_lt, o.of_id] at h
  obtain ⟨flow, hrun₁, h⟩ := Loop.bind_eq_ok.mp h
  rcases Loop.run_eq_ok hrun₁ with ⟨u, rfl⟩ | ⟨r', u, rfl⟩
  . obtain ⟨flow, hrun₂, h⟩ := Loop.bind_eq_ok.mp h
    rcases Loop.run_eq_ok hrun₂ with ⟨v, rfl⟩ | ⟨r', v, rfl⟩
    . cases h
      exact ⟨u, v, hrun₁, .inr ⟨hrun₂, rfl, rfl⟩⟩
    . cases h
      exact ⟨u, v, hrun₁, .inl ⟨hrun₂, rfl⟩⟩
  . exact absurd hrun₁ (Loop.run_ne_ret objstoreRead.direct_ne_ret _ _ _ _)

namespace objstoreWrite

variable {buf : Mem} {size start : Nat}

theorem direct_ne_ret (i : Fin 4) (s : Xfer × World) (r : Int) (v : Xfer × World)
    : direct env o buf size start i s ≠ .ok (.ret r v) := by
  intro h
  unfold direct at h
  simp only at h
  split at h
  . cases h
  . obtain ⟨res, -, h⟩ := Loop.bind_eq_ok.mp h
    cases h

theorem entry_ne_ret (j : Fin 1024) (s : Xfer × World × Block) (r : Int) (v : Xfer × World × Block)
    : entry env buf size start j s ≠ .ok (.ret r v) := by
  intro h
  unfold entry at h
  simp only at h
  split at h
  . cases h
  . obtain ⟨res, -, h⟩ := Loop.bind_eq_ok.mp h
    cases h

-- A pass for a pointer block has nothing to do, gives the call up, or gets through the entries.
inductive Pass (env : Env) (o : Slot) (buf : Mem) (size start : Nat) (i : Fin 4) (x : Xfer) (w : World)
    : Loop.Flow Int (Xfer × World) → Prop where
  | idle (hrem : ¬ 0 < x.remaining) : Pass env o buf size start i x w (.next (x, w))
  | noPage (hrem : 0 < x.remaining) (w₁ : World) (hpage : cmalloc env w = (none, w₁))
    : Pass env o buf size start i x w (.ret (-1) (x, w₁))
  | noBlock (hrem : 0 < x.remaining) (page blockBuf : Block) (w₁ w₂ : World) (hpage : cmalloc env w = (some page, w₁))
    (hblock : pointerBlock env o i page w₁ = (false, blockBuf, w₂))
    : Pass env o buf size start i x w (.ret (-1) (x, w₂))
  | through (hrem : 0 < x.remaining) (page blockBuf blockBuf' : Block) (w₁ w₂ w₃ w₄ : World) (x' : Xfer) (ok : Bool)
    (hpage : cmalloc env w = (some page, w₁)) (hblock : pointerBlock env o i page w₁ = (true, blockBuf, w₂))
    (hrun : Loop.run (entry env buf size start) (Loop.range 1024) (x, w₂, blockBuf)
      = .ok (.next (x', w₃, blockBuf')))
    (hwrite : writeChBlk env ((w₃.objects o).indirect i) blockBuf' w₃ = (ok, w₄))
    : Pass env o buf size start i x w (if ok then .next (x', w₄) else .ret (-1) (x', w₄))

theorem indirect_pass {i : Fin 4} {x : Xfer} {flow : Loop.Flow Int (Xfer × World)}
    (h : indirect env o buf size start i (x, w) = .ok flow)
    : Pass env o buf size start i x w flow := by
  simp only [indirect] at h
  split at h
  . next hrem =>
    split at h
    . next w₁ hpage =>
      cases h
      exact .noPage hrem w₁ hpage
    . next page w₁ hpage =>
      split at h
      . next blockBuf w₂ hblock =>
        cases h
        exact .noBlock hrem page blockBuf w₁ w₂ hpage hblock
      . next blockBuf w₂ hblock =>
        obtain ⟨flow', hrun, h⟩ := Loop.bind_eq_ok.mp h
        rcases Loop.run_eq_ok hrun with ⟨⟨x', w₃, blockBuf'⟩, rfl⟩ | ⟨r, u, rfl⟩
        . simp only at h
          split at h
          . next w₄ hwrite =>
            cases h
            exact .through hrem page blockBuf blockBuf' w₁ w₂ w₃ w₄ x' false hpage hblock hrun hwrite
          . next w₄ hwrite =>
            cases h
            exact .through hrem page blockBuf blockBuf' w₁ w₂ w₃ w₄ x' true hpage hblock hrun hwrite
        . exact absurd hrun (Loop.run_ne_ret entry_ne_ret _ _ _ _)
  . next hrem =>
    cases h
    exact .idle hrem

end objstoreWrite

theorem objstoreWrite_loops {buf : Mem} {size offset : Nat} {r : Int} (hsize : size ≤ maxSize)
    (h : objstoreWrite env o.id buf size offset w = .ok (r, w'))
    : ∃ (u v : Xfer × World),
        Loop.run (objstoreWrite.direct env o buf size (startBlock offset)) (Loop.range 4)
          (Xfer.start size offset (cmalloc env w).1, (cmalloc env w).2) = .ok (.next u)
        ∧ ((Loop.run (objstoreWrite.indirect env o buf size (startBlock offset)) (Loop.range 4) u = .ok (.ret r v)
            ∧ w' = v.2)
          ∨ (Loop.run (objstoreWrite.indirect env o buf size (startBlock offset)) (Loop.range 4) u = .ok (.next v)
            ∧ r = size
            ∧ w' = markObjDirty o (v.2.setObj o
                { v.2.objects o with size := BitVec.ofNat 64 (offset + size) }))) := by
  unfold objstoreWrite at h
  rw [if_neg o.id_ge, if_neg (by omega), dif_pos o.id_lt, o.of_id] at h
  obtain ⟨flow, hrun₁, h⟩ := Loop.bind_eq_ok.mp h
  rcases Loop.run_eq_ok hrun₁ with ⟨u, rfl⟩ | ⟨r', u, rfl⟩
  . obtain ⟨flow, hrun₂, h⟩ := Loop.bind_eq_ok.mp h
    rcases Loop.run_eq_ok hrun₂ with ⟨v, rfl⟩ | ⟨r', v, rfl⟩
    . cases h
      exact ⟨u, v, hrun₁, .inr ⟨hrun₂, rfl, rfl⟩⟩
    . cases h
      exact ⟨u, v, hrun₁, .inl ⟨hrun₂, rfl⟩⟩
  . exact absurd hrun₁ (Loop.run_ne_ret objstoreWrite.direct_ne_ret _ _ _ _)

end ObjStore
