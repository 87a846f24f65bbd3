import CS330.ObjStore.Lemmas.Loops

/-!
This module contains the invariant rules for the functions that are made of several block accesses: what
each access keeps is kept by the whole, however it ends.
-/

namespace ObjStore

variable {env : Env} {w w' : World} {I : World → Prop}

theorem freePointerBlock_inv {b : BlockNo} {r : Int} (hmalloc : ∀ (u : World), I u → I (cmalloc env u).2)
    (hread : ∀ (u : World) (buf : Block), I u → I (readChBlk env b buf u).2.2)
    (hfree : ∀ (u u' : World) (b' : BlockNo), I u → freeBlock b' u = .ok u' → I u')
    (h : freePointerBlock env b w = .ok (r, w')) (hw : I w)
    : I w' := by
  have hw₁ := hmalloc w hw
  rcases freePointerBlock_cases h with ⟨hpage, -⟩ | ⟨page, w₁, hpage, hcases⟩
  . rw [hpage] at hw₁
    exact hw₁
  . rw [hpage] at hw₁
    have hw₂ := hread w₁ page hw₁
    rcases hcases with ⟨blockData, hread', -⟩ | ⟨blockData, w₂, u, hread', hrun, hlast, -⟩
    . rw [hread'] at hw₂
      exact hw₂
    . rw [hread'] at hw₂
      have hloop : Loop.Ends I (Loop.run (freePointerBlock.entry blockData) (Loop.range 1024) w₂) := by
        apply Loop.run_ends _ _ w₂ hw₂
        intro j u hu
        unfold freePointerBlock.entry
        split
        . cases heq : freeBlock (ptrAt blockData j) u with
          | error e => trivial
          | ok u' => exact hfree u u' _ hu heq
        . exact hu
      rw [hrun] at hloop
      exact hfree u w' b hloop hlast

-- A `destroy_object` that has found its object either returns early, in the middle of its loops, or clears
-- the slot in the end.
theorem destroyObject.finish_inv {o : Slot} {r : Int}
    (hdirect : ∀ (i : Fin 4) (u : World), I u → Loop.Leaves I (direct o i u))
    (hindirect : ∀ (i : Fin 4) (u : World), I u → Loop.Leaves I (indirect env o i u))
    (h : finish env w (some o) = .ok (r, w')) (hsize : (w.objects o).size ≠ 0#64) (hw : I w)
    : I w' ∨ ∃ (u : World), I u ∧ r = 0 ∧ w' = markObjDirty o
        (u.setObj o { u.objects o with size := 0#64, key := Buf.zero keySize }) := by
  obtain ⟨u, v, hrun₁, hends⟩ := finish_loops hsize h
  have hloop₁ := Loop.run_ends hdirect (Loop.range 4) w hw
  rw [hrun₁] at hloop₁
  have hloop₂ := Loop.run_ends hindirect (Loop.range 4) u hloop₁
  rcases hends with ⟨hrun₂, rfl⟩ | ⟨hrun₂, rfl, rfl⟩
  . rw [hrun₂] at hloop₂
    exact .inl hloop₂
  . rw [hrun₂] at hloop₂
    exact .inr ⟨v, hloop₂, rfl, rfl⟩

section Read

variable (hlock : ∀ (u : World), I u → I (u.lock .rd)) (hunlock : ∀ (u : World), I u → I (u.unlock .rd))
variable (hmalloc : ∀ (u : World), I u → I (cmalloc env u).2)
variable (hread : ∀ (u : World) (b : BlockNo) (buf : Block), I u → I (readChBlk env b buf u).2.2)
variable (hnull : ∀ (u u' : World) (b : BlockNo), readChBlkNull env b u = .ok u' → I u → I u')

include hunlock hread hnull

theorem getBlockData_inv {b : BlockNo} {size : Nat} {x : Xfer} {buf : Mem} {res : Int × Xfer × Mem × World}
    (h : getBlockData env size b x buf w = .ok res) (hw : I w)
    : I res.2.2.2 := by
  obtain ⟨r, x', buf', w'⟩ := res
  rcases getBlockData_cases h with ⟨-, rfl⟩ | ⟨w₁, hread', -, rfl⟩ | ⟨temp, temp', ok, w₁, hread', hcase⟩
  . exact hw
  . exact hunlock w₁ (hnull w w₁ b hread' hw)
  . have hw₁ := hread w b temp hw
    rw [hread'] at hw₁
    rcases hcase with ⟨-, -, rfl⟩ | ⟨-, -, rfl⟩
    . exact hunlock w₁ hw₁
    . exact hw₁

namespace objstoreRead

variable (o : Slot) (size start : Nat)

theorem direct_inv (i : Fin 4) (s : Xfer × Mem × World) (hs : I s.2.2)
    : Loop.Leaves (fun s => I s.2.2) (direct env o size start i s) := by
  obtain ⟨x, buf, w⟩ := s
  simp only [direct]
  split
  . exact hs
  . split
    . cases heq : getBlockData env size ((w.objects o).direct i) x buf w with
      | error e => trivial
      | ok res => exact getBlockData_inv hunlock hread hnull heq hs
    . exact hs

theorem entry_inv (blockData : Block) (j : Fin 1024) (s : Xfer × Mem × World) (hs : I s.2.2)
    : Loop.Leaves (fun s => I s.2.2) (entry env size start blockData j s) := by
  obtain ⟨x, buf, w⟩ := s
  simp only [entry]
  split
  . exact hs
  . split
    . cases heq : getBlockData env size (ptrAt blockData j) x buf w with
      | error e => trivial
      | ok res => exact getBlockData_inv hunlock hread hnull heq hs
    . exact hs

include hmalloc

theorem indirect_inv (i : Fin 4) (s : Xfer × Mem × World) (hs : I s.2.2)
    : Loop.Leaves (fun s => I s.2.2) (indirect env o size start i s) := by
  obtain ⟨x, buf, w⟩ := s
  cases h : indirect env o size start i (x, buf, w) with
  | error e => trivial
  | ok flow =>
    have hw₁ := hmalloc w hs
    cases indirect_pass h with
    | leaves hstop => exact hs
    | noPage hgo w₁ hpage =>
      rw [hpage] at hw₁
      exact hunlock w₁ hw₁
    | unread hgo page blockData w₁ w₂ hpage hread' =>
      rw [hpage] at hw₁
      have hw₂ := hread w₁ ((w₁.objects o).indirect i) page hw₁
      rw [hread'] at hw₂
      exact hunlock w₂ hw₂
    | through hgo page blockData w₁ w₂ u hpage hread' hrun =>
      rw [hpage] at hw₁
      have hw₂ := hread w₁ ((w₁.objects o).indirect i) page hw₁
      rw [hread'] at hw₂
      have hloop := Loop.run_ends (entry_inv hunlock hread hnull size start blockData) (Loop.range 1024)
        (x, buf, w₂) hw₂
      rw [hrun] at hloop
      exact hloop

end objstoreRead

include hlock hmalloc

theorem objstoreRead_inv {objid : Int} {buf buf' : Mem} {size offset : Nat} {r : Int}
    (h : objstoreRead env objid buf size offset w = .ok (r, buf', w')) (hw : I w)
    : I w' := by
  have hw₀ := hlock w hw
  rcases objstoreRead_slot h with ⟨-, rfl, -⟩ | ⟨o, rfl, hsize⟩
  . exact hunlock _ hw₀
  . obtain ⟨u, v, hrun₁, hends⟩ := objstoreRead_loops hsize h
    have hloop₁ := Loop.run_ends (objstoreRead.direct_inv hunlock hread hnull o size (startBlock offset))
      (Loop.range 4) (Xfer.start size offset (cmalloc env (w.lock .rd)).1, buf, (cmalloc env (w.lock .rd)).2)
      (hmalloc _ hw₀)
    rw [hrun₁] at hloop₁
    have hloop₂ := Loop.run_ends
      (objstoreRead.indirect_inv hunlock hmalloc hread hnull o size (startBlock offset)) (Loop.range 4) u hloop₁
    rcases hends with ⟨hrun₂, rfl⟩ | ⟨hrun₂, rfl, rfl⟩
    . rw [hrun₂] at hloop₂
      exact hloop₂
    . rw [hrun₂] at hloop₂
      exact hunlock _ hloop₂

end Read

section Write

variable {o : Slot} (hmalloc : ∀ (u : World), I u → I (cmalloc env u).2)
variable (hread : ∀ (u : World) (b : BlockNo) (buf : Block), I u → I (readChBlk env b buf u).2.2)
variable (hnull : ∀ (u u' : World) (b : BlockNo), readChBlkNull env b u = .ok u' → I u → I u')
variable (hwrite : ∀ (u : World) (b : BlockNo) (buf : Block), I u → I (writeChBlk env b buf u).2)
variable (halloc : ∀ (u : World), I u → I (allocBlock u).2)
variable (hset : ∀ (u : World) (direct indirect : Fin 4 → BlockNo), I u
  → I (u.setObj o { u.objects o with direct := direct, indirect := indirect }))

section

include hread hnull hwrite halloc

theorem updateBlock_inv {buf : Mem} {size : Nat} {p : BlockNo} {x : Xfer} {res : Int × BlockNo × Xfer × World}
    (h : updateBlock env buf size p x w = .ok res) (hw : I w)
    : I res.2.2.2 := by
  obtain ⟨r, q, x', w'⟩ := res
  rcases updateBlock_cases h with ⟨-, -, rfl⟩ | ⟨w₁, hplace, htransfers⟩
  . exact hw
  . have hw₁ : I (if p = 0#32 then allocBlock w else (p, w)).2 := by
      split
      . exact halloc w hw
      . exact hw
    rw [hplace] at hw₁
    cases htransfers with
    | null hread' => exact hnull w₁ w' q hread' hw₁
    | unread temp hread' =>
      have hw₂ := hread w₁ q temp hw₁
      rw [hread'] at hw₂
      exact hw₂
    | written new hwrite' =>
      have hw₂ := hwrite w₁ q new hw₁
      rw [hwrite'] at hw₂
      exact hw₂
    | updated temp new w₂ hread' hwrite' =>
      have hw₂ := hread w₁ q temp hw₁
      rw [hread'] at hw₂
      have hw₃ := hwrite w₂ q new hw₂
      rw [hwrite'] at hw₃
      exact hw₃

end

namespace objstoreWrite

variable (buf : Mem) (size start : Nat)

section

include hread hnull hwrite halloc

theorem entry_inv (j : Fin 1024) (s : Xfer × World × Block) (hs : I s.2.1)
    : Loop.Falls (fun s => I s.2.1) (entry env buf size start j s) := by
  obtain ⟨x, w, blockBuf⟩ := s
  simp only [entry]
  split
  . exact hs
  . cases heq : updateBlock env buf size (ptrAt blockBuf j) x w with
    | error e => trivial
    | ok res => exact updateBlock_inv hread hnull hwrite halloc heq hs

end

include hset

theorem pointerBlock_inv (hread : ∀ (u : World) (b : BlockNo) (buf : Block), I u → I (readChBlk env b buf u).2.2)
    (halloc : ∀ (u : World), I u → I (allocBlock u).2) (i : Fin 4) (blockBuf : Block) (hw : I w)
    : I (pointerBlock env o i blockBuf w).2.2 := by
  unfold pointerBlock
  split
  . exact hset _ _ _ (halloc w hw)
  . exact hread w _ blockBuf hw

include hread hnull hwrite halloc

theorem direct_inv (i : Fin 4) (s : Xfer × World) (hs : I s.2)
    : Loop.Falls (fun s => I s.2) (direct env o buf size start i s) := by
  obtain ⟨x, w⟩ := s
  simp only [direct]
  split
  . exact hs
  . cases heq : updateBlock env buf size ((w.objects o).direct i) x w with
    | error e => trivial
    | ok res => exact hset _ _ _ (updateBlock_inv hread hnull hwrite halloc heq hs)

include hmalloc

theorem indirect_inv (i : Fin 4) (s : Xfer × World) (hs : I s.2)
    : Loop.Exits (fun s => I s.2) (fun r s => r = -1 ∧ I s.2) (indirect env o buf size start i s) := by
  obtain ⟨x, w⟩ := s
  cases h : indirect env o buf size start i (x, w) with
  | error e => trivial
  | ok flow =>
    have hw₁ := hmalloc w hs
    cases indirect_pass h with
    | idle hrem => exact hs
    | noPage hrem w₁ hpage =>
      rw [hpage] at hw₁
      exact ⟨rfl, hw₁⟩
    | noBlock hrem page blockBuf w₁ w₂ hpage hblock =>
      rw [hpage] at hw₁
      have hw₂ := pointerBlock_inv hset hread halloc i page hw₁
      rw [hblock] at hw₂
      exact ⟨rfl, hw₂⟩
    | through hrem page blockBuf blockBuf' w₁ w₂ w₃ w₄ x' ok hpage hblock hrun hwrite' =>
      rw [hpage] at hw₁
      have hw₂ := pointerBlock_inv hset hread halloc i page hw₁
      rw [hblock] at hw₂
      have hloop := Loop.run_falls (entry_inv hread hnull hwrite halloc buf size start) (Loop.range 1024)
        (x, w₂, blockBuf) hw₂
      rw [hrun] at hloop
      have hw₄ := hwrite w₃ ((w₃.objects o).indirect i) blockBuf' hloop
      rw [hwrite'] at hw₄
      cases ok with
      | false => exact ⟨rfl, hw₄⟩
      | true => exact hw₄

end objstoreWrite

include hmalloc hread hnull hwrite halloc hset

-- An `objstore_write` either gives up with -1, or sets the size in the end.
theorem objstoreWrite_inv {buf : Mem} {size offset : Nat} {r : Int}
    (h : objstoreWrite env o.id buf size offset w = .ok (r, w')) (hw : I w)
    : (r = -1 ∧ I w') ∨ ∃ (u : World), I u ∧ r = size ∧ size ≤ maxSize
        ∧ w' = markObjDirty o (u.setObj o { u.objects o with size := BitVec.ofNat 64 (offset + size) }) := by
  rcases objstoreWrite_slot h with ⟨rfl, rfl, -⟩ | ⟨-, -, hsize⟩
  . exact .inl ⟨rfl, hw⟩
  . obtain ⟨u, v, hrun₁, hends⟩ := objstoreWrite_loops hsize h
    have hloop₁ := Loop.run_falls
      (objstoreWrite.direct_inv hread hnull hwrite halloc hset buf size (startBlock offset)) (Loop.range 4)
      (Xfer.start size offset (cmalloc env w).1, (cmalloc env w).2) (hmalloc w hw)
    rw [hrun₁] at hloop₁
    have hloop₂ := Loop.run_exits
      (objstoreWrite.indirect_inv hmalloc hread hnull hwrite halloc hset buf size (startBlock offset))
      (Loop.range 4) u hloop₁
    rcases hends with ⟨hrun₂, rfl⟩ | ⟨hrun₂, rfl, rfl⟩
    . rw [hrun₂] at hloop₂
      exact .inl hloop₂
    . rw [hrun₂] at hloop₂
      exact .inr ⟨v.2, hloop₂, rfl, hsize, rfl⟩

end Write

end ObjStore
