import CS330.ObjStore.Lemmas.Fields
import CS330.ObjStore.Lemmas.Loops

/-!
This module contains what `objstore_write` does to the fields of the inodes, to the block bitmap and to the
disk in the build without a cache, whichever of its block transfers fail.
-/

namespace ObjStore

open View

structure World.Wrote (q : BlockNo) (w w' : World) : Prop where
  objects_eq : w'.objects = w.objects
  objBmp_eq : w'.objBmp = w.objBmp
  blkBmp_eq : w'.blkBmp = w.blkBmp
  disk_eq : ∀ (b : BlockNo), b ≠ q → w'.disk b = w.disk b
  exhausted : w'.Exhausted ↔ w.Exhausted

variable {env : Env} {w w' w'' : World} {q : BlockNo}

namespace World.Wrote

theorem trans (h : World.Wrote q w w') (h' : World.Wrote q w' w'') : World.Wrote q w w'' where
  objects_eq := h'.objects_eq.trans h.objects_eq
  objBmp_eq := h'.objBmp_eq.trans h.objBmp_eq
  blkBmp_eq := h'.blkBmp_eq.trans h.blkBmp_eq
  disk_eq := fun b hb => (h'.disk_eq b hb).trans (h.disk_eq b hb)
  exhausted := h'.exhausted.trans h.exhausted

theorem emit (q : BlockNo) (w : World) (e : Event) (he : e ≠ .noSpace) : World.Wrote q w (w.emit e) where
  objects_eq := rfl
  objBmp_eq := rfl
  blkBmp_eq := rfl
  disk_eq := fun _ _ => rfl
  exhausted := by
    unfold World.Exhausted World.emit
    simp [he.symm]

end World.Wrote

theorem cmalloc_wrote (env : Env) (q : BlockNo) (w : World) : World.Wrote q w (cmalloc env w).2 := by
  unfold cmalloc
  split
  . exact .emit q w _ (by simp)
  . exact .emit q w _ (by simp)

-- a block is read as it is on the disk, or not at all
theorem readChBlk_wrote (hc : env.cached = false) (q b : BlockNo) (buf : Block) (w : World)
    : World.Wrote q w (readChBlk env b buf w).2.2
        ∧ ((readChBlk env b buf w).1 = true → (readChBlk env b buf w).2.1 = w.disk b) := by
  simp only [readChBlk, hc, Bool.false_eq_true, ↓reduceIte]
  unfold readBlock
  split
  . exact ⟨.emit q w _ (by simp), by simp⟩
  . exact ⟨.emit q w _ (by simp), fun _ => rfl⟩

theorem writeChBlk_wrote (hc : env.cached = false) (b : BlockNo) (buf : Block) (w : World)
    : World.Wrote b w (writeChBlk env b buf w).2 := by
  simp only [writeChBlk, hc, Bool.false_eq_true, ↓reduceIte]
  unfold writeBlock
  split
  . exact .emit b w _ (by simp)
  . have hset : World.Wrote b w { w with disk := Function.update w.disk b buf } :=
      ⟨rfl, rfl, rfl, fun b' hb' => Function.update_of_ne hb' _ _, Iff.rfl⟩
    exact hset.trans (.emit b _ _ (by simp))

/-- `update_block` has used the block `q` where the pointer was `p`: it is the same or a free one. -/
structure World.Put (p q : BlockNo) (w w' : World) : Prop where
  objects_eq : w'.objects = w.objects
  objBmp_eq : w'.objBmp = w.objBmp
  disk_eq : ∀ (b : BlockNo), b ≠ q → w'.disk b = w.disk b
  unused : q = 0#32 → w'.disk = w.disk
  block : (q = p ∧ w'.blkBmp = w.blkBmp)
    ∨ (p = 0#32 ∧ ¬ w.Marked q ∧ ∀ (b : BlockNo), w'.Marked b ↔ (b = q ∨ w.Marked b))

theorem allocBlock_put (w : World)
    : (w.Exhausted → (allocBlock w).2.Exhausted)
      ∧ ((allocBlock w).2.Exhausted
        ∨ World.Put 0#32 (allocBlock w).1 w (allocBlock w).2 ∧ (allocBlock w).2.disk = w.disk) := by
  cases allocBlock_cases w with
  | inl h =>
    obtain ⟨b, log, -, hlt, hfree, -, heq, hlog⟩ := h
    rw [heq]
    refine ⟨hlog.mpr, Or.inr ⟨⟨rfl, rfl, fun _ _ => rfl, fun _ => rfl, Or.inr ⟨rfl, ?_, ?_⟩⟩, rfl⟩⟩
    . unfold World.Marked
      simp [hfree]
    . intro b'
      unfold World.Marked
      simp only [Bitmap.bit_set _ _ hlt, Bool.or_eq_true, decide_eq_true_eq, BitVec.toNat_inj]
  | inr h =>
    obtain ⟨log, -, heq, hlog⟩ := h
    rw [heq]
    exact ⟨fun _ => hlog, Or.inl hlog⟩

theorem World.Put.wrote {p : BlockNo} (h : World.Put p q w w') (h' : World.Wrote q w' w'') (hq : q ≠ 0#32)
    : World.Put p q w w'' where
  objects_eq := h'.objects_eq.trans h.objects_eq
  objBmp_eq := h'.objBmp_eq.trans h.objBmp_eq
  disk_eq := fun b hb => (h'.disk_eq b hb).trans (h.disk_eq b hb)
  unused := fun heq => absurd heq hq
  block := by
    rw [World.marked_congr h'.blkBmp_eq, h'.blkBmp_eq]
    exact h.block

theorem World.Put.refl (p : BlockNo) (w : World) : World.Put p p w w :=
  ⟨rfl, rfl, fun _ _ => rfl, fun _ => rfl, Or.inl ⟨rfl, rfl⟩⟩

theorem updateBlock_put (hc : env.cached = false) {buf : Mem} {size : Nat} {p : BlockNo} {x x' : Xfer}
    {r : Int} (h : updateBlock env buf size p x w = .ok (r, q, x', w'))
    : (w.Exhausted → w'.Exhausted) ∧ (w'.Exhausted ∨ World.Put p q w w') := by
  rcases updateBlock_cases h with ⟨-, rfl, rfl⟩ | ⟨w₁, hplace, htransfers⟩
  . exact ⟨id, .inr (.refl _ w')⟩
  . -- once the block is there, the transfers change at most its contents
    have hblock : (if p = 0#32 then allocBlock w else (p, w)).1 ≠ 0#32
        ∧ (w.Exhausted → (if p = 0#32 then allocBlock w else (p, w)).2.Exhausted)
        ∧ ((if p = 0#32 then allocBlock w else (p, w)).2.Exhausted
          ∨ World.Put p (if p = 0#32 then allocBlock w else (p, w)).1 w
            (if p = 0#32 then allocBlock w else (p, w)).2) := by
      by_cases hp : p = 0#32
      . subst hp
        rw [if_pos rfl]
        obtain ⟨hmono, hput⟩ := allocBlock_put w
        exact ⟨allocBlock_ne_zero w, hmono, hput.imp_right And.left⟩
      . rw [if_neg hp]
        exact ⟨hp, id, .inr (.refl p w)⟩
    rw [hplace] at hblock
    obtain ⟨hne, hmono, hput⟩ := hblock
    have hwrote : World.Wrote q w₁ w' := by
      cases htransfers with
      | null hread =>
        rw [readChBlkNull_eq hc hread]
        exact .emit _ w₁ _ (by simp)
      | unread temp hread =>
        have h₁ := (readChBlk_wrote hc q q temp w₁).1
        rw [hread] at h₁
        exact h₁
      | written new hwrite =>
        have h₁ := writeChBlk_wrote hc q new w₁
        rw [hwrite] at h₁
        exact h₁
      | updated temp new w₂ hread hwrite =>
        have h₁ := (readChBlk_wrote hc q q temp w₁).1
        rw [hread] at h₁
        have h₂ := writeChBlk_wrote hc q new w₂
        rw [hwrite] at h₂
        exact h₁.trans h₂
    refine ⟨fun hw => hwrote.exhausted.mpr (hmono hw), ?_⟩
    cases hput with
    | inl hfull => exact .inl (hwrote.exhausted.mpr hfull)
    | inr hput => exact .inr (hput.wrote hwrote hne)

/--
The non-zero entries in the pointer blocks of an object are blocks of its contents: none of them is a block
of the tables or in a field of an inode.
-/
def World.Proper (w : World) (o : Slot) : Prop :=
  ∀ (i : Fin 4) (j : Fin 1024), (w.objects o).indirect i ≠ 0#32
    → ptrAt (w.disk ((w.objects o).indirect i)) j ≠ 0#32
    → ¬ Reserved (ptrAt (w.disk ((w.objects o).indirect i)) j)
      ∧ ∀ (r : Slot × Obj.Field), w.held r ≠ ptrAt (w.disk ((w.objects o).indirect i)) j

/--
How far a write to object `o` may have changed a world: its empty fields may have been filled. The pointer
blocks from `n` on have not been touched yet.
-/
structure World.Filling (o : Slot) (n : Nat) (w u : World) : Prop where
  sound : u.Sound
  other : ∀ (o' : Slot), o' ≠ o → u.objects o' = w.objects o'
  grown : ∀ (f : Obj.Field), (w.objects o).field f ≠ 0#32 → (u.objects o).field f = (w.objects o).field f
  objBmp_eq : u.objBmp = w.objBmp
  tables : ∀ (b : BlockNo), Reserved b → u.disk b = w.disk b
  ahead : ∀ (i : Fin 4), n ≤ i → (u.objects o).indirect i = (w.objects o).indirect i
    ∧ ((w.objects o).indirect i ≠ 0#32
      → u.disk ((w.objects o).indirect i) = w.disk ((w.objects o).indirect i))

-- blocks that a write may overwrite while the pointer blocks from `n` on have to stay as they are
def World.Loose (o : Slot) (n : Nat) (w : World) (b : BlockNo) : Prop :=
  ¬ Reserved b ∧ ∀ (i : Fin 4), n ≤ i → (w.objects o).indirect i ≠ 0#32 → (w.objects o).indirect i ≠ b

namespace World.Filling

variable {o : Slot} {n : Nat} {u u' : World}

theorem mono (h : World.Filling o n w u) {m : Nat} (hm : n ≤ m) : World.Filling o m w u where
  sound := h.sound
  other := h.other
  grown := h.grown
  objBmp_eq := h.objBmp_eq
  tables := h.tables
  ahead := fun i hi => h.ahead i (Nat.le_trans hm hi)

-- a block that is not in use is none of those that matter
theorem loose_free (h : World.Filling o n w u) {b : BlockNo} (hb : ¬ u.Marked b) : World.Loose o n w b := by
  constructor
  . intro hres
    exact hb (h.sound.reserved_used b hres)
  . intro i hi _ heq
    exact h.sound.ptr_ne hb (o, .indirect i) ((h.ahead i hi).1.trans heq)

-- neither is one in a field other than those of the pointer blocks to come
theorem loose_held (h : World.Filling o n w u) (f : Obj.Field) (hne : u.held (o, f) ≠ 0#32)
    (hf : ∀ (i : Fin 4), f = .indirect i → i.val < n)
    : World.Loose o n w (u.held (o, f)) := by
  refine ⟨h.sound.ptr_not_reserved (o, f) hne, ?_⟩
  intro i hi _ heq
  have hheld : u.held (o, f) = u.held (o, .indirect i) := heq.symm.trans (h.ahead i hi).1.symm
  cases h.sound.inj (o, f) (o, .indirect i) hne hheld
  have := hf i rfl
  omega

theorem overwrite (h : World.Filling o n w u) (hobj : u'.objects = u.objects) (hbmp : u'.objBmp = u.objBmp)
    (hmarked : ∀ (x : BlockNo), u.Marked x → u'.Marked x)
    (hdisk : ∀ (x : BlockNo), ¬ World.Loose o n w x → u'.disk x = u.disk x)
    : World.Filling o n w u' where
  sound := h.sound.mono (World.held_congr hobj) hmarked
  other := by
    rw [hobj]
    exact h.other
  grown := by
    rw [hobj]
    exact h.grown
  objBmp_eq := hbmp.trans h.objBmp_eq
  tables := by
    intro x hx
    rw [hdisk x (fun hloose => hloose.1 hx), h.tables x hx]
  ahead := by
    intro i hi
    rw [hobj]
    refine ⟨(h.ahead i hi).1, ?_⟩
    intro hne
    rw [hdisk _ (fun hloose => hloose.2 i hi hne rfl), (h.ahead i hi).2 hne]

theorem wrote (h : World.Filling o n w u) (hloose : World.Loose o n w q) (hwrote : World.Wrote q u u')
    : World.Filling o n w u' := by
  apply h.overwrite hwrote.objects_eq hwrote.objBmp_eq
  . intro x hx
    rw [World.marked_congr hwrote.blkBmp_eq]
    exact hx
  . intro x hx
    apply hwrote.disk_eq
    rintro rfl
    exact hx hloose

theorem page (env : Env) (h : World.Filling o n w u) : World.Filling o n w (cmalloc env u).2 := by
  have hsame := cmalloc_wrote env 0#32 u
  apply h.overwrite hsame.objects_eq hsame.objBmp_eq
  . intro x hx
    rw [World.marked_congr hsame.blkBmp_eq]
    exact hx
  . intro x _
    unfold cmalloc
    split <;> rfl

theorem put (h : World.Filling o n w u) {p : BlockNo} (hput : World.Put p q u u')
    (hp : p ≠ 0#32 → World.Loose o n w p)
    : World.Filling o n w u' ∧ (q ≠ 0#32 → World.Loose o n w q) := by
  have hloose : q ≠ 0#32 → World.Loose o n w q := by
    intro hq
    cases hput.block with
    | inl hsame =>
      rw [hsame.1] at hq ⊢
      exact hp hq
    | inr hfresh => exact h.loose_free hfresh.2.1
  refine ⟨?_, hloose⟩
  apply h.overwrite hput.objects_eq hput.objBmp_eq
  . intro x hx
    cases hput.block with
    | inl hsame =>
      rw [World.marked_congr hsame.2]
      exact hx
    | inr hfresh => exact (hfresh.2.2 x).mpr (Or.inr hx)
  . intro x hx
    by_cases hq : q = 0#32
    . rw [hput.unused hq]
    . apply hput.disk_eq
      rintro rfl
      exact hx (hloose hq)

theorem store (h : World.Filling o n w u) (f : Obj.Field) (hput : World.Put (u.held (o, f)) q u u')
    (hf : ∀ (i : Fin 4), f = .indirect i → i.val < n)
    : World.Filling o n w (u'.setObj o ((u'.objects o).setField q f)) := by
  have hput' := (h.put hput (fun hne => h.loose_held f hne hf)).1
  have hheld : (u'.setObj o ((u'.objects o).setField q f)).held = Function.update u.held (o, f) q := by
    rw [World.held_setField, World.held_congr hput.objects_eq]
  refine ⟨?_, ?_, ?_, hput'.objBmp_eq, hput'.tables, ?_⟩
  . have hmarked : (u'.setObj o ((u'.objects o).setField q f)).Marked = u'.Marked := rfl
    unfold World.Sound
    rw [hheld, hmarked]
    cases hput.block with
    | inl hsame =>
      rw [hsame.1, Function.update_eq_self, World.marked_congr hsame.2]
      exact h.sound
    | inr hfresh =>
      obtain ⟨hnull, hfree, hmark⟩ := hfresh
      exact h.sound.acquire (o, f) q hnull hfree (fun x hx => (hmark x).mpr hx)
  . intro o' ho'
    simp only [World.setObj, Function.update_of_ne ho']
    exact hput'.other o' ho'
  . intro f' hne
    have hold : u.held (o, f') = (w.objects o).field f' := h.grown f' hne
    have hnew : ((u'.setObj o ((u'.objects o).setField q f)).objects o).field f'
        = Function.update u.held (o, f) q (o, f') := congrFun hheld (o, f')
    rw [hnew]
    by_cases hff : f' = f
    . -- a field that was in use keeps its block
      subst hff
      rw [Function.update_self]
      cases hput.block with
      | inl hsame => exact hsame.1.trans hold
      | inr hfresh => exact absurd (hold.symm.trans hfresh.1) hne
    . rw [Function.update_of_ne (by simpa using hff)]
      exact hold
  . intro i hi
    have hne : Obj.Field.indirect i ≠ f := by
      intro heq
      have := hf i heq.symm
      omega
    have hkeep : ((u'.setObj o ((u'.objects o).setField q f)).objects o).indirect i
        = (u'.objects o).indirect i := by
      have := Obj.field_setField (u'.objects o) q f (.indirect i)
      rw [if_neg hne] at this
      simp only [World.setObj, Function.update_self]
      exact this
    rw [hkeep]
    exact hput'.ahead i hi

end World.Filling

-- with no free block left, nothing is said about what the write does
def World.Fills (o : Slot) (n : Nat) (w u : World) : Prop :=
  u.Exhausted ∨ World.Filling o n w u

namespace objstoreWrite

variable (hc : env.cached = false) {o : Slot} (buf : Mem) (size start : Nat)

include hc

theorem direct_fills (i : Fin 4) (s : Xfer × World) (hs : World.Fills o 0 w s.2)
    : Loop.Leaves (fun s => World.Fills o 0 w s.2) (direct env o buf size start i s) := by
  obtain ⟨x, u⟩ := s
  simp only [direct]
  split
  . exact hs
  . cases heq : updateBlock env buf size ((u.objects o).direct i) x u with
    | error e => trivial
    | ok res =>
      obtain ⟨r, q, x', u'⟩ := res
      obtain ⟨hmono, hput⟩ := updateBlock_put hc heq
      cases hs with
      | inl hfull => exact Or.inl (hmono hfull)
      | inr hfill =>
        cases hput with
        | inl hfull => exact Or.inl hfull
        | inr hput => exact Or.inr (hfill.store (.direct i) hput (by simp))

-- what holds of the pointer block in `block_buf` and the world at the head of each pass over its entries
def Entering (o : Slot) (n : Nat) (w u₀ : World) (s : Xfer × World × Block) : Prop :=
  s.2.1.Exhausted
    ∨ (World.Filling o n w s.2.1 ∧ s.2.1.objects = u₀.objects
      ∧ ∀ (j : Fin 1024), ptrAt s.2.2 j ≠ 0#32 → World.Loose o n w (ptrAt s.2.2 j))

theorem entry_entering {n : Nat} {u₀ : World} (j : Fin 1024) (s : Xfer × World × Block)
    (hs : Entering o n w u₀ s)
    : Loop.Leaves (Entering o n w u₀) (entry env buf size start j s) := by
  obtain ⟨x, u, blockBuf⟩ := s
  simp only [entry]
  split
  . exact hs
  . cases heq : updateBlock env buf size (ptrAt blockBuf j) x u with
    | error e => trivial
    | ok res =>
      obtain ⟨r, q, x', u'⟩ := res
      obtain ⟨hmono, hput⟩ := updateBlock_put hc heq
      cases hs with
      | inl hfull => exact Or.inl (hmono hfull)
      | inr hs =>
        obtain ⟨hfill, hobj, hloose⟩ := hs
        cases hput with
        | inl hfull => exact Or.inl hfull
        | inr hput =>
          obtain ⟨hfill', hq⟩ := hfill.put hput (hloose j)
          refine Or.inr ⟨hfill', hput.objects_eq.trans hobj, ?_⟩
          intro j'
          simp only [ptrAt_setPtr]
          split
          . exact hq
          . exact hloose j'

-- the pointer block that is got hold of has usable entries and can be overwritten from now on
theorem pointerBlock_entering {u : World} (hproper : w.Proper o) (i : Fin 4) (blockBuf : Block) (x : Xfer)
    (hu : World.Fills o i w u)
    : (World.Fills o (i + 1) w (pointerBlock env o i blockBuf u).2.2)
      ∧ ((pointerBlock env o i blockBuf u).1 = true
        → Entering o (i + 1) w (pointerBlock env o i blockBuf u).2.2
            (x, (pointerBlock env o i blockBuf u).2.2, (pointerBlock env o i blockBuf u).2.1)
          ∧ (((pointerBlock env o i blockBuf u).2.2.objects o).indirect i ≠ 0#32)) := by
  have hlt : ∀ (k : Fin 4), Obj.Field.indirect i = .indirect k → k.val < i + 1 := by
    intro k hk
    cases hk
    omega
  unfold pointerBlock
  by_cases hnull : (u.objects o).indirect i = 0#32
  . simp only [hnull, ↓reduceIte]
    have hne := allocBlock_ne_zero u
    obtain ⟨hmono, hput⟩ := allocBlock_put u
    generalize allocBlock u = res at hne hmono hput
    obtain ⟨p, u'⟩ := res
    have hind : ((u'.setObj o { u'.objects o with
        indirect := Function.update (u'.objects o).indirect i p }).objects o).indirect i ≠ 0#32 := by
      simp only [World.setObj, Function.update_self]
      exact hne
    have hfull : u'.Exhausted → World.Fills o (i + 1) w (u'.setObj o { u'.objects o with
        indirect := Function.update (u'.objects o).indirect i p }) := fun hfull => Or.inl hfull
    cases hu with
    | inl hu => exact ⟨hfull (hmono hu), fun _ => ⟨Or.inl (hmono hu), hind⟩⟩
    | inr hu =>
      cases hput with
      | inl hput => exact ⟨hfull hput, fun _ => ⟨Or.inl hput, hind⟩⟩
      | inr hput =>
        have hput' : World.Put (u.held (o, .indirect i)) p u u' := by
          have : u.held (o, .indirect i) = 0#32 := hnull
          rw [this]
          exact hput.1
        have hfill := (hu.mono (Nat.le_succ i.val)).store (.indirect i) hput' hlt
        refine ⟨Or.inr hfill, fun _ => ⟨Or.inr ⟨hfill, rfl, ?_⟩, hind⟩⟩
        intro j hj
        exact absurd (ptrAt_zero j) hj
  . simp only [hnull, ↓reduceIte]
    obtain ⟨hwrote, hread⟩ := readChBlk_wrote hc ((u.objects o).indirect i) ((u.objects o).indirect i)
      blockBuf u
    generalize readChBlk env ((u.objects o).indirect i) blockBuf u = res at hwrote hread
    obtain ⟨ok, blockData, u'⟩ := res
    simp only at hwrote hread
    have hind : (u'.objects o).indirect i ≠ 0#32 := by
      rw [hwrote.objects_eq]
      exact hnull
    cases hu with
    | inl hu =>
      have hfull := hwrote.exhausted.mpr hu
      exact ⟨Or.inl hfull, fun _ => ⟨Or.inl hfull, hind⟩⟩
    | inr hu =>
      have hloose := (hu.mono (Nat.le_succ i.val)).loose_held (.indirect i) hnull hlt
      have hfill := (hu.mono (Nat.le_succ i.val)).wrote hloose hwrote
      refine ⟨Or.inr hfill, fun hok => ⟨Or.inr ⟨hfill, rfl, ?_⟩, hind⟩⟩
      -- the block is as it was before the write, when its entries were proper
      intro j hj
      simp only at hj
      obtain ⟨hsame, hdisk⟩ := hu.ahead i (Nat.le_refl _)
      have hdata : blockData = w.disk ((w.objects o).indirect i) := by
        rw [hread hok, hsame, hdisk (hsame ▸ hnull)]
      rw [hdata] at hj ⊢
      obtain ⟨hres, hheld⟩ := hproper i j (hsame ▸ hnull) hj
      refine ⟨hres, ?_⟩
      intro k _ _
      exact hheld (o, .indirect k)

theorem indirect_fills (hproper : w.Proper o) (i : Fin 4) (s : Xfer × World)
    (hs : World.Fills o i w s.2)
    : Loop.Leaves (fun s => World.Fills o (i + 1) w s.2) (indirect env o buf size start i s) := by
  obtain ⟨x, u⟩ := s
  have hmono : ∀ (v : World), World.Fills o i w v → World.Fills o (i + 1) w v := by
    intro v hv
    exact hv.imp_right (fun hv => hv.mono (Nat.le_succ i.val))
  cases h : indirect env o buf size start i (x, u) with
  | error e => trivial
  | ok flow =>
    have hu₁ : World.Fills o i w (cmalloc env u).2 := by
      cases hs with
      | inl hfull => exact Or.inl ((cmalloc_wrote env 0#32 u).exhausted.mpr hfull)
      | inr hfill => exact Or.inr (hfill.page env)
    cases indirect_pass h with
    | idle hrem => exact hmono u hs
    | noPage hrem u₁ hpage =>
      rw [hpage] at hu₁
      exact hmono u₁ hu₁
    | noBlock hrem page blockBuf u₁ u₂ hpage hblock =>
      rw [hpage] at hu₁
      have hu₂ := (pointerBlock_entering hc hproper i page x hu₁).1
      rw [hblock] at hu₂
      exact hu₂
    | through hrem page blockBuf blockBuf' u₁ u₂ u₃ u₄ x' ok hpage hblock hrun hwrite =>
      rw [hpage] at hu₁
      obtain ⟨-, hentering⟩ := pointerBlock_entering hc hproper i page x hu₁
      rw [hblock] at hentering
      obtain ⟨hentering, hind⟩ := hentering rfl
      have hloop := Loop.run_ends (entry_entering hc buf size start) (Loop.range 1024)
        (x, u₂, blockBuf) hentering
      rw [hrun] at hloop
      -- the block goes back to where `indirect[]` points
      have hwrote := writeChBlk_wrote hc ((u₃.objects o).indirect i) blockBuf' u₃
      rw [hwrite] at hwrote
      have hback : World.Fills o (i + 1) w u₄ := by
        cases hloop with
        | inl hfull => exact Or.inl (hwrote.exhausted.mpr hfull)
        | inr hs =>
          obtain ⟨hfill, hobj, -⟩ := hs
          have hne : u₃.held (o, .indirect i) ≠ 0#32 := by
            rw [World.held_congr hobj]
            exact hind
          apply Or.inr
          apply hfill.wrote (hfill.loose_held (.indirect i) hne _) hwrote
          intro k hk
          cases hk
          omega
      cases ok with
      | false => exact hback
      | true => exact hback

end objstoreWrite

theorem objstoreWrite_fills (hc : env.cached = false) {o : Slot} (hproper : w.Proper o) (hsound : w.Sound)
    {buf : Mem} {size offset : Nat} {r : Int}
    (h : objstoreWrite env o.id buf size offset w = .ok (r, w'))
    : ∃ (u : World), World.Fills o 4 w u ∧ (w' = u ∨ ∃ (total : BitVec 64),
        w' = markObjDirty o (u.setObj o { u.objects o with size := total })) := by
  have hstart : World.Filling o 0 w w :=
    ⟨hsound, fun _ _ => rfl, fun _ _ => rfl, rfl, fun _ _ => rfl, fun _ _ => ⟨rfl, fun _ => rfl⟩⟩
  rcases objstoreWrite_slot h with ⟨-, rfl, -⟩ | ⟨-, -, hsize⟩
  . exact ⟨_, .inr (hstart.mono (Nat.zero_le 4)), .inl rfl⟩
  . obtain ⟨u, v, hrun₁, hends⟩ := objstoreWrite_loops hsize h
    have hloop₁ := Loop.run_ends (objstoreWrite.direct_fills hc buf size (startBlock offset))
      (Loop.range 4) (Xfer.start size offset (cmalloc env w).1, (cmalloc env w).2) (.inr (hstart.page env))
    rw [hrun₁] at hloop₁
    have hloop₂ := Loop.run_range_ends (P := fun n (s : Xfer × World) => World.Fills o n w s.2)
      (fun n s hn hs => hs.imp_right (fun hs => hs.mono hn))
      (objstoreWrite.indirect_fills hc buf size (startBlock offset) hproper) u hloop₁
    rcases hends with ⟨hrun₂, rfl⟩ | ⟨hrun₂, -, rfl⟩
    . rw [hrun₂] at hloop₂
      exact ⟨v.2, hloop₂, .inl rfl⟩
    . rw [hrun₂] at hloop₂
      exact ⟨v.2, hloop₂, .inr ⟨_, rfl⟩⟩

theorem World.Filling.restorable {o : Slot} {n : Nat} {u : World} (h : World.Filling o n w u)
    (hw : w.Restorable)
    : u.Restorable := by
  apply hw.grow h.sound _ _ h.tables
  . rintro ⟨o', f⟩ hne
    by_cases ho : o' = o
    . subst ho
      exact h.grown f hne
    . simp only [World.held, h.other o' ho]
  . intro i hclean
    rw [objstoreDestroy.dirty_congr h.objBmp_eq] at hclean
    exact hclean

theorem objstoreWrite_restorable (hc : env.cached = false) (hw : w.Restorable) {o : Slot}
    (hproper : w.Proper o) {buf : Mem} {size offset : Nat} {r : Int}
    (h : objstoreWrite env o.id buf size offset w = .ok (r, w')) (hspace : ¬ w'.Exhausted)
    : w'.Restorable := by
  obtain ⟨u, hfills, hend⟩ := objstoreWrite_fills hc hproper hw.sound h
  cases hend with
  | inl heq =>
    subst heq
    exact (hfills.resolve_left hspace).restorable hw
  | inr hdone =>
    obtain ⟨total, rfl⟩ := hdone
    have hfull : ¬ u.Exhausted := by
      intro hfull
      apply hspace
      rw [markObjDirty_eq]
      exact List.mem_cons_of_mem _ (List.mem_cons_of_mem _ hfull)
    rw [markObjDirty_eq]
    apply ((hfills.resolve_left hfull).restorable hw).mark
    funext f
    cases f <;> rfl

end ObjStore
