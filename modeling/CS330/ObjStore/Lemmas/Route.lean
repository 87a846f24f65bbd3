import CS330.ObjStore.Lemmas.Fetch

/-!
This module contains which blocks `objstore_read` delivers, one after the other, whether they are the ones
that were asked for or not: a null pointer ends a loop but not the read.
-/

namespace ObjStore

namespace View

-- The blocks that a loop over the `n` places from `t` on delivers.
def segment (v : View) (o : Slot) (start : Nat) : Nat → Nat → List Nat
  | 0, _ => []
  | n + 1, t =>
    if t < start then
      segment v o start n (t + 1)
    else if v.ptr (dataRef o t) = 0#32 then
      []
    else
      t :: segment v o start n (t + 1)

def segments (v : View) (o : Slot) (start : Nat) : List (Fin 4) → List Nat
  | [] => []
  | i :: is =>
    if (v.objects o).indirect i = 0#32 then
      []
    else
      v.segment o start 1024 (4 + 1024 * i) ++ segments v o start is

/-- The blocks of object `o` that a read from block `start` on delivers. -/
def route (v : View) (o : Slot) (start : Nat) : List Nat :=
  v.segment o start 4 0 ++ v.segments o start (Loop.range 4)

/-- Byte `p` of what such a read delivers; behind the last block come zeros. -/
def served (v : View) (o : Slot) (start p : Nat) : Byte :=
  match (v.route o start)[p / 4096]? with
  | some t => (v.byteAt o (4096 * t + p % 4096)).getD 0#8
  | none => 0#8

end View

open View

/-- A read of `size` bytes that has delivered the blocks `d` before it gets to place `t`. -/
structure Visited (env : Env) (w₀ : World) (o : Slot) (size start t : Nat) (d : List Nat)
    (s : Xfer × Mem × World) : Prop where
  reads : w₀.Reads env s.2.2
  temp : ∃ (temp : Block), s.1.temp = some temp
  shift_eq : s.1.shift = 0
  done : s.1.blocksDone = min t start
  rem : s.1.remaining = size - 4096 * d.length
  bytes : ∀ (p : Nat), p < size → ∀ (t : Nat), d[p / 4096]? = some t
    → (w₀.view env).byteAt o (4096 * t + p % 4096) = some (s.2.1 p)

variable {env : Env} {w w₀ : World} {o : Slot} {size start t : Nat} {d : List Nat} {x : Xfer} {buf : Mem}

-- What a pass of the loops does with the pointer in its place.
def objstoreRead.visit (env : Env) (size start : Nat) (p : BlockNo) (s : Xfer × Mem × World)
    : Except Fault (Loop.Flow Int (Xfer × Mem × World)) :=
  let (x, buf, w) := s
  if x.blocksDone < start then
    return .next ({ x with blocksDone := x.blocksDone + 1 }, buf, w)
  else if p ≠ 0#32 then do
    let (_, x, buf, w) ← getBlockData env size p x buf w
    return .next (x, buf, w)
  else
    return .stop (x, buf, w)

namespace Visited

theorem skip (h : Visited env w₀ o size start t d (x, buf, w)) (ht : t < start)
    : Visited env w₀ o size start (t + 1) d ({ x with blocksDone := x.blocksDone + 1 }, buf, w) where
  reads := h.reads
  temp := h.temp
  shift_eq := h.shift_eq
  done := by
    have := h.done
    simp only at this ⊢
    omega
  rem := h.rem
  bytes := h.bytes

theorem mono (h : Visited env w₀ o size start t d (x, buf, w)) (ht : start ≤ t) (t' : Nat) (htt' : t ≤ t')
    : Visited env w₀ o size start t' d (x, buf, w) where
  reads := h.reads
  temp := h.temp
  shift_eq := h.shift_eq
  done := by
    have := h.done
    simp only at this ⊢
    omega
  rem := h.rem
  bytes := h.bytes

theorem get (hr : env.Reliable) (h : Visited env w₀ o size start t d (x, buf, w)) (ht : start ≤ t)
    (hp : (w₀.view env).ptr (dataRef o t) ≠ 0#32)
    : ∃ (x' : Xfer) (buf' : Mem) (w' : World),
        getBlockData env size ((w₀.view env).ptr (dataRef o t)) x buf w = .ok (0, x', buf', w')
        ∧ Visited env w₀ o size start (t + 1) (d ++ [t]) (x', buf', w') := by
  have hrem := h.rem
  have hdone := h.done
  simp only at hrem hdone
  by_cases hpos : 0 < x.remaining
  . obtain ⟨temp, htemp⟩ := h.temp
    obtain ⟨w', heq, hview, hkeeps⟩ :=
      getBlockData_eq hr h.reads.tagged size _ hp x hpos temp htemp buf
    have hshift := h.shift_eq
    simp only at hshift
    rw [if_neg (by rw [hshift, curSize_eq]; simp only [blockSize]; omega)] at heq
    refine ⟨_, _, w', heq, h.reads.keeps _ hp hview hkeeps, ⟨_, rfl⟩, rfl, ?_, ?_, ?_⟩
    . simp only [Xfer.advance]
      omega
    . simp only [Xfer.advance, curSize_eq, List.length_append, List.length_singleton]
      omega
    . intro p hp' t' hget
      have hlen : p / 4096 < d.length + 1 := by
        have := (List.getElem?_eq_some_iff.mp hget).1
        simpa using this
      by_cases hold : p / 4096 < d.length
      . rw [List.getElem?_append_left hold] at hget
        have := h.bytes p hp' t' hget
        simp only [Mem.copy_before _ _ _ _ _ (show p < size - x.remaining by omega)]
        exact this
      . have hlast : p / 4096 = d.length := by omega
        rw [hlast, List.getElem?_concat_length] at hget
        cases hget
        have hcell := cell_eq (w₀.view env) _ hp
        rw [byteAt_eq hcell _ (Nat.mod_lt _ (by decide)), h.reads.view_eq, hshift]
        simp only [Nat.zero_add]
        rw [Mem.copy_in _ _ _ _ _ (by omega) (by rw [curSize_eq]; omega)]
        congr 2
        omega
  . refine ⟨x, buf, w, getBlockData_zero _ _ _ (by omega) _, h.reads, h.temp, h.shift_eq, ?_, ?_, ?_⟩
    . simp only
      omega
    . simp only [List.length_append, List.length_singleton]
      omega
    . intro p hp' t' hget
      apply h.bytes p hp' t'
      rw [List.getElem?_append_left (by omega)] at hget
      exact hget

theorem visit (hr : env.Reliable) (h : Visited env w₀ o size start t d (x, buf, w)) (p : BlockNo)
    (hp : p = (w₀.view env).ptr (dataRef o t))
    : (t < start ∧ ∃ (s : Xfer × Mem × World),
          objstoreRead.visit env size start p (x, buf, w) = .ok (.next s)
          ∧ Visited env w₀ o size start (t + 1) d s)
      ∨ (start ≤ t ∧ (w₀.view env).ptr (dataRef o t) = 0#32
          ∧ objstoreRead.visit env size start p (x, buf, w) = .ok (.stop (x, buf, w)))
      ∨ (start ≤ t ∧ (w₀.view env).ptr (dataRef o t) ≠ 0#32 ∧ ∃ (s : Xfer × Mem × World),
          objstoreRead.visit env size start p (x, buf, w) = .ok (.next s)
          ∧ Visited env w₀ o size start (t + 1) (d ++ [t]) s) := by
  subst hp
  have hdone := h.done
  simp only at hdone
  unfold objstoreRead.visit
  by_cases hlt : t < start
  . left
    have hskip : x.blocksDone < start := by omega
    simp only [hskip, ↓reduceIte]
    exact ⟨hlt, _, rfl, h.skip hlt⟩
  . right
    have hskip : ¬ x.blocksDone < start := by omega
    simp only [hskip, ↓reduceIte]
    by_cases hnull : (w₀.view env).ptr (dataRef o t) = 0#32
    . left
      simp only [hnull, ne_eq, not_true_eq_false, ↓reduceIte]
      exact ⟨by omega, trivial, rfl⟩
    . right
      obtain ⟨x', buf', w', heq, h'⟩ := h.get hr (by omega) hnull
      simp only [hnull, ne_eq, not_false_eq_true, ↓reduceIte, heq]
      exact ⟨by omega, trivial, _, rfl, h'⟩

end Visited

theorem run_segment (hr : env.Reliable) {n : Nat}
    {body : Fin n → Xfer × Mem × World → Except Fault (Loop.Flow Int (Xfer × Mem × World))} (t : Nat)
    (hbody : ∀ (j : Fin n) (s : Xfer × Mem × World), w₀.Reads env s.2.2
      → body j s = objstoreRead.visit env size start ((w₀.view env).ptr (dataRef o (t + j))) s)
    (s : Xfer × Mem × World) (h : Visited env w₀ o size start t d s)
    : ∃ (s' : Xfer × Mem × World), Loop.run body (Loop.range n) s = .ok (.next s')
        ∧ Visited env w₀ o size start (t + n) (d ++ (w₀.view env).segment o start n t) s' := by
  let P (k : Nat) (s : Xfer × Mem × World) : Prop :=
    ∃ (d' : List Nat), Visited env w₀ o size start (t + k) d' s
      ∧ d' ++ (w₀.view env).segment o start (n - k) (t + k) = d ++ (w₀.view env).segment o start n t
  let Q (r : Except Fault (Loop.Flow Int (Xfer × Mem × World))) : Prop :=
    ∃ (s' : Xfer × Mem × World), r = .ok (.next s')
      ∧ Visited env w₀ o size start (t + n) (d ++ (w₀.view env).segment o start n t) s'
  apply Loop.run_inv (P := P) (Q := Q)
  . rintro j ⟨x, buf, w⟩ ⟨d', hv, heq⟩
    have hj := j.isLt
    have hcount : n - j.val = (n - (j.val + 1)) + 1 := by omega
    rw [hcount, View.segment] at heq
    rw [hbody j _ hv.reads]
    cases hv.visit hr _ rfl with
    | inl hskip =>
      obtain ⟨hlt, s', hvisit, hv'⟩ := hskip
      rw [if_pos hlt] at heq
      rw [hvisit]
      exact ⟨d', hv', heq⟩
    | inr hrest =>
      cases hrest with
      | inl hnull =>
        obtain ⟨hle, hptr, hvisit⟩ := hnull
        rw [if_neg (by omega), if_pos hptr, List.append_nil] at heq
        rw [hvisit]
        refine ⟨_, rfl, ?_⟩
        rw [← heq]
        exact hv.mono hle _ (by omega)
      | inr hget =>
        obtain ⟨hle, hptr, s', hvisit, hv'⟩ := hget
        rw [if_neg (by omega), if_neg hptr] at heq
        rw [hvisit]
        refine ⟨d' ++ [t + j], hv', ?_⟩
        rw [List.append_assoc]
        exact heq
  . rintro s' ⟨d', hv, heq⟩
    rw [Nat.sub_self, View.segment, List.append_nil] at heq
    rw [heq] at hv
    exact ⟨s', rfl, hv⟩
  . exact ⟨d, h, rfl⟩

theorem run_entries (hr : env.Reliable) (i : Fin 4) (hind : (w₀.objects o).indirect i ≠ 0#32)
    (s : Xfer × Mem × World) (t : Nat) (ht : t = 4 + 1024 * i) (h : Visited env w₀ o size start t d s)
    : ∃ (s' : Xfer × Mem × World),
        Loop.run (objstoreRead.entry env size start ((w₀.view env).data ((w₀.objects o).indirect i)))
          (Loop.range 1024) s = .ok (.next s')
        ∧ Visited env w₀ o size start (t + 1024) (d ++ (w₀.view env).segment o start 1024 t) s' := by
  apply run_segment hr t ?_ s h
  intro j s _
  have hptr : (w₀.view env).ptr (.entry o i j) = ptrAt ((w₀.view env).data ((w₀.objects o).indirect i)) j :=
    if_neg hind
  rw [ht, dataRef_entry, hptr]
  rfl

-- What the loop over the pointer blocks leaves: all blocks, or at least as many as were asked for.
def Visited.Ends (env : Env) (w₀ : World) (o : Slot) (size start : Nat) (all : List Nat)
    (r : Except Fault (Loop.Flow Int (Xfer × Mem × World))) : Prop :=
  ∃ (s : Xfer × Mem × World) (t : Nat) (d rest : List Nat), r = .ok (.next s)
    ∧ Visited env w₀ o size start t d s ∧ d ++ rest = all ∧ (rest = [] ∨ size ≤ 4096 * d.length)

theorem run_indirect (hr : env.Reliable) (i : Fin 4) (t : Nat) (ht : t = 4 + 1024 * i) (all : List Nat)
    (h : Visited env w₀ o size start t d (x, buf, w))
    (hall : d ++ (w₀.view env).segments o start ((Loop.range 4).drop i) = all)
    : Loop.StepPost
        (fun s => ∃ (d' : List Nat), Visited env w₀ o size start (t + 1024) d' s
          ∧ d' ++ (w₀.view env).segments o start ((Loop.range 4).drop (i + 1)) = all)
        (Visited.Ends env w₀ o size start all) (objstoreRead.indirect env o size start i (x, buf, w)) := by
  have hobj : w.objects = w₀.objects := h.reads.objects_eq
  have hrem := h.rem
  simp only at hrem
  rw [Loop.drop_range i.val i.isLt, segments] at hall
  unfold objstoreRead.indirect
  simp only [hobj]
  by_cases hgo : (w₀.objects o).indirect i ≠ 0#32 ∧ 0 < x.remaining
  . have hp : (w₀.view env).ptr (.indirect o i) ≠ 0#32 := hgo.1
    have hreads := h.reads.emit (.cmalloc true) (by simp)
    obtain ⟨w₁, hread, hview, hkeeps⟩ := readChBlk_spec hr hreads.tagged _ hp (Buf.zero blockSize)
    have hread₀ : readChBlk env ((w₀.objects o).indirect i) (Buf.zero blockSize)
        (w.emit (.cmalloc true)) = (true, (w₀.view env).data ((w₀.objects o).indirect i), w₁) := by
      rw [← hreads.view_eq]
      exact hread
    have hobj₁ : (w.emit (.cmalloc true)).objects = w₀.objects := hobj
    have h₁ : Visited env w₀ o size start t d (x, buf, w₁) :=
      ⟨hreads.keeps _ hp hview hkeeps, h.temp, h.shift_eq, h.done, h.rem, h.bytes⟩
    obtain ⟨s', hrun, h'⟩ := run_entries hr i hgo.1 _ t ht h₁
    rw [if_pos hgo, cmalloc_eq hr]
    simp only [hobj₁, hread₀, hrun]
    refine ⟨_, h', ?_⟩
    have hind : ¬ ((w₀.view env).objects o).indirect i = 0#32 := hgo.1
    rw [if_neg hind] at hall
    rw [ht, List.append_assoc]
    exact hall
  . rw [if_neg hgo]
    refine ⟨(x, buf, w), t, d, _, rfl, h, hall, ?_⟩
    by_cases hnull : ((w₀.view env).objects o).indirect i = 0#32
    . left
      rw [if_pos hnull]
    . right
      have hzero : ¬ 0 < x.remaining := fun hpos => hgo ⟨hnull, hpos⟩
      omega

theorem run_indirects (hr : env.Reliable) (s : Xfer × Mem × World)
    (h : Visited env w₀ o size start 4 d s)
    : Visited.Ends env w₀ o size start (d ++ (w₀.view env).segments o start (Loop.range 4))
        (Loop.run (objstoreRead.indirect env o size start) (Loop.range 4) s) := by
  let P (k : Nat) (s : Xfer × Mem × World) : Prop :=
    ∃ (d' : List Nat), Visited env w₀ o size start (4 + 1024 * k) d' s
      ∧ d' ++ (w₀.view env).segments o start ((Loop.range 4).drop k)
        = d ++ (w₀.view env).segments o start (Loop.range 4)
  apply Loop.run_inv (P := P)
  . rintro i ⟨x, buf, w⟩ ⟨d', hv, heq⟩
    have hnext : 4 + 1024 * (i.val + 1) = 4 + 1024 * i.val + 1024 := by
      rw [Nat.mul_add, Nat.add_assoc]
    simp only [P, hnext]
    exact run_indirect hr i _ rfl _ hv heq
  . rintro s' ⟨d', hv, heq⟩
    rw [List.drop_eq_nil_of_le (by simp), segments] at heq
    exact ⟨s', _, d', [], rfl, hv, heq, Or.inl rfl⟩
  . exact ⟨d, h, rfl⟩

/-- A read that starts with a block delivers the route. -/
theorem objstoreRead_route (hr : env.Reliable) (htag : w.Tagged) (o : Slot) (buf : Mem) (size offset : Nat)
    (hsize : size ≤ maxSize) (haligned : offset % 4096 = 0)
    : ∃ (buf' : Mem) (w' : World), objstoreRead env o.id buf size offset w = .ok (size, buf', w')
        ∧ w.Reads env w'
        ∧ ∀ (p : Nat), p < size → buf' p = (w.view env).served o (startBlock offset) p := by
  unfold objstoreRead
  rw [if_neg o.id_ge, if_neg (by omega), dif_pos o.id_lt, o.of_id]
  simp only [cmalloc_eq hr]
  have hreads : w.Reads env ((w.lock .rd).emit (.cmalloc true)) :=
    ((World.Reads.refl htag).emit (.lock .rd) (by simp)).emit (.cmalloc true) (by simp)
  have hinit : Visited env w o size (startBlock offset) 0 []
      (Xfer.start size offset (some (Buf.zero blockSize)), buf, (w.lock .rd).emit (.cmalloc true)) := by
    refine ⟨hreads, ⟨_, rfl⟩, haligned, ?_, ?_, ?_⟩
    . simp [Xfer.start]
    . simp [Xfer.start]
    . intro p _ t ht
      simp at ht
  have hdirect : ∀ (i : Fin 4) (s : Xfer × Mem × World), w.Reads env s.2.2
      → objstoreRead.direct env o size (startBlock offset) i s
        = objstoreRead.visit env size (startBlock offset) ((w.view env).ptr (dataRef o (0 + i))) s := by
    rintro i ⟨x, buf, u⟩ hu
    have hptr : (w.view env).ptr (.direct o i) = (u.objects o).direct i :=
      congrArg (fun f => (f o).direct i) hu.objects_eq.symm
    rw [Nat.zero_add, dataRef_direct, hptr]
    rfl
  obtain ⟨s₁, hrun₁, h₁⟩ := run_segment hr 0 hdirect _ hinit
  obtain ⟨⟨x₂, buf₂, w₂⟩, t, d, rest, hrun₂, h₂, heq, hend⟩ := run_indirects hr s₁ h₁
  simp only [hrun₁, hrun₂, bind, Except.bind]
  refine ⟨_, _, rfl, h₂.reads.emit _ (by simp), ?_⟩
  intro p hp
  have hrem := h₂.rem
  simp only at hrem
  have hroute : (w.view env).route o (startBlock offset) = d ++ rest := heq.symm
  unfold served
  rw [hroute]
  by_cases hlt : p / 4096 < d.length
  . rw [List.getElem?_append_left hlt, List.getElem?_eq_getElem hlt]
    have hbyte := h₂.bytes p hp _ (List.getElem?_eq_getElem hlt)
    simp only
    rw [Mem.copy_before _ _ _ _ _ (by omega), hbyte]
    rfl
  . have hrest : rest = [] := hend.resolve_right (by omega)
    rw [hrest, List.append_nil, List.getElem?_eq_none (by omega), Mem.copy_in _ _ _ _ _ (by omega) (by omega)]

end ObjStore
