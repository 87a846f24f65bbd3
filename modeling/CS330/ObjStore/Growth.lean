import CS330.ObjStore.Contents

/-!
This module contains objects that grow without holes: reads at the start of a block deliver what was
written, however the writes to the object and the operations on other objects are interleaved.
-/

namespace ObjStore

open View

def splice (content : List Byte) (offset : Nat) (data : List Byte) : List Byte :=
  content.take offset ++ data ++ content.drop (offset + data.length)

theorem length_splice (content data : List Byte) (offset : Nat) (h : offset ≤ content.length)
    : (splice content offset data).length = max content.length (offset + data.length) := by
  simp only [splice, List.length_append, List.length_take, List.length_drop]
  omega

theorem getElem?_splice (content data : List Byte) (offset p : Nat) (h : offset ≤ content.length)
    : (splice content offset data)[p]?
        =
      if offset ≤ p ∧ p < offset + data.length then data[p - offset]? else content[p]? := by
  have htake : (content.take offset).length = offset := by
    rw [List.length_take]
    omega
  unfold splice
  by_cases h1 : p < offset
  . rw [if_neg (by omega), List.append_assoc, List.getElem?_append_left (by omega),
      List.getElem?_take_of_lt h1]
  . by_cases h2 : p < offset + data.length
    . rw [if_pos (by omega), List.append_assoc, List.getElem?_append_right (by omega), htake,
        List.getElem?_append_left (by omega)]
    . rw [if_neg (by omega), List.getElem?_append_right (by rw [List.length_append]; omega),
        List.length_append, htake, List.getElem?_drop]
      congr 1
      omega

inductive Grows (len n offset : Nat) : Prop where
  | blocks (haligned : offset % blockSize = 0) (hle : offset ≤ len) (hn : n % blockSize = 0)
  | append (heq : offset = len) (haligned : offset % blockSize = 0)
  | fill (heq : offset = len) (hfit : offset % blockSize + n ≤ blockSize)

namespace Grows

variable {len n offset : Nat}

theorem offset_le (h : Grows len n offset) : offset ≤ len := by
  cases h with
  | blocks _ hle _ => exact hle
  | append heq _ => omega
  | fill heq _ => omega

theorem inBlock (h : Grows len n offset) : InBlock n offset := by
  unfold InBlock
  cases h with
  | blocks haligned _ _ => omega
  | append _ haligned => omega
  | fill _ hfit => omega

end Grows

/--
The worlds in which the object in slot `o` has been created and then written without leaving holes, with
any operations on other objects in between; `content` is what was written.
-/
inductive Grown (env : Env) (disk : BlockNo → Block) (o : Slot) : World → List Byte → Prop where
  | created {w w' : World} {key : CStr} (h : Reaches env disk w)
      (hstep : Step env w (.create key, ⟨o.id, none⟩) w')
      : Grown env disk o w' []
  | wrote {w w' : World} {content : List Byte} {r : Int} (h : Grown env disk o w content) (buf : Mem)
      (n offset : Nat) (hgrows : Grows content.length n offset) (hmax : offset + n ≤ maxSize)
      (hwrite : objstoreWrite env o.id buf n offset w = .ok (r, w')) (hfree : ¬ w'.Exhausted)
      : Grown env disk o w' (splice content offset ((List.range n).map buf))
  | other {w w' : World} {content : List Byte} {op : Op} {r : Reply} (h : Grown env disk o w content)
      (hstep : Step env w (op, r) w') (hspares : op.Spares w o)
      : Grown env disk o w' content

structure View.Filled (v : View) (o : Slot) (content : List Byte) : Prop where
  length_le : content.length ≤ maxSize
  byteAt_eq : ∀ (p : Nat), p < content.length → v.byteAt o p = content[p]?

variable {env : Env} {w w' : World} {o : Slot} {buf : Mem} {content : List Byte}

-- A write that leaves no hole touches no byte of the contents but those that it replaces.
theorem Grows.byteAt_kept {v₀ v : View} {len n offset : Nat} (h : Grows len n offset)
    (hmax : offset + n ≤ maxSize) (hprog : (Job.ofWrite o buf n offset h.inBlock).Progress v₀ v 4100)
    (p : Nat) (hlen : len ≤ maxSize) (hp : p < len) (hout : ¬ (offset ≤ p ∧ p < offset + n)) (b : Byte)
    (hb : v₀.byteAt o p = some b)
    : v.byteAt o p = some b := by
  have hstart : startBlock offset = offset / 4096 := startBlock_eq (by omega)
  have hlen' : len ≤ 4096 * 4100 := hlen
  have hframe : ¬ (offset / 4096 ≤ p / 4096 ∧ 4096 * (p / 4096 - offset / 4096) < n)
      → v.byteAt o p = some b := by
    intro hnot
    rw [hprog.byteAt_frame p _ (by omega), hb]
    simp only [Job.Touched, Job.ofWrite, hstart]
    exact hnot
  cases h with
  | blocks haligned hle hn =>
    apply hframe
    simp only [blockSize] at haligned hn
    omega
  | append heq haligned =>
    apply hframe
    simp only [blockSize] at haligned
    omega
  | fill heq hfit =>
    by_cases hsame : p / 4096 = offset / 4096 ∧ 0 < n
    . -- the last block is read before it is written
      exact hprog.byteAt_old hmax (by omega) hsame.2 p (by omega) hsame.1 b hb
    . apply hframe
      omega

theorem View.Filled.write {v₀ v : View} (h : v₀.Filled o content) {n offset : Nat}
    (hgrows : Grows content.length n offset) (hmax : offset + n ≤ maxSize)
    (hprog : (Job.ofWrite o buf n offset hgrows.inBlock).Progress v₀ v 4100)
    : v.Filled o (splice content offset ((List.range n).map buf)) := by
  have hle := hgrows.offset_le
  have hmax' : offset + n ≤ 4096 * 4100 := hmax
  have hlen' : content.length ≤ 4096 * 4100 := h.length_le
  have hlen := length_splice content ((List.range n).map buf) offset hle
  rw [List.length_map, List.length_range] at hlen
  refine ⟨?_, ?_⟩
  . rw [hlen]
    have := h.length_le
    omega
  . intro p hp
    rw [hlen] at hp
    rw [getElem?_splice _ _ _ _ hle, List.length_map, List.length_range]
    by_cases hin : offset ≤ p ∧ p < offset + n
    . rw [if_pos hin, hprog.byteAt_new hmax p hin.1 hin.2, List.getElem?_map,
        List.getElem?_range (by omega)]
      rfl
    . rw [if_neg hin]
      have hlt : p < content.length := by omega
      have hold := h.byteAt_eq p hlt
      rw [List.getElem?_eq_getElem hlt] at hold ⊢
      exact hgrows.byteAt_kept hmax hprog p h.length_le hlt hin _ hold

theorem View.Filled.same {v v' : View} (h : v.Filled o content) (hsame : SameContents o v v')
    : v'.Filled o content := by
  refine ⟨h.length_le, ?_⟩
  intro p hp
  rw [← h.byteAt_eq p hp]
  unfold View.byteAt
  rw [hsame.cell_eq _ (dataRef_isData _ _) (dataRef_slot _ _)]

theorem Grown.inv (hr : env.Reliable) {disk : BlockNo → Block} (hown : (diskView disk).Own)
    (h : Grown env disk o w content)
    : w.Ok env ∧ (w.view env).Filled o content := by
  induction h with
  | created h hstep =>
    refine ⟨(h.step hstep).ok hr hown, by decide, ?_⟩
    intro p hp
    simp at hp
  | wrote h buf n offset hgrows hmax hwrite hfree ih =>
    obtain ⟨hok, hfilled⟩ := ih
    obtain ⟨w', hwrite', htag, hcase⟩ :=
      objstoreWrite_spec hr hok o buf n offset (by omega) hgrows.inBlock
    rw [hwrite] at hwrite'
    cases hwrite'
    cases hcase with
    | inl hfull => exact absurd hfull hfree
    | inr hgood =>
      obtain ⟨hnoTable, v, hprog, hview⟩ := hgood
      have heff := Effect.written o buf n offset (by omega) hgrows.inBlock _ v hprog hview htag hnoTable
      refine ⟨heff.ok hok, ?_⟩
      have hnew := hfilled.write hgrows hmax hprog
      refine ⟨hnew.length_le, ?_⟩
      intro p hp
      rw [hview, byteAt_finish]
      exact hnew.byteAt_eq p hp
  | other h hstep hspares ih =>
    obtain ⟨hok, hfilled⟩ := ih
    have heff := Step.effect hr hok hstep
    exact ⟨heff.ok hok, hfilled.same (heff.sameContents o hspares)⟩

theorem grown_read (hr : env.Reliable) {disk : BlockNo → Block} (hown : (diskView disk).Own)
    (h : Grown env disk o w content) (buf : Mem) (n offset : Nat) (hn : n ≤ maxSize)
    (haligned : offset % blockSize = 0)
    : ∃ (buf' : Mem) (u : World), objstoreRead env o.id buf n offset w = .ok (n, buf', u)
        ∧ ∀ (p : Nat), offset ≤ p → p < min (offset + n) content.length
          → content[p]? = some (buf' (p - offset)) := by
  obtain ⟨hok, hfilled⟩ := h.inv hr hown
  have hfit : InBlock n offset := by
    unfold InBlock
    omega
  have hptr : ∀ (t : Nat), 4096 * t < content.length → (w.view env).ptr (dataRef o t) ≠ 0#32 := by
    intro t ht
    have := hfilled.byteAt_eq (4096 * t) ht
    rw [List.getElem?_eq_getElem ht] at this
    exact ptr_ne_zero_of_byteAt this
  have hindirects : ∀ (i : Fin 4), 4096 * (4 + 1024 * i.val) < content.length
      → (w.objects o).indirect i ≠ 0#32 := by
    intro i hi
    have hne := indirect_of_ptr (by omega) (by omega) (hptr (4 + 1024 * i.val) hi)
    have hindex : (⟨(4 + 1024 * i.val - 4) / 1024, by omega⟩ : Fin 4) = i := Fin.ext (by simp only; omega)
    rw [hindex] at hne
    exact hne
  obtain ⟨buf', u, heq, hbytes⟩ := objstoreRead_present hr hok.tagged o buf n offset hn hfit
    content.length hfilled.length_le (fun t _ ht => hptr t ht) hindirects
  refine ⟨buf', u, heq, ?_⟩
  intro p h1 h2
  rw [← hfilled.byteAt_eq p (by omega)]
  exact hbytes p h1 (by omega) (by omega)

theorem grown_read_started
    : ∃ (w : World) (o : Slot) (content : List Byte), Grown (steady true) blankDisk o w content
        ∧ content.length = 100 ∧ ∃ (buf' : Mem) (u : World),
            objstoreRead (steady true) o.id (fun _ => 0#8) 4096 0 w = .ok (4096, buf', u)
            ∧ content[99]? = some (buf' 99) := by
  obtain ⟨w, o, hstarted⟩ := exists_started true
  obtain ⟨w₀, hreach, hstep⟩ := hstarted.step
  obtain ⟨w', hwrite, hfree, -⟩ := hstarted.write (fun _ => 1#8) 100 (by decide) (by decide)
  have hgrown : Grown (steady true) blankDisk o w' (splice [] 0 ((List.range 100).map (fun _ => 1#8))) :=
    (Grown.created hreach hstep).wrote _ 100 0 (.append rfl rfl) (by decide) hwrite hfree
  obtain ⟨buf', u, heq, hbytes⟩ :=
    grown_read (steady_reliable true) own_blank hgrown (fun _ => 0#8) 4096 0 (by decide) rfl
  have hlen : (splice [] 0 ((List.range 100).map (fun _ => 1#8))).length = 100 := by
    simp [splice]
  rw [hlen] at hbytes
  exact ⟨w', o, _, hgrown, hlen, buf', u, heq, hbytes 99 (by decide) (by decide)⟩

end ObjStore
