import CS330.ObjStore.Files
import CS330.ObjStore.Impl.Kvstore

/-!
This module contains transfers that are made in pieces, one request after the other: the free blocks that
suffice for the whole suffice for every piece, and the pieces add up to the file.
-/

namespace ObjStore

open View Objfs

variable {objfs : Objfs} {env : Env} {w w' : World} {o : Slot} {buf : Mem} {size offset n : Nat}

section Need

variable (hpos : 1 ≤ size) (hin : offset + size ≤ n) (hn : n ≤ maxSize)

include hpos hin hn

theorem touched_whole {t : Nat} (h : 4096 * (t - startBlock offset) < size) : 4096 * (t - startBlock 0) < n := by
  rw [startBlock_eq (show offset ≤ maxSize by omega)] at h
  rw [startBlock_eq (Nat.zero_le _)]
  omega

theorem need_le_whole : w.need env o size offset ≤ w.need env o n 0 := by
  unfold World.need
  apply Nat.add_le_add
  . apply Finset.card_le_card
    intro t ht
    simp only [Finset.mem_filter, Finset.mem_range] at ht ⊢
    exact ⟨ht.1, ⟨by rw [startBlock_eq (Nat.zero_le _)]; omega, touched_whole hpos hin hn ht.2.1.2⟩, ht.2.2⟩
  . apply Finset.card_le_card
    intro i hi
    simp only [Finset.mem_filter, Finset.mem_univ, true_and] at hi ⊢
    exact ⟨touched_whole hpos hin hn hi.1, hi.2⟩

-- What a piece has taken is not needed any more.
theorem need_after {hfit : InBlock size offset} {v : View} {k : BitVec 64}
    (hprog : (Job.ofWrite o buf size offset hfit).Progress (w.view env) v 4100)
    (hview : w'.view env = v.finish o k)
    : w'.need env o n 0 + w.need env o size offset ≤ w.need env o n 0 := by
  have hobj : w'.objects o = { v.objects o with size := k } := by
    have := congrFun (congrArg View.objects hview) o
    simpa [View.finish, View.edit, View.setObj, World.view] using this
  have hptr : ∀ (r : Ref), (w'.view env).ptr r = v.ptr r := by
    intro r
    rw [hview]
    exact View.ptr_edit o { v.objects o with size := k } rfl rfl r
  have hnull : ∀ (t : Nat), t < 4100 → (w'.view env).ptr (dataRef o t) = 0#32
      → ¬ (Job.ofWrite o buf size offset hfit).Touched t ∧ (w.view env).ptr (dataRef o t) = 0#32 := by
    intro t ht h0
    rw [hptr] at h0
    have hnot : ¬ (Job.ofWrite o buf size offset hfit).Touched t := by
      intro htouched
      obtain ⟨blk, hcell, -⟩ := hprog.written t ht htouched
      have hcell' : v.cell (dataRef o t) = some blk := hcell
      rw [cell_eq_none.mpr h0] at hcell'
      cases hcell'
    refine ⟨hnot, ?_⟩
    rw [← cell_eq_none, ← hprog.frame _ (dataRef_isData o t), cell_eq_none]
    . exact h0
    . intro s hs htouched heq
      rw [dataRef_inj ht hs heq] at hnot
      exact hnot htouched
  unfold World.need
  rw [Nat.add_add_add_comm]
  apply Nat.add_le_add
  . rw [← Finset.card_union_of_disjoint]
    . apply Finset.card_le_card
      apply Finset.union_subset
      . intro t ht
        simp only [Finset.mem_filter, Finset.mem_range] at ht ⊢
        exact ⟨ht.1, ht.2.1, (hnull t ht.1 ht.2.2).2⟩
      . intro t ht
        simp only [Finset.mem_filter, Finset.mem_range] at ht ⊢
        exact ⟨ht.1, ⟨by rw [startBlock_eq (Nat.zero_le _)]; omega, touched_whole hpos hin hn ht.2.1.2⟩, ht.2.2⟩
    . apply Finset.disjoint_left.mpr
      intro t ht ht'
      simp only [Finset.mem_filter, Finset.mem_range] at ht ht'
      exact (hnull t ht.1 ht.2.2).1 ht'.2.1
  . rw [← Finset.card_union_of_disjoint]
    . apply Finset.card_le_card
      apply Finset.union_subset
      . intro i hi
        simp only [Finset.mem_filter, Finset.mem_univ, true_and] at hi ⊢
        refine ⟨hi.1, ?_⟩
        apply Classical.byContradiction
        intro hne
        rw [hobj] at hi
        exact hne ((hprog.indirect_old i hne).symm.trans hi.2)
      . intro i hi
        simp only [Finset.mem_filter, Finset.mem_univ, true_and] at hi ⊢
        exact ⟨touched_whole hpos hin hn hi.1, hi.2⟩
    . apply Finset.disjoint_left.mpr
      intro i hi hi'
      simp only [Finset.mem_filter, Finset.mem_univ, true_and] at hi hi'
      rw [hobj] at hi
      exact hprog.indirect_new i (by omega) hi'.1 hi.2

end Need

namespace Objfs.Files

variable {m : Files}

theorem Holds.reached_of_le (h : m.Holds env w o) (hle : offset ≤ (m.content o).length) : Reached w o offset := by
  by_cases hzero : offset = 0
  . exact .start hzero
  . have hlen := h.filled.length_le
    simp only [maxSize, blockSize] at hlen
    apply Reached.behind
    . have hbyte := h.filled.byteAt_eq (4096 * 0) (by omega)
      rw [List.getElem?_eq_getElem (by omega)] at hbyte
      exact ptr_ne_zero_of_byteAt hbyte
    . rw [h.size_eq, Files.size, BitVec.toNat_ofNat]
      omega

theorem Represents.live (h : m.Represents env w) {k : List Byte} (hname : m.names k = some o)
    : (w.objects o).size ≠ 0#64 :=
  ((h.names k o).mp hname).1

end Objfs.Files

open Files

variable {m : Files} {k : List Byte}

-- A piece is written if the free blocks suffice for the whole, and then they suffice for the rest of it.
theorem serve_write (objfs : Objfs) (buf : Mem) (hr : env.Reliable) (h : m.Represents env w)
    (hacc : (Request.write buf size offset (fhOf o)).Accepts w) (hin : offset + size ≤ n) (hn : n ≤ maxSize)
    (hroom : w.need env o n 0 ≤ w.blkBmp.free)
    : ∃ (a : Answer) (w' : World) (m' : Files),
        serve objfs env w (.write buf size offset (fhOf o)) = .ok (a, w')
        ∧ m.Step objfs (.write buf size offset (fhOf o), a) m' ∧ m'.Represents env w'
        ∧ w'.need env o n 0 ≤ w'.blkBmp.free := by
  obtain ⟨a, w', hserve⟩ := h.serve_returns objfs hr hacc
  obtain ⟨reply, hexec, -⟩ := (serve_op_eq_ok rfl).mp hserve
  have hacc' := Request.Accepts.op hacc rfl
  have hpos : 1 ≤ size := hacc'.2.1
  have hfit : InBlock size offset := hacc'.2.2.1
  have hle : w.need env o size offset ≤ w.need env o n 0 := need_le_whole hpos hin hn
  rw [objidOf_fhOf] at hexec hacc'
  have hnot : ¬ (Op.write o.id buf size offset).Starves env w := by
    rintro ⟨o', hid, -, hlt⟩
    cases Slot.id_inj hid
    omega
  have hnot' : ¬ (Request.write buf size offset (fhOf o)).Starves env w := by
    rintro ⟨op, hop, hstarves⟩
    cases hop
    rw [objidOf_fhOf] at hstarves
    exact hnot hstarves
  obtain ⟨m', hstep, hrep⟩ := h.step_request hr hacc hnot' hserve
  refine ⟨a, w', m', hserve, hstep, hrep, ?_⟩
  have hroomy : RoomyStep env w (.write o.id buf size offset, reply) w' := ⟨hacc', hexec, hnot⟩
  obtain ⟨-, -, v, hprog, hview⟩ := hroomy.written hr h.ok (by omega) hfit
  have hafter := need_after hpos hin hn hprog hview
  have hfree := hprog.free_eq
  rw [Job.need_ofWrite env w o buf size offset hfit] at hfree
  have hbmp : w'.blkBmp = v.blkBmp := congrArg View.blkBmp hview
  have hbmp₀ : (w.view env).blkBmp = w.blkBmp := rfl
  rw [← hbmp, hbmp₀] at hfree
  omega

namespace Kvstore

theorem writePieces_spec (objfs : Objfs) (buf : Mem) (hr : env.Reliable) (hn : n ≤ maxSize) (sizes : List Nat) (offset : Nat)
    (hpaged : Paged sizes offset) (hsum : offset + sizes.sum = n) (h : m.Represents env w)
    (hname : m.names k = some o) (hcontent : m.content o = (List.range offset).map buf)
    (hroom : w.need env o n 0 ≤ w.blkBmp.free)
    : ∃ (w' : World) (m' : Files), writePieces objfs env (fhOf o) buf sizes offset w = .ok (some n, w')
        ∧ m'.Represents env w' ∧ m'.names = m.names
        ∧ m'.content = Function.update m.content o ((List.range n).map buf) := by
  induction sizes generalizing offset w m with
  | nil =>
    rw [List.sum_nil, Nat.add_zero] at hsum
    rw [hsum] at hcontent
    refine ⟨w, m, ?_, h, rfl, ?_⟩
    . rw [hsum]
      rfl
    . rw [← hcontent, Function.update_eq_self]
  | cons size sizes ih =>
    obtain ⟨haligned, hpos, hmax, hrest⟩ := hpaged
    rw [List.sum_cons] at hsum
    have hlive := h.live hname
    have hlen : (m.content o).length = offset := by
      rw [hcontent, List.length_map, List.length_range]
    have hfit : InBlock size offset := by
      unfold InBlock
      omega
    have hreached : Reached w o offset := (h.holds o hlive).reached_of_le (by omega)
    obtain ⟨a, w₁, m₁, hserve, ⟨hvalue, hnames, hwritten⟩, hrep, hroom₁⟩ :=
      serve_write objfs (fun i => buf (offset + i)) hr h
        ⟨o, rfl, hlive, hpos, hfit, by omega, hreached⟩ (by omega) hn hroom
    have hcontent₁ : m₁.content = Function.update m.content o ((List.range (offset + size)).map buf) := by
      rw [hwritten o rfl, List.take_of_length_le (by omega), hcontent, List.range_add, List.map_append, List.map_map]
      rfl
    obtain ⟨w', m', hpieces, hrep', hnames', hcontent'⟩ := ih (offset + size) hrest (by omega) hrep
      (by rw [hnames]; exact hname) (by rw [hcontent₁, Function.update_self]) hroom₁
    refine ⟨w', m', ?_, hrep', hnames'.trans hnames, ?_⟩
    . have hneg : ¬ a.value < 0 := by
        simp only at hvalue
        omega
      simp only [writePieces, hserve, bind, Except.bind, hneg, ↓reduceIte, hpieces]
    . rw [hcontent', hcontent₁, Function.update_idem]

theorem readPieces_spec (objfs : Objfs) (hr : env.Reliable) (sizes : List Nat) (offset : Nat) (pages : Mem)
    (hpaged : Paged sizes offset) (h : m.Represents env w) (hname : m.names k = some o)
    (hpages : ∀ (p : Nat), p < offset → p < (m.content o).length → (m.content o)[p]? = some (pages p))
    : ∃ (pages' : Mem) (w' : World),
        readPieces objfs env (fhOf o) sizes offset pages w = .ok (some pages', w') ∧ m.Represents env w'
        ∧ ∀ (p : Nat), p < offset + sizes.sum → p < (m.content o).length
          → (m.content o)[p]? = some (pages' p) := by
  induction sizes generalizing offset w pages with
  | nil => exact ⟨pages, w, rfl, h, hpages⟩
  | cons size sizes ih =>
    obtain ⟨haligned, hpos, hmax, hrest⟩ := hpaged
    have hfit : InBlock size offset := by
      unfold InBlock
      omega
    have hacc : (Request.read (fun _ => 0#8) size offset (fhOf o)).Accepts w :=
      ⟨o, rfl, h.live hname, hmax, hfit⟩
    obtain ⟨a, w₁, hserve⟩ := h.serve_returns objfs hr hacc
    have hnot : ¬ (Request.read (fun _ => 0#8) size offset (fhOf o)).Starves env w := by
      rintro ⟨op, hop, hstarves⟩
      cases hop
      exact hstarves
    obtain ⟨m₁, ⟨hsame, hvalue, out, hbuf, hdelivers⟩, hrep⟩ := h.step_request hr hacc hnot hserve
    rw [show m₁ = m from hsame] at hrep
    simp only at hvalue hbuf
    obtain ⟨pages', w', hpieces, hrep', hbytes⟩ := ih (offset + size) (pages.copy offset out size) hrest hrep (by
      intro p hp hlen
      by_cases hlt : p < offset
      . rw [Mem.copy_before _ _ _ _ _ hlt]
        exact hpages p hlt hlen
      . rw [Mem.copy_in _ _ _ _ _ (by omega) hp]
        exact (hdelivers o rfl).1 p (by omega) hp hlen)
    refine ⟨pages', w', ?_, hrep', ?_⟩
    . have hneg : ¬ a.value < 0 := by omega
      simp only [readPieces, hserve, bind, Except.bind, hneg, ↓reduceIte, hbuf, Option.getD_some, hpieces]
    . intro p hp
      rw [List.sum_cons] at hp
      exact hbytes p (by omega)

end Kvstore

end ObjStore
