import CS330.ObjStore.Sizes

/-!
This module contains which writes keep an object within `MAX_SIZE`. The check is on the size of the transfer alone,
so that a write may claim to have stored bytes for which an object has no blocks.
-/

namespace ObjStore

open View

variable {env : Env} {w : World} {o : Slot} {buf : Mem} {size offset : Nat}

/--
What the limit means to the caller of a write: it stays within `temp`, and what it reports as written is in the
blocks of an object that is not larger than `MAX_SIZE`.
-/
def Limited (env : Env) (w : World) (o : Slot) (buf : Mem) (size offset : Nat) : Prop :=
  objstoreWrite env o.id buf size offset w ≠ .error .tempOverrun
    ∧ ∀ (r : Int) (w' : World), objstoreWrite env o.id buf size offset w = .ok (r, w') → 0 ≤ r
      → (∀ (p : Nat), p < r.toNat → (w'.view env).byteAt o (offset + p) = some (buf p))
        ∧ (w'.objects o).size.toNat ≤ maxSize

theorem World.Ok.limited (hr : env.Reliable) (hok : w.Ok env) (hpos : 1 ≤ size) (hfit : InBlock size offset)
    (hmax : offset + size ≤ maxSize)
    (hspace : ∀ (r : Int) (w' : World), objstoreWrite env o.id buf size offset w = .ok (r, w')
      → ¬ w'.Exhausted)
    : Limited env w o buf size offset := by
  obtain ⟨w', hwrite, -, hcase⟩ := objstoreWrite_spec hr hok o buf size offset (by omega) hfit
  refine ⟨by rw [hwrite]; exact nofun, ?_⟩
  intro r u hu _
  have hsize := (objstoreWrite_size hu o).2
  rw [hwrite] at hu
  cases hu
  rcases hcase with hfull | ⟨-, v, hprog, hview⟩
  . exact absurd hfull (hspace _ _ hwrite)
  . refine ⟨?_, ?_⟩
    . intro p hp
      rw [hview, byteAt_finish, hprog.byteAt_new hmax (offset + p) (by omega) (by omega), Nat.add_sub_cancel_left]
    . rw [hsize, if_pos ⟨rfl, Int.natCast_nonneg size⟩, BitVec.toNat_ofNat]
      exact Nat.le_trans (Nat.mod_le _ _) hmax

-- a write that returns, though it has nowhere to put its bytes
theorem not_limited_of_returns (hoffset : offset < 2 ^ 63) (hsize : size ≤ maxSize) (hmax : maxSize < offset + size)
    {w' : World} (hwrite : objstoreWrite env o.id buf size offset w = .ok (size, w'))
    : ¬ Limited env w o buf size offset := by
  rintro ⟨-, h⟩
  have hle := (h _ _ hwrite (Int.natCast_nonneg size)).2
  rw [(objstoreWrite_size hwrite o).2, if_pos ⟨rfl, Int.natCast_nonneg size⟩, BitVec.toNat_ofNat,
    Nat.mod_eq_of_lt] at hle
  . omega
  . simp only [maxSize, blockSize] at hsize
    omega

/-- The limit is kept exactly by the writes that end within it, and whose first chunk fits into its block. -/
theorem limited_iff (hr : env.Reliable) {disk : BlockNo → Block} (hown : (diskView disk).Own)
    (h : Reaches env disk w) (hpos : 1 ≤ size) (hsize : size ≤ maxSize) (hoffset : offset < 2 ^ 63)
    (hspace : ∀ (r : Int) (w' : World), objstoreWrite env o.id buf size offset w = .ok (r, w')
      → ¬ w'.Exhausted)
    : Limited env w o buf size offset
      ↔ offset + size ≤ maxSize ∧ offset % blockSize + min size blockSize ≤ blockSize := by
  have hok := h.ok hr hown
  constructor
  . intro hlimited
    by_cases hfit : InBlock size offset
    . refine ⟨?_, hfit⟩
      by_contra hmax
      obtain ⟨w', hwrite, -⟩ := objstoreWrite_spec hr hok o buf size offset hsize hfit
      exact not_limited_of_returns hoffset hsize (by omega) hwrite hlimited
    . exfalso
      have hover : blockSize < offset % blockSize + curSize size := by
        rw [curSize_eq]
        unfold InBlock at hfit
        simp only [blockSize] at *
        omega
      by_cases hstart : startBlock offset < 4100
      . exact hlimited.1 (objstoreWrite_overrun hr hok.tagged o buf size offset hpos hsize hstart hover)
      . obtain ⟨w', hwrite⟩ := objstoreWrite_past hr hok.tagged o buf size offset hpos hsize (by omega) hover
        refine not_limited_of_returns hoffset hsize ?_ hwrite hlimited
        simp only [startBlock, maxSize, blockSize] at *
        omega
  . rintro ⟨hmax, hfit⟩
    exact hok.limited hr hpos hfit hmax hspace

theorem limited_iff_started
    : ∃ (w : World) (o : Slot), w.Started (steady true) o ∧ Limited (steady true) w o (fun _ => 1#8) 100 0 := by
  obtain ⟨w, o, hstarted⟩ := exists_started true
  obtain ⟨w', hwrite, hfree, -⟩ := hstarted.write (fun _ => 1#8) 100 (by decide) (by decide)
  refine ⟨w, o, hstarted, ?_⟩
  rw [limited_iff (steady_reliable true) own_blank hstarted.reaches (by decide) (by decide) (by decide)]
  . decide
  . intro r u heq
    rw [hwrite] at heq
    cases heq
    exact hfree

-- one byte behind the last block
theorem not_limited_started
    : ∃ (w : World) (o : Slot), w.Started (steady true) o
        ∧ ¬ Limited (steady true) w o (fun _ => 1#8) 1 maxSize := by
  have hr := steady_reliable true
  obtain ⟨w, o, hstarted⟩ := exists_started true
  obtain ⟨w', hwrite, -⟩ := objstoreWrite_spec hr (hstarted.reaches.ok hr own_blank) o (fun _ => 1#8) 1 maxSize
    (by decide) (by decide)
  exact ⟨w, o, hstarted, not_limited_of_returns (by decide) (by decide) (by decide) hwrite⟩

end ObjStore
