import CS330.ObjStore.Lemmas.Block

/-!
This module contains the correctness of the block allocator: `alloc_block` takes the first clear bit
from the last reserved word on, `free_block` clears one bit.
-/

namespace ObjStore

variable {env : Env} {w : World}

namespace allocBlock

theorem bits_spec (i : Fin blkBmpLn) (n j : Nat) (w : World) (hj : j + n = 64)
    : (∃ (k : Nat) (log : List Event), j ≤ k ∧ k < 64
          ∧ (w.blkBmp i).getLsbD k = false
          ∧ (∀ (m : Nat), j ≤ m → m < k → (w.blkBmp i).getLsbD m = true)
          ∧ bits i n j (w.blkBmp i >>> j) w
            = (some (BitVec.ofNat 32 (64 * i + k)),
              { w with blkBmp := w.blkBmp.orBit i k, log := log })
          ∧ w.Logged log)
      ∨
      (∃ (log : List Event), (∀ (m : Nat), j ≤ m → m < 64 → (w.blkBmp i).getLsbD m = true)
          ∧ bits i n j (w.blkBmp i >>> j) w = (none, { w with log := log })
          ∧ w.Logged log) := by
  induction n generalizing j w with
  | zero =>
    right
    refine ⟨w.log, ?_, rfl, Iff.rfl⟩
    intro m hm1 hm2
    omega
  | succ n ih =>
    simp only [bits, Bitmap.and_one_eq_zero]
    by_cases hfree : (w.blkBmp i).getLsbD j = false
    . left
      refine ⟨j, .unlock .blkBmp :: .lock .blkBmp :: w.log, by omega, by omega, hfree, ?_, ?_, ?_⟩
      . intro m hm1 hm2
        omega
      . simp [hfree, World.lock, World.unlock, World.emit]
      . simp [World.Logged]
    . simp only [hfree, ← BitVec.shiftRight_add]
      have hset : (w.blkBmp i).getLsbD j = true := by simpa using hfree
      have hrest : ∀ (m : Nat), j ≤ m → (j + 1 ≤ m → (w.blkBmp i).getLsbD m = true)
          → (w.blkBmp i).getLsbD m = true := by
        intro m hm h
        by_cases hmj : m = j
        . rw [hmj]
          exact hset
        . exact h (by omega)
      cases ih (j + 1) ((w.lock .blkBmp).unlock .blkBmp) (by omega) with
      | inl h =>
        obtain ⟨k, log, h1, h2, h3, h4, h5, h6⟩ := h
        left
        refine ⟨k, log, by omega, h2, h3, ?_, h5, ?_⟩
        . intro m hm1 hm2
          exact hrest m hm1 (fun h => h4 m h hm2)
        . simpa [World.Logged, World.lock, World.unlock, World.emit] using h6
      | inr h =>
        obtain ⟨log, h1, h2, h3⟩ := h
        right
        refine ⟨log, ?_, h2, ?_⟩
        . intro m hm1 hm2
          exact hrest m hm1 (fun h => h1 m h hm2)
        . simpa [World.Logged, World.lock, World.unlock, World.emit] using h3

theorem words_spec (k : Nat) (w : World) (hk : k ≤ blkBmpLn)
    : (∃ (i : Fin blkBmpLn) (j : Nat) (log : List Event), j < 64 ∧ k ≤ i
          ∧ w.blkBmp.bit (64 * i + j) = false
          ∧ (∀ (m : Nat), 64 * k ≤ m → m < 64 * i + j → w.blkBmp.bit m = true)
          ∧ words ((Loop.range blkBmpLn).drop k) w
            = (BitVec.ofNat 32 (64 * i + j), { w with blkBmp := w.blkBmp.orBit i j, log := log })
          ∧ w.Logged log)
      ∨
      (∃ (log : List Event), (∀ (m : Nat), 64 * k ≤ m → m < 64 * blkBmpLn → w.blkBmp.bit m = true)
          ∧ words ((Loop.range blkBmpLn).drop k) w = (-1, { w with log := log })
          ∧ Event.noSpace ∈ log) := by
  -- the induction is on the number of words left
  induction hd : blkBmpLn - k generalizing k w with
  | zero =>
    right
    have : k = blkBmpLn := by omega
    refine ⟨.noSpace :: w.log, ?_, ?_, by simp⟩
    . intro m hm1 hm2
      omega
    . rw [List.drop_eq_nil_of_le (by simp; omega)]
      rfl
  | succ d ih =>
    have hlt : k < blkBmpLn := by omega
    rw [Loop.drop_range k hlt, words]
    have hi : ∀ (m : Nat), m < 64
        → w.blkBmp.bit (64 * k + m) = (w.blkBmp ⟨k, hlt⟩).getLsbD m := by
      intro m hm
      exact Bitmap.bit_word w.blkBmp ⟨k, hlt⟩ m hm
    have hb := bits_spec ⟨k, hlt⟩ 64 0 w (by omega)
    rw [BitVec.ushiftRight_zero] at hb
    cases hb with
    | inl h =>
      obtain ⟨j, log, h1, h2, h3, h4, h5, h6⟩ := h
      left
      refine ⟨⟨k, hlt⟩, j, log, h2, by simp, ?_, ?_, ?_, h6⟩
      . rw [hi j h2]
        exact h3
      . intro m hm1 hm2
        have := hi (m - 64 * k) (by simp only at hm2; omega)
        rw [show 64 * k + (m - 64 * k) = m by omega] at this
        rw [this]
        exact h4 _ (by omega) (by simp only at hm2; omega)
      . rw [h5]
    | inr h =>
      obtain ⟨log, h1, h2, h3⟩ := h
      have hfull : ∀ (m : Nat), 64 * k ≤ m → (64 * (k + 1) ≤ m → w.blkBmp.bit m = true)
          → w.blkBmp.bit m = true := by
        intro m hm hge
        by_cases hlast : 64 * (k + 1) ≤ m
        . exact hge hlast
        . have := hi (m - 64 * k) (by omega)
          rw [show 64 * k + (m - 64 * k) = m by omega] at this
          rw [this]
          exact h1 _ (by omega) (by omega)
      rw [h2]
      cases ih (k + 1) { w with log := log } (by omega) (by omega) with
      | inl h =>
        obtain ⟨i, j, log', g1, g2, g3, g4, g5, g6⟩ := h
        left
        refine ⟨i, j, log', g1, by omega, g3, ?_, g5, g6.trans h3⟩
        intro m hm1 hm2
        exact hfull m hm1 (fun h => g4 m h hm2)
      | inr h =>
        obtain ⟨log', g1, g2, g3⟩ := h
        right
        refine ⟨log', ?_, g2, g3⟩
        intro m hm1 hm2
        exact hfull m hm1 (fun h => g1 m h hm2)

end allocBlock

theorem allocBlock_cases (w : World)
    : (∃ (b : BlockNo) (log : List Event),
          64 * (resBlocks / 64 - 1) ≤ b.toNat ∧ b.toNat < 64 * blkBmpLn
          ∧ w.blkBmp.bit b.toNat = false
          ∧ (∀ (m : Nat), 64 * (resBlocks / 64 - 1) ≤ m → m < b.toNat → w.blkBmp.bit m = true)
          ∧ allocBlock w = (b, { w with blkBmp := w.blkBmp.set b.toNat, log := log })
          ∧ w.Logged log)
      ∨
      (∃ (log : List Event),
          (∀ (m : Nat), 64 * (resBlocks / 64 - 1) ≤ m → m < 64 * blkBmpLn → w.blkBmp.bit m = true)
          ∧ allocBlock w = (-1, { w with log := log })
          ∧ Event.noSpace ∈ log) := by
  cases allocBlock.words_spec (resBlocks / 64 - 1) w (by decide) with
  | inl h =>
    obtain ⟨i, j, log, h1, h2, h3, h4, h5, h6⟩ := h
    have hi := i.isLt
    have hb : (BitVec.ofNat 32 (64 * i + j)).toNat = 64 * i + j := by
      rw [BitVec.toNat_ofNat]
      apply Nat.mod_eq_of_lt
      simp only [blkBmpLn] at hi
      omega
    left
    refine ⟨BitVec.ofNat 32 (64 * i + j), log, ?_⟩
    rw [hb, ← Bitmap.orBit_eq_set _ _ _ h1]
    exact ⟨by omega, by omega, h3, h4, h5, h6⟩
  | inr h => exact Or.inr h

theorem allocBlock_ne_zero (w : World) : (allocBlock w).1 ≠ 0#32 := by
  intro h
  cases allocBlock_cases w with
  | inl hsome =>
    obtain ⟨b, log, h1, -, -, -, h5, -⟩ := hsome
    rw [h5] at h
    simp only at h
    rw [h] at h1
    simp at h1
  | inr hnone =>
    obtain ⟨log, -, h2, -⟩ := hnone
    rw [h2] at h
    simp at h

-- `alloc_block` has nothing to give away
def View.Full (v : View) : Prop :=
  ∀ (m : Nat), 64 * (resBlocks / 64 - 1) ≤ m → m < 64 * blkBmpLn → v.blkBmp.bit m = true

/--
An allocation, as seen by a client. Without a free block the number returned is of no use; with one it is
a block that was not in use.
-/
theorem allocBlock_spec (env : Env) (w : World)
    : ∃ (b : BlockNo) (w' : World), allocBlock w = (b, w') ∧ b ≠ 0#32
        ∧ w'.cacheInfo = w.cacheInfo ∧ w'.objects = w.objects
        ∧ (w.Exhausted → w'.Exhausted)
        ∧ ((w'.Exhausted ∧ (w.view env).Full)
          ∨ (¬ (w.view env).Used b ∧ b.toNat < 64 * blkBmpLn
            ∧ w'.view env = (w.view env).mark b)) := by
  have hne := allocBlock_ne_zero w
  cases allocBlock_cases w with
  | inl h =>
    obtain ⟨b, log, h1, h2, h3, h4, h5, h6⟩ := h
    rw [h5] at hne
    refine ⟨b, _, h5, hne, rfl, rfl, h6.mpr, Or.inr ⟨?_, h2, rfl⟩⟩
    simp [View.Used, World.view, h3]
  | inr h =>
    obtain ⟨log, h1, h2, h3⟩ := h
    rw [h2] at hne
    exact ⟨-1, _, h2, hne, rfl, rfl, fun _ => h3, Or.inl ⟨h3, h1⟩⟩

theorem freeBlock_eq (b : BlockNo) (hb : b.toNat < 64 * blkBmpLn)
    : freeBlock b w
        =
      .ok { w with
        blkBmp := w.blkBmp.clear b.toNat
        log := .unlock .blkBmp :: .lock .blkBmp :: w.log } := by
  have h : b.toNat / 64 < blkBmpLn := Nat.div_lt_of_lt_mul hb
  simp only [freeBlock, h, ↓reduceDIte, World.lock, World.unlock, World.emit, Bitmap.clear]

theorem markObjDirty_eq (o : Slot)
    : markObjDirty o w
        =
      { w with
        objBmp := w.objBmp.set o
        log := .unlock .objBmp :: .lock .objBmp :: w.log } := by
  have h1 : 64 * (dirtyWord o).val + o.val % 64 = o.val := by
    simp only [dirtyWord]
    omega
  simp only [markObjDirty, World.lock, World.unlock, World.emit]
  rw [Bitmap.orBit_eq_set _ _ _ (by omega), h1]

theorem View.used_mark (v : View) (b b' : BlockNo) (hb : b.toNat < 64 * blkBmpLn)
    : (v.mark b).Used b' ↔ (b' = b ∨ v.Used b') := by
  simp only [View.Used, View.mark, Bitmap.bit_set _ _ hb, Bool.or_eq_true, decide_eq_true_eq,
    BitVec.toNat_inj]

end ObjStore
