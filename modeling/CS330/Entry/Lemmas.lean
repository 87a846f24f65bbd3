import CS330.Entry.Impl

/-!
This module contains what the loops of `SYSCALL_SHRINK` amount to: the pages that are visited are taken out of the page
tables one after the other. The other loops over the levels take the way that the processor takes.
-/

namespace Entry

open PageTable doSyscall

theorem tableIndex_eq (va : U64) (level : Nat) : tableIndex va level = index va level := by
  have hcomm : level * 9 + 3 = 3 + 9 * level := by omega
  apply Fin.ext
  simp only [tableIndex, index, hcomm, BitVec.toNat_and, BitVec.toNat_ofNat]
  rw [show 0x1FF % 2 ^ 64 = 2 ^ 9 - 1 by decide, Nat.and_two_pow_sub_one_eq_mod]

-- The entries for `va` are present at all levels, if everything from bit 12 on is taken for the number of a frame.
def State.Followed (s : State) (va : U64) : Prop :=
  let e₄ := s.frames (s.pgd.setWidth 64) (index va 4)
  let e₃ := s.frames (e₄ >>> 12) (index va 3)
  let e₂ := s.frames (e₃ >>> 12) (index va 2)
  let e₁ := s.frames (e₂ >>> 12) (index va 1)
  present e₄ = true ∧ present e₃ = true ∧ present e₂ = true ∧ present e₁ = true

theorem checkPage_succ (frames : Tables) (va : U64) (level : Nat) (table : Frame)
    : write.checkPage frames va (level + 1) table = true
        ↔ present (frames table (index va (level + 1))) = true
          ∧ write.checkPage frames va level (frames table (index va (level + 1)) >>> 12) = true := by
  simp only [write.checkPage, tableIndex_eq, and_one_iff]
  cases present (frames table (index va (level + 1))) with
  | true => simp
  | false => simp

theorem checkPage_iff (s : State) (va : U64)
    : write.checkPage s.frames va 4 (s.pgd.setWidth 64) = true ↔ s.Followed va := by
  rw [checkPage_succ, checkPage_succ, checkPage_succ, checkPage_succ]
  simp only [write.checkPage, and_true]
  rfl

theorem toNat_shiftLeft_twelve (n : U64) : (n <<< 12).toNat = 4096 * (n.toNat % 2 ^ 52) := by
  rw [BitVec.toNat_shiftLeft, Nat.shiftLeft_eq]
  omega

theorem unmap_mms (pageAddr : U64) (level : Nat) (table : Frame) (s : State)
    : (shrink.unmap pageAddr level table s).mms = s.mms := by
  induction level generalizing table with
  | zero => rfl
  | succ level ih =>
    simp only [shrink.unmap]
    split
    . rfl
    . split
      . exact ih _
      . rfl

-- the page addresses that the loop goes through when it is `k` pages above its end
def visited (pageAddr : U64) : Nat → List U64
  | 0 => [pageAddr]
  | k + 1 => pageAddr :: visited (pageAddr - 0x1000) k

def unmapAll (pages : List U64) (s : State) : State :=
  pages.foldl (fun s pageAddr => shrink.unmap pageAddr 4 (s.pgd.setWidth 64) s) s

theorem toNat_page : (0x1000 : U64).toNat = 4096 := rfl

theorem mem_visited (k : Nat)
    : ∀ (pageAddr : U64), 4096 * k ≤ pageAddr.toNat
      → ∀ (a : U64), a ∈ visited pageAddr k ↔ ∃ (j : Nat), j ≤ k ∧ a.toNat + 4096 * j = pageAddr.toNat := by
  induction k with
  | zero =>
    intro pageAddr _ a
    rw [visited, List.mem_singleton, ← BitVec.toNat_inj]
    constructor
    . intro heq
      exact ⟨0, by omega, by omega⟩
    . rintro ⟨j, hj, heq⟩
      omega
  | succ k ih =>
    intro pageAddr hle a
    have hnext : (pageAddr - 0x1000).toNat = pageAddr.toNat - 4096 := by
      rw [BitVec.toNat_sub, toNat_page]
      omega
    rw [visited, List.mem_cons, ih _ (by omega), hnext, ← BitVec.toNat_inj]
    constructor
    . rintro (heq | ⟨j, hj, heq⟩)
      . exact ⟨0, by omega, by omega⟩
      . exact ⟨j + 1, by omega, by omega⟩
    . rintro ⟨j, hj, heq⟩
      by_cases hzero : j = 0
      . left
        omega
      . exact .inr ⟨j - 1, by omega, by omega⟩

theorem unmapAll_mms (pages : List U64) (s : State) : (unmapAll pages s).mms = s.mms := by
  unfold unmapAll
  induction pages generalizing s with
  | nil => rfl
  | cons a pages ih => rw [List.foldl_cons, ih, unmap_mms]

-- The loop takes one pass for each page and one more. The first page is at least one page above 0.
theorem loop_eq (newNext : U64) (hnew : 4096 ≤ newNext.toNat) (k : Nat)
    : ∀ (passes : Nat) (pageAddr : U64) (s : State), k + 2 ≤ passes → pageAddr.toNat = newNext.toNat + 4096 * k
      → shrink.loop newNext passes pageAddr s = some (unmapAll (visited pageAddr k) s) := by
  induction k with
  | zero =>
    intro passes pageAddr s hpasses haddr
    obtain ⟨rest, hrest⟩ : ∃ (rest : Nat), passes = rest + 2 := ⟨passes - 2, by omega⟩
    subst hrest
    have hle : newNext ≤ pageAddr := by
      rw [BitVec.le_def]
      omega
    have hgt : ¬ newNext ≤ pageAddr - 0x1000 := by
      rw [BitVec.le_def, BitVec.toNat_sub, toNat_page]
      omega
    simp only [shrink.loop, hle, hgt, ↓reduceIte]
    rfl
  | succ k ih =>
    intro passes pageAddr s hpasses haddr
    obtain ⟨rest, hrest⟩ : ∃ (rest : Nat), passes = rest + 1 := ⟨passes - 1, by omega⟩
    subst hrest
    have hle : newNext ≤ pageAddr := by
      rw [BitVec.le_def]
      omega
    have hnext : (pageAddr - 0x1000).toNat = newNext.toNat + 4096 * k := by
      rw [BitVec.toNat_sub, toNat_page]
      omega
    simp only [shrink.loop, hle, ↓reduceIte]
    exact ih rest (pageAddr - 0x1000) _ (by omega) hnext

-- with 0 for its end the loop does not end
theorem loop_zero (passes : Nat) (pageAddr : U64) (s : State) : shrink.loop 0 passes pageAddr s = none := by
  induction passes generalizing pageAddr s with
  | zero => rfl
  | succ passes ih =>
    have hle : (0 : U64) ≤ pageAddr := by
      rw [BitVec.le_def]
      exact Nat.zero_le _
    simp only [shrink.loop, hle, ↓reduceIte]
    exact ih _ _

end Entry
