import CS330.Entry.Lemmas
import CS330.Lib.Unmapping
import Mathlib.Algebra.Ring.Int.Defs

/-!
This module contains which memory `SYSCALL_WRITE` reads. The pages of a buffer of up to 1024 bytes are all looked up
before, at most two of them, but the length is cut to 32 bits for that and addresses to 48.
-/

namespace Entry

open PageTable doSyscall

-- the address is one that the processor translates
def State.Readable (s : State) (va : U64) : Prop :=
  Canonical va ∧ walk s.frames va 4 (s.pgd.setWidth 64) ≠ none

/-- What is read is mapped, and a buffer that is not, or one that is too long, is refused. -/
structure WriteSafe (param1 param2 : U64) (s : State) : Prop where
  readable : ∀ (va : U64), va ∈ (write param1 param2 s).reads → s.Readable va
  short : (write param1 param2 s).reads.length ≤ 1024
  refused : (1024 < param2.toNat ∨ ∃ (i : Nat), i < param2.toNat ∧ ¬ s.Readable (param1 + BitVec.ofNat 64 i))
    → write param1 param2 s = ⟨[], some (-1)⟩

-- The entries that lead from a table of this level to the next one hold nothing behind the number of its frame.
def Plain (m : Tables) (va : U64) : Nat → Frame → Prop
  | 0, _ => True
  | 1, _ => True
  | level + 2, f =>
    let e := m f (index va (level + 2))
    e >>> 12 = frame e ∧ Plain m va (level + 1) (e >>> 12)

abbrev State.Plain (s : State) (va : U64) : Prop :=
  Entry.Plain s.frames va 4 (s.pgd.setWidth 64)

-- the pages that are looked up for this length are there
def State.Checked (s : State) (param1 : U64) (length : Int) : Prop :=
  s.Followed param1 ∧ (4096 < (param1 &&& 0xFFF).toNat + length → s.Followed (param1 + 0x1000))

/-- The calls that are let through, but should not be. -/
inductive Unchecked (param1 param2 : U64) (s : State) : Prop where
  -- a byte of a page that is looked up, but that is none for the processor
  | unmapped (i : Nat) (hshort : param2.toNat ≤ 1024) (hchecked : s.Checked param1 param2.toNat)
      (hi : i < param2.toNat)
      (hnot : ¬ Canonical (param1 + BitVec.ofNat 64 i)
        ∨ (¬ s.Plain (param1 + BitVec.ofNat 64 i)
          ∧ walk s.frames (param1 + BitVec.ofNat 64 i) 4 (s.pgd.setWidth 64) = none))
  -- a length that is small or negative in 32 bits
  | long (hlong : 1024 < param2.toNat) (hcut : (param2.setWidth 32).toInt ≤ 1024)
      (hchecked : s.Checked param1 (param2.setWidth 32).toInt)

variable {s : State} {va va' param1 param2 : U64} {length : Int}

namespace doSyscall.write

-- the look-up is the walk then
theorem checkPage_walk {m : Tables} (level : Nat)
    : ∀ (f : Frame), Plain m va level f → (checkPage m va level f = true ↔ walk m va level f ≠ none) := by
  induction level with
  | zero =>
    intro f _
    simp [checkPage, walk]
  | succ level ih =>
    intro f hplain
    rw [checkPage_succ]
    simp only [walk, child]
    cases hpresent : present (m f (index va (level + 1))) with
    | false => simp
    | true =>
      cases level with
      | zero => simp [checkPage, walk]
      | succ level =>
        rw [ih _ hplain.2, hplain.1]
        simp

end doSyscall.write

theorem State.Plain.followed_iff (h : s.Plain va)
    : s.Followed va ↔ walk s.frames va 4 (s.pgd.setWidth 64) ≠ none := by
  rw [← checkPage_iff]
  exact write.checkPage_walk 4 _ h

theorem State.followed_congr (h : va >>> 12 = va' >>> 12) : s.Followed va ↔ s.Followed va' := by
  have hindex : ∀ (level : Nat), index va (level + 1) = index va' (level + 1) :=
    fun level => index_congr (Nat.le_add_left 1 level) h
  unfold State.Followed
  rw [hindex 0, hindex 1, hindex 2, hindex 3]

theorem offset_eq (va : U64) : (va &&& 0xFFF).toNat = va.toNat % 4096 := by
  rw [BitVec.toNat_and, show (0xFFF : U64).toNat = 2 ^ 12 - 1 by decide, Nat.and_two_pow_sub_one_eq_mod]

-- The two pages are all that a buffer of this length is in.
theorem State.Checked.followed {n i : Nat} (h : s.Checked param1 n) (hn : n ≤ 1024) (hi : i < n)
    : s.Followed (param1 + BitVec.ofNat 64 i) := by
  obtain ⟨hfirst, hsecond⟩ := h
  rw [offset_eq] at hsecond
  by_cases hpage : param1.toNat % 4096 + i < 4096
  . have hsame : (param1 + BitVec.ofNat 64 i) >>> 12 = param1 >>> 12 := by
      rw [← BitVec.toNat_inj]
      simp only [BitVec.toNat_ushiftRight, BitVec.toNat_add, BitVec.toNat_ofNat, Nat.shiftRight_eq_div_pow]
      omega
    exact (State.followed_congr hsame).mpr hfirst
  . have hsame : (param1 + BitVec.ofNat 64 i) >>> 12 = (param1 + 0x1000) >>> 12 := by
      rw [← BitVec.toNat_inj]
      simp only [BitVec.toNat_ushiftRight, BitVec.toNat_add, BitVec.toNat_ofNat, toNat_page, Nat.shiftRight_eq_div_pow]
      omega
    exact (State.followed_congr hsame).mpr (hsecond (by omega))

namespace doSyscall.write

theorem check_succ (s : State) (passes : Nat) (temp : U64) (offset : Nat) (length : Int)
    : check s (passes + 1) temp offset length
        =
      if checkPage s.frames temp 4 (s.pgd.setWidth 64) then
        if length - (0x1000 - offset) < -2 ^ 31 then
          none
        else if 0 < length - (0x1000 - offset) then
          check s passes (temp + 0x1000) 0 (length - (0x1000 - offset))
        else
          some true
      else
        some false := rfl

-- what the loop ends with if the length was let through
theorem check_eq_false_iff (hlength : length ≤ 1024)
    : check s (1024 + 1) param1 (param1 &&& 0xFFF).toNat length = some false ↔ ¬ s.Checked param1 length := by
  have hoffset : (param1 &&& 0xFFF).toNat < 4096 := by
    rw [offset_eq]
    omega
  unfold State.Checked
  rw [← checkPage_iff, ← checkPage_iff, check_succ]
  generalize (param1 &&& 0xFFF).toNat = offset at hoffset ⊢
  cases hfirst : checkPage s.frames param1 4 (s.pgd.setWidth 64) with
  | false => simp
  | true =>
    by_cases hmore : 4096 < (offset : Int) + length
    . have hbig : ¬ (length - (0x1000 - offset) < -2 ^ 31) := by omega
      have hpos : 0 < length - (0x1000 - offset) := by omega
      -- the second page is the last
      have hbig' : ¬ (length - (0x1000 - offset) - (0x1000 - (0 : Nat)) < -2 ^ 31) := by omega
      have hend : ¬ (0 < length - (0x1000 - offset) - (0x1000 - (0 : Nat))) := by omega
      rw [if_pos rfl, if_neg hbig, if_pos hpos, check_succ s 1023, if_neg hbig', if_neg hend]
      cases checkPage s.frames (param1 + 0x1000) 4 (s.pgd.setWidth 64) with
      | false => simp [hmore]
      | true => simp
    . have hend : ¬ (0 < length - (0x1000 - offset)) := by omega
      simp only [hmore, hend, ↓reduceIte]
      split <;> simp

theorem mem_output (rest : Nat)
    : ∀ (i : Nat), va ∈ output param1 param2 rest i
      ↔ ∃ (j : Nat), i ≤ j ∧ j < i + rest ∧ j < param2.toNat ∧ va = param1 + BitVec.ofNat 64 j := by
  induction rest with
  | zero =>
    intro i
    rw [output, List.mem_nil_iff, false_iff]
    rintro ⟨j, hle, hlt, _⟩
    omega
  | succ rest ih =>
    intro i
    rw [output]
    split
    . next hi =>
      rw [List.mem_cons, ih]
      constructor
      . rintro (heq | ⟨j, hle, hlt, hj, heq⟩)
        . exact ⟨i, Nat.le_refl _, by omega, hi, heq⟩
        . exact ⟨j, by omega, by omega, hj, heq⟩
      . rintro ⟨j, hle, hlt, hj, heq⟩
        by_cases hij : i = j
        . subst hij
          exact .inl heq
        . exact .inr ⟨j, by omega, by omega, hj, heq⟩
    . next hi =>
      rw [List.mem_nil_iff, false_iff]
      rintro ⟨j, hle, _, hj, _⟩
      omega

theorem length_output (rest : Nat) : ∀ (i : Nat), (output param1 param2 rest i).length ≤ param2.toNat - i := by
  induction rest with
  | zero =>
    intro i
    exact Nat.zero_le _
  | succ rest ih =>
    intro i
    rw [output]
    split
    . have := ih (i + 1)
      rw [List.length_cons]
      omega
    . exact Nat.zero_le _

end doSyscall.write

theorem write_refused (h : 1024 < (param2.setWidth 32).toInt ∨ ¬ s.Checked param1 (param2.setWidth 32).toInt)
    : write param1 param2 s = ⟨[], some (-1)⟩ := by
  unfold write
  simp only
  split
  . rfl
  . next hlength =>
    have hnot := h.resolve_left hlength
    rw [(write.check_eq_false_iff (by omega)).mpr hnot]

theorem write_passed (hlength : (param2.setWidth 32).toInt ≤ 1024)
    (h : s.Checked param1 (param2.setWidth 32).toInt)
    : write param1 param2 s ≠ ⟨[], some (-1)⟩
      ∧ (∀ (va : U64), va ∈ (write param1 param2 s).reads
        → ∃ (j : Nat), j < param2.toNat ∧ va = param1 + BitVec.ofNat 64 j)
      ∧ (write param1 param2 s).reads.length ≤ param2.toNat := by
  unfold write
  simp only
  rw [if_neg (by omega)]
  split
  . simp only [ne_eq, Written.mk.injEq, reduceCtorEq, and_false, not_false_eq_true, List.not_mem_nil, false_implies,
      implies_true, List.length_nil, Nat.zero_le, and_self]
  . next hfalse => exact absurd h ((write.check_eq_false_iff hlength).mp hfalse)
  . refine ⟨?_, ?_, write.length_output _ _⟩
    . intro heq
      rw [Written.mk.injEq] at heq
      replace heq := heq.2
      split at heq
      . next hlt =>
        rw [Option.some.injEq] at heq
        rw [heq] at hlt
        revert hlt
        decide
      . cases heq
    . intro va hva
      rw [write.mem_output] at hva
      obtain ⟨j, _, _, hj, heq⟩ := hva
      exact ⟨j, hj, heq⟩

theorem toInt_setWidth (h : param2.toNat ≤ 1024) : (param2.setWidth 32).toInt = param2.toNat := by
  rw [BitVec.toInt_eq_toNat_cond, BitVec.toNat_setWidth]
  split <;> omega

-- a byte of a page that was looked up
theorem Unchecked.of_followed (hshort : param2.toNat ≤ 1024) (hchecked : s.Checked param1 param2.toNat) {i : Nat}
    (hi : i < param2.toNat) (hnot : ¬ s.Readable (param1 + BitVec.ofNat 64 i))
    : Unchecked param1 param2 s := by
  apply Unchecked.unmapped i hshort hchecked hi
  by_cases hcanonical : Canonical (param1 + BitVec.ofNat 64 i)
  . right
    have hnone : walk s.frames (param1 + BitVec.ofNat 64 i) 4 (s.pgd.setWidth 64) = none := by
      by_contra hsome
      exact hnot ⟨hcanonical, hsome⟩
    refine ⟨?_, hnone⟩
    intro hplain
    exact (hplain.followed_iff.mp (hchecked.followed hshort hi)) hnone
  . exact .inl hcanonical

theorem writeSafe_iff : WriteSafe param1 param2 s ↔ ¬ Unchecked param1 param2 s := by
  constructor
  . intro hsafe hun
    cases hun with
    | unmapped i hshort hchecked hi hnot =>
      rw [← toInt_setWidth hshort] at hchecked
      apply (write_passed (by rw [toInt_setWidth hshort]; omega) hchecked).1
      apply hsafe.refused
      refine .inr ⟨i, hi, ?_⟩
      rintro ⟨hcanonical, hsome⟩
      cases hnot with
      | inl hnot => exact hnot hcanonical
      | inr hnot => exact hsome hnot.2
    | long hlong hcut hchecked =>
      exact (write_passed hcut hchecked).1 (hsafe.refused (.inl hlong))
  . intro hnot
    by_cases hrefused : 1024 < (param2.setWidth 32).toInt ∨ ¬ s.Checked param1 (param2.setWidth 32).toInt
    . have hwrite := write_refused hrefused
      constructor
      . intro va hva
        rw [hwrite] at hva
        cases hva
      . rw [hwrite]
        exact Nat.zero_le _
      . intro _
        exact hwrite
    . rw [not_or, Int.not_lt, Classical.not_not] at hrefused
      obtain ⟨hcut, hchecked⟩ := hrefused
      have hshort : param2.toNat ≤ 1024 := by
        by_contra hlong
        exact hnot (.long (by omega) hcut hchecked)
      have hreadable : ∀ (i : Nat), i < param2.toNat → s.Readable (param1 + BitVec.ofNat 64 i) := by
        intro i hi
        by_contra hbad
        rw [toInt_setWidth hshort] at hchecked
        exact hnot (.of_followed hshort hchecked hi hbad)
      constructor
      . intro va hva
        obtain ⟨j, hj, heq⟩ := (write_passed hcut hchecked).2.1 va hva
        rw [heq]
        exact hreadable j hj
      . exact Nat.le_trans (write_passed hcut hchecked).2.2 hshort
      . rintro (hlong | ⟨i, hi, hbad⟩)
        . omega
        . exact absurd (hreadable i hi) hbad

-- a process with one page of data
def onePage : State :=
  let frames : Tables := fun f i =>
    if f = 1 ∧ i.val = 0 then
      0x2007
    else if f = 2 ∧ i.val = 6 then
      0x3007
    else if f = 3 ∧ i.val = 0 then
      0x4007
    else if f = 4 ∧ i.val = 0 then
      0x6400007
    else
      0
  ⟨fun _ => ⟨0x180000000, 0x7FEFFFFFF, 0x180001000, 0x3⟩, 1, frames, []⟩

-- one byte more than four gigabytes is one byte for the check
theorem not_writeSafe_long : ¬ WriteSafe 0x180000000 0x100000001 onePage := by
  intro hsafe
  have hchecked : onePage.Checked 0x180000000 ((0x100000001#64).setWidth 32).toInt := by
    refine ⟨?_, fun hmore => absurd hmore (by decide)⟩
    unfold State.Followed
    decide
  exact (write_passed (by decide) hchecked).1 (hsafe.refused (.inl (by decide)))

end Entry
