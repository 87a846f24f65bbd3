import Mathlib.Data.Finset.Card
import Mathlib.Logic.Function.Basic
import Mathlib.Tactic.Common

/-!
This module contains bitmaps stored as arrays of 64-bit words.
-/

abbrev Bitmap (n : Nat) := Fin n → BitVec 64

namespace Bitmap

def bit (m : Bitmap n) (k : Nat) : Bool :=
  if h : k / 64 < n then (m ⟨k / 64, h⟩).getLsbD (k % 64) else false

def zero (n : Nat) : Bitmap n := fun _ => 0#64

-- `m[i] |= 1 << j`
def orBit (m : Bitmap n) (i : Fin n) (j : Nat) : Bitmap n :=
  Function.update m i (m i ||| (1#64 <<< j))

-- `m[i] &= ~(1 << j)`
def andNotBit (m : Bitmap n) (i : Fin n) (j : Nat) : Bitmap n :=
  Function.update m i (m i &&& ~~~(1#64 <<< j))

def set (m : Bitmap n) (k : Nat) : Bitmap n :=
  if h : k / 64 < n then orBit m ⟨k / 64, h⟩ (k % 64) else m

def clear (m : Bitmap n) (k : Nat) : Bitmap n :=
  if h : k / 64 < n then andNotBit m ⟨k / 64, h⟩ (k % 64) else m

theorem bit_lt (m : Bitmap n) (k : Nat) (h : bit m k = true) : k < 64 * n := by
  unfold bit at h
  split at h
  . omega
  . simp at h

@[simp]
theorem bit_zero (k : Nat) : bit (zero n) k = false := by
  simp [bit, zero]

theorem bit_word (m : Bitmap n) (i : Fin n) (j : Nat) (hj : j < 64)
    : bit m (64 * i + j) = (m i).getLsbD j := by
  have h1 : (64 * i.val + j) / 64 = i := by omega
  have h2 : (64 * i.val + j) % 64 = j := by omega
  simp [bit, h1, h2]

-- How a bit is tested in C.
theorem and_one_eq_zero (x : BitVec 64) (j : Nat)
    : (x >>> j) &&& 1#64 = 0#64 ↔ x.getLsbD j = false := by
  constructor
  . intro h
    have := congrArg (fun x => BitVec.getLsbD x 0) h
    simpa using this
  . intro h
    apply BitVec.eq_of_getLsbD_eq
    intro m hm
    by_cases hm0 : m = 0
    . subst hm0
      simpa using h
    . simp [BitVec.getLsbD_one, hm0]

theorem getLsbD_one_shiftLeft (j k : Nat) (hk : k < 64)
    : (1#64 <<< j).getLsbD k = decide (k = j) := by
  simp only [BitVec.getLsbD_shiftLeft, hk, decide_true, Bool.true_and, BitVec.getLsbD_one]
  by_cases h : k = j
  . simp [h]
  . by_cases h' : k < j
    . simp [h', h]
    . have : ¬ k - j = 0 := by omega
      simp [this, h]

theorem bit_orBit (m : Bitmap n) (i : Fin n) (j : Nat) (hj : j < 64) (k : Nat)
    : bit (orBit m i j) k = (decide (k = 64 * i + j) || bit m k) := by
  unfold bit
  split
  . next h =>
    by_cases hi : k / 64 = i
    . have hi' : (⟨k / 64, h⟩ : Fin n) = i := Fin.ext hi
      rw [hi']
      simp only [orBit, Function.update_self, BitVec.getLsbD_or]
      rw [getLsbD_one_shiftLeft _ _ (by omega), Bool.or_comm]
      congr 1
      apply decide_eq_decide.mpr
      omega
    . have hi' : (⟨k / 64, h⟩ : Fin n) ≠ i := by
        intro heq
        exact hi (congrArg Fin.val heq)
      have hk : ¬ k = 64 * i + j := by omega
      simp [orBit, Function.update_of_ne hi', hk]
  . next h =>
    have hk : ¬ k = 64 * i + j := by
      have := i.isLt
      omega
    simp [hk]

theorem bit_andNotBit (m : Bitmap n) (i : Fin n) (j : Nat) (hj : j < 64) (k : Nat)
    : bit (andNotBit m i j) k = (!decide (k = 64 * i + j) && bit m k) := by
  unfold bit
  split
  . next h =>
    by_cases hi : k / 64 = i
    . have hi' : (⟨k / 64, h⟩ : Fin n) = i := Fin.ext hi
      have hlt : k % 64 < 64 := by omega
      rw [hi']
      simp only [andNotBit, Function.update_self, BitVec.getLsbD_and, BitVec.getLsbD_not, hlt,
        decide_true, Bool.true_and]
      rw [getLsbD_one_shiftLeft _ _ hlt, Bool.and_comm]
      congr 2
      apply decide_eq_decide.mpr
      omega
    . have hi' : (⟨k / 64, h⟩ : Fin n) ≠ i := by
        intro heq
        exact hi (congrArg Fin.val heq)
      have hk : ¬ k = 64 * i + j := by omega
      simp [andNotBit, Function.update_of_ne hi', hk]
  . simp

theorem bit_set (m : Bitmap n) (k : Nat) (hk : k < 64 * n) (l : Nat)
    : bit (set m k) l = (decide (l = k) || bit m l) := by
  have h : k / 64 < n := by omega
  simp only [set, h, ↓reduceDIte]
  rw [bit_orBit _ _ _ (by omega)]
  congr 2
  apply propext
  simp only
  omega

theorem bit_clear (m : Bitmap n) (k l : Nat)
    : bit (clear m k) l = (!decide (l = k) && bit m l) := by
  unfold clear
  split
  . next h =>
    rw [bit_andNotBit _ _ _ (by omega)]
    congr 3
    apply propext
    simp only
    omega
  . next h =>
    by_cases hl : l = k
    . subst hl
      simp [bit, h]
    . simp [hl]

theorem orBit_eq_set (m : Bitmap n) (i : Fin n) (j : Nat) (hj : j < 64)
    : orBit m i j = set m (64 * i + j) := by
  have h1 : (64 * i.val + j) / 64 = i := by omega
  have h2 : (64 * i.val + j) % 64 = j := by omega
  simp [set, h1, h2]

theorem ext_bit {m m' : Bitmap n} (h : ∀ k, bit m k = bit m' k) : m = m' := by
  funext i
  apply BitVec.eq_of_getLsbD_eq
  intro j hj
  rw [← bit_word m i j hj, ← bit_word m' i j hj]
  exact h _

-- the bits that are clear
def free (m : Bitmap n) : Nat :=
  ((Finset.range (64 * n)).filter (fun k => bit m k = false)).card

theorem free_set (m : Bitmap n) (k : Nat) (hk : k < 64 * n) (hclear : bit m k = false)
    : free (set m k) + 1 = free m := by
  have herase : (Finset.range (64 * n)).filter (fun l => bit (set m k) l = false)
      = ((Finset.range (64 * n)).filter (fun l => bit m l = false)).erase k := by
    ext l
    simp only [Finset.mem_filter, Finset.mem_range, Finset.mem_erase, bit_set m k hk, Bool.or_eq_false_iff,
      decide_eq_false_iff_not]
    tauto
  have hmem : k ∈ (Finset.range (64 * n)).filter (fun l => bit m l = false) :=
    Finset.mem_filter.mpr ⟨Finset.mem_range.mpr hk, hclear⟩
  unfold free
  rw [herase, Finset.card_erase_add_one hmem]

theorem free_eq_zero (m : Bitmap n) (h : ∀ (k : Nat), k < 64 * n → bit m k = true) : free m = 0 := by
  unfold free
  rw [Finset.card_eq_zero, Finset.filter_eq_empty_iff]
  intro k hk
  rw [h k (Finset.mem_range.mp hk)]
  decide

end Bitmap
