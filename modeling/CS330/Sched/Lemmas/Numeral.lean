import CS330.Lib.Strings
import CS330.Sched.Impl.Name
import Mathlib.Data.Nat.Digits.Lemmas

/-!
This module contains what `num_to_str` writes: the decimal numeral of the number that has the same digits in the
opposite order, read backwards, so that zeros at the end are lost.
-/

namespace Sched

def digitByte (d : Nat) : Byte :=
  BitVec.ofNat 8 (48 + d)

-- the numeral of `n`, the most significant digit first
def decimal (n : Nat) : List Byte :=
  if n = 0 then [48#8] else (Nat.digits 10 n).reverse.map digitByte

namespace numToStr

def reversed (num : Nat) : Nat :=
  Nat.ofDigits 10 (Nat.digits 10 num).reverse

-- what is left of the numeral
def written (num : Nat) : List Byte :=
  (Nat.digits 10 (reversed num)).map digitByte

-- both loops have ended when there are no digits left
theorem le_foldl (l : List Nat) (rev : Nat) : rev ≤ l.foldl (fun r d => r * 10 + d) rev := by
  induction l generalizing rev with
  | nil => exact Nat.le_refl _
  | cons d l ih =>
    have := ih (rev * 10 + d)
    rw [List.foldl_cons]
    omega

theorem reverse_eq (fuel num rev : Nat) (hfuel : num ≤ fuel) (hrev : rev < 2 ^ 31)
    : reverse fuel num rev
        =
      if (Nat.digits 10 num).foldl (fun r d => r * 10 + d) rev < 2 ^ 31 then
        .ok ((Nat.digits 10 num).foldl (fun r d => r * 10 + d) rev)
      else
        .error .overflow := by
  induction fuel generalizing num rev with
  | zero =>
    have hzero : num = 0 := by omega
    subst hzero
    rw [Nat.digits_zero, List.foldl_nil, if_pos hrev, reverse]
  | succ fuel ih =>
    rw [reverse]
    by_cases hpos : 0 < num
    . rw [if_pos hpos, Nat.digits_def' (by omega) hpos, List.foldl_cons]
      by_cases hsmall : rev * 10 + num % 10 < 2 ^ 31
      . rw [if_pos hsmall]
        exact ih _ _ (by omega) hsmall
      . have hle := le_foldl (Nat.digits 10 (num / 10)) (rev * 10 + num % 10)
        rw [if_neg hsmall, if_neg (by omega)]
    . have hzero : num = 0 := by omega
      subst hzero
      rw [if_neg hpos, Nat.digits_zero, List.foldl_nil, if_pos hrev]

theorem foldl_eq_reversed (num : Nat)
    : (Nat.digits 10 num).foldl (fun r d => r * 10 + d) 0 = reversed num := by
  rw [reversed, Nat.ofDigits_eq_foldr, List.foldr_reverse]
  congr 1
  funext r d
  simp only [Nat.cast_id]
  omega

theorem digitByte_ne_zero {d : Nat} (hd : d < 10) : digitByte d ≠ 0#8 := by
  intro h
  have := congrArg BitVec.toNat h
  simp only [digitByte, BitVec.toNat_ofNat] at this
  omega

theorem poke_eq {b : Buf cnameMax} {i : Nat} (hi : i < cnameMax) (v : Byte)
    : poke b i v = .ok (Function.update b ⟨i, hi⟩ v) := by
  rw [poke, dif_pos hi]

theorem poke_nul {i : Nat} (hi : i < cnameMax) (str : Buf cnameMax)
    : ∃ (b : Buf cnameMax), poke str i 0#8 = .ok b ∧ b.StrAt i [] ∧ ∀ (k : Nat), k < i → b.get k = str.get k := by
  refine ⟨_, poke_eq hi _, ⟨hi, nofun, ?_, nofun⟩, ?_⟩
  . rw [List.length_nil, Nat.add_zero, Buf.get_update, if_pos rfl]
  . intro k hk
    rw [Buf.get_update, if_neg (by omega)]

-- The digits go behind the first `i` bytes, which stay as they are.
theorem digits_str (fuel rev i : Nat) (str : Buf cnameMax) (hfuel : rev ≤ fuel)
    (hroom : i + (Nat.digits 10 rev).length < cnameMax)
    : ∃ (b : Buf cnameMax), digits fuel rev i str = .ok b ∧ b.StrAt i ((Nat.digits 10 rev).map digitByte)
        ∧ ∀ (k : Nat), k < i → b.get k = str.get k := by
  induction fuel generalizing rev i str with
  | zero =>
    have hzero : rev = 0 := by omega
    subst hzero
    rw [Nat.digits_zero] at hroom ⊢
    exact poke_nul hroom str
  | succ fuel ih =>
    by_cases hpos : 0 < rev
    . rw [Nat.digits_def' (by omega) hpos, List.length_cons] at hroom
      obtain ⟨b, hok, hstr, hsame⟩ := ih (rev / 10) (i + 1)
        (Function.update str ⟨i, by omega⟩ (digitByte (rev % 10))) (by omega) (by omega)
      refine ⟨b, ?_, ?_, ?_⟩
      . rw [digits, if_pos hpos, poke_eq (by omega)]
        exact hok
      . rw [Nat.digits_def' (by omega) hpos, List.map_cons, ← List.singleton_append, Buf.StrAt.append_iff]
        refine ⟨?_, ?_, hstr⟩
        . intro k hk
          have hzero : k = 0 := by simpa using hk
          subst hzero
          rw [Nat.add_zero, hsame i (by omega), Buf.get_update, if_pos rfl]
          rfl
        . intro c hc
          rw [List.mem_singleton.mp hc]
          exact digitByte_ne_zero (Nat.mod_lt _ (by omega))
      . intro k hk
        rw [hsame k (by omega), Buf.get_update, if_neg (by omega)]
    . have hzero : rev = 0 := by omega
      subst hzero
      rw [digits, if_neg hpos]
      rw [Nat.digits_zero] at hroom ⊢
      exact poke_nul hroom str

theorem length_digits_lt {n : Nat} (hn : n < 2 ^ 31) : (Nat.digits 10 n).length ≤ 10 := by
  rw [Nat.digits_length_le_iff (by omega)]
  omega

end numToStr

open numToStr

theorem numToStr_str (num : Int) (str : Buf cnameMax) (hrev : reversed num.toNat < 2 ^ 31)
    : ∃ (b : Buf cnameMax), numToStr str num = .ok b ∧ b.StrAt 0 (written num.toNat) := by
  have hlen := length_digits_lt hrev
  have hroom : 0 + (Nat.digits 10 (reversed num.toNat)).length < cnameMax := by
    unfold cnameMax
    omega
  obtain ⟨b, hok, hstr, -⟩ := digits_str _ _ 0 str (Nat.le_refl _) hroom
  refine ⟨b, ?_, hstr⟩
  rw [numToStr, reverse_eq _ _ _ (Nat.le_refl _) (by omega), foldl_eq_reversed, if_pos hrev]
  exact hok

theorem numToStr_overflow {num : Int} (str : Buf cnameMax) (hrev : ¬ reversed num.toNat < 2 ^ 31)
    : numToStr str num = .error .overflow := by
  rw [numToStr, reverse_eq _ _ _ (Nat.le_refl _) (by omega), foldl_eq_reversed, if_neg hrev]
  rfl

namespace numToStr

theorem written_eq {num : Nat} (hlast : num % 10 ≠ 0) : written num = decimal num := by
  have hne : num ≠ 0 := by
    intro h
    rw [h] at hlast
    exact hlast rfl
  rw [written, decimal, if_neg hne, reversed, Nat.digits_ofDigits 10 (by omega)]
  . intro d hd
    exact Nat.digits_lt_base (by omega) (List.mem_reverse.mp hd)
  . intro hnil
    rw [List.getLast_reverse]
    have hdef := Nat.digits_def' (b := 10) (by omega) (Nat.pos_of_ne_zero hne)
    simp only [hdef, List.head_cons]
    exact hlast

-- a zero at the end is lost
theorem length_written_lt {num : Nat} (hlast : num % 10 = 0) : (written num).length < (decimal num).length := by
  by_cases hne : num = 0
  . subst hne
    simp [written, reversed, decimal]
  . have hdef := Nat.digits_def' (b := 10) (by omega) (Nat.pos_of_ne_zero hne)
    rw [hlast] at hdef
    have hlt : reversed num < 10 ^ (Nat.digits 10 (num / 10)).reverse.length := by
      rw [reversed, hdef, Nat.ofDigits_reverse_zero_cons]
      apply Nat.ofDigits_lt_base_pow_length (by omega)
      intro d hd
      exact Nat.digits_lt_base (by omega) (List.mem_reverse.mp hd)
    rw [List.length_reverse] at hlt
    rw [written, decimal, if_neg hne, List.length_map, List.length_map, List.length_reverse, hdef, List.length_cons]
    have hle := (Nat.digits_length_le_iff (by omega) _).mpr hlt
    omega

theorem reversed_ne_zero {num : Nat} (hne : num ≠ 0) : reversed num ≠ 0 := by
  have hnil := (Nat.digits_ne_nil_iff_ne_zero (b := 10)).mpr hne
  have hlead := Nat.getLast_digit_ne_zero 10 hne
  rw [← foldl_eq_reversed, ← List.dropLast_append_getLast hnil, List.foldl_append]
  simp only [List.foldl_cons, List.foldl_nil]
  omega

theorem written_ne_nil {num : Nat} (hne : num ≠ 0) : written num ≠ [] := by
  intro hnil
  rw [written, List.map_eq_nil_iff] at hnil
  exact Nat.digits_ne_nil_iff_ne_zero.mpr (reversed_ne_zero hne) hnil

theorem written_zero : written 0 = [] := by
  simp [written, reversed]

end numToStr

theorem length_decimal {n : Nat} (hn : n ≠ 0) : (decimal n).length = (Nat.digits 10 n).length := by
  rw [decimal, if_neg hn, List.length_map, List.length_reverse]

theorem two_le_length_decimal {n : Nat} (hn : 2 ^ 31 ≤ n) : 2 ≤ (decimal n).length := by
  rw [length_decimal (by omega)]
  apply (Nat.lt_digits_length_iff (by omega) n).mpr
  omega

end Sched
