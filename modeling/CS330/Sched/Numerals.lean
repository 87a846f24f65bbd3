import CS330.Sched.Naming

/-!
This module contains for which numbers `num_to_str` writes the decimal numeral. The digits go through a number that has
them in the opposite order: zeros at the end of the numeral are zeros at the front there, and the number may be too big.
-/

namespace Sched

open numToStr

/-- The call returns, without an overflow on the way, and the buffer holds the numeral. -/
def numToStr.Prints (str : Buf cnameMax) (num : Int) : Prop :=
  ∃ (b : Buf cnameMax), numToStr str num = .ok b ∧ b.StrAt 0 (decimal num.toNat)

-- The digits of the number, from the last to the first, do not spell a number that is too big for an `int`.
def Reversible (num : Nat) : Prop :=
  (Nat.digits 10 num).length < 10 ∨ Nat.digits 10 num < (Nat.digits 10 (2 ^ 31)).reverse

-- numerals of the same length are in the order of the numbers
theorem ofDigits_reverse_lt_iff {b : Nat} (hb : 1 < b) {l m : List Nat} (hlen : l.length = m.length)
    (hl : ∀ (d : Nat), d ∈ l → d < b) (hm : ∀ (d : Nat), d ∈ m → d < b)
    : Nat.ofDigits b l.reverse < Nat.ofDigits b m.reverse ↔ l < m := by
  induction l generalizing m with
  | nil =>
    rw [List.length_nil, eq_comm, List.length_eq_zero_iff] at hlen
    subst hlen
    simp
  | cons d l ih =>
    cases m with
    | nil => cases hlen
    | cons e m =>
      have hlen' : l.length = m.length := Nat.succ.inj hlen
      have hl' := (List.forall_mem_cons.mp hl).2
      have hm' := (List.forall_mem_cons.mp hm).2
      have hlow : Nat.ofDigits b l.reverse < b ^ l.length := by
        rw [← List.length_reverse]
        exact Nat.ofDigits_lt_base_pow_length hb (fun x hx => hl' x (List.mem_reverse.mp hx))
      have hlow' : Nat.ofDigits b m.reverse < b ^ l.length := by
        rw [hlen', ← List.length_reverse]
        exact Nat.ofDigits_lt_base_pow_length hb (fun x hx => hm' x (List.mem_reverse.mp hx))
      rw [Nat.ofDigits_reverse_cons, Nat.ofDigits_reverse_cons, ← hlen', List.cons_lt_cons_iff, ← ih hlen' hl' hm']
      rcases lt_trichotomy d e with hlt | rfl | hgt
      . have hstep : b ^ l.length * (d + 1) ≤ b ^ l.length * e := Nat.mul_le_mul_left _ hlt
        rw [Nat.mul_add, Nat.mul_one] at hstep
        simp only [hlt, true_or, iff_true]
        omega
      . simp only [lt_self_iff_false, false_or, true_and, add_lt_add_iff_right]
      . have hstep : b ^ l.length * (e + 1) ≤ b ^ l.length * d := Nat.mul_le_mul_left _ hgt
        rw [Nat.mul_add, Nat.mul_one] at hstep
        simp only [lt_asymm hgt, ne_of_gt hgt, false_and, or_self, iff_false]
        omega

theorem reversed_lt_iff {num : Nat} (hint : num < 2 ^ 31) : reversed num < 2 ^ 31 ↔ Reversible num := by
  have hdigits : ∀ (n d : Nat), d ∈ Nat.digits 10 n → d < 10 := fun n d hd => Nat.digits_lt_base (by decide) hd
  have hlen := length_digits_lt hint
  unfold Reversible
  by_cases hshort : (Nat.digits 10 num).length < 10
  . have hlt : reversed num < 10 ^ (Nat.digits 10 num).reverse.length :=
      Nat.ofDigits_lt_base_pow_length (by decide) (fun d hd => hdigits num d (List.mem_reverse.mp hd))
    have hle : 10 ^ (Nat.digits 10 num).reverse.length ≤ 10 ^ 9 := by
      apply Nat.pow_le_pow_right (by decide)
      rw [List.length_reverse]
      omega
    simp only [hshort, true_or, iff_true]
    omega
  . have hsame : (Nat.digits 10 num).length = (Nat.digits 10 (2 ^ 31)).reverse.length := by
      have hten : (Nat.digits 10 (2 ^ 31)).reverse.length = 10 := by norm_num
      omega
    have hiff := ofDigits_reverse_lt_iff (by decide) hsame (hdigits num)
      (fun d hd => hdigits (2 ^ 31) d (List.mem_reverse.mp hd))
    rw [List.reverse_reverse, Nat.ofDigits_digits] at hiff
    simp only [hshort, false_or]
    exact hiff

theorem Reversible.of_lt {num : Nat} (h : num < 10 ^ 9) : Reversible num := by
  left
  have hle := (Nat.digits_length_le_iff (b := 10) (k := 9) (by decide) num).mpr h
  omega

-- whatever becomes of it, it is not the numeral
theorem numToStr.not_prints (str : Buf cnameMax) {num : Int} (hlast : num.toNat % 10 = 0) : ¬ Prints str num := by
  rintro ⟨b, hok, hstr⟩
  by_cases hrev : reversed num.toNat < 2 ^ 31
  . obtain ⟨b', hok', hstr'⟩ := numToStr_str num str hrev
    rw [hok] at hok'
    cases hok'
    have hlt := length_written_lt hlast
    rw [hstr'.unique hstr] at hlt
    exact absurd hlt (Nat.lt_irrefl _)
  . rw [numToStr_overflow str hrev] at hok
    cases hok

theorem ofDigits_decimal (n : Nat)
    : Nat.ofDigits 10 ((decimal n).reverse.map (fun c => c.toNat - 48)) = n := by
  unfold decimal
  split
  . next hzero =>
    rw [hzero]
    rfl
  . have hdigit : ∀ (d : Nat), d ∈ Nat.digits 10 n → (digitByte d).toNat - 48 = d := by
      intro d hd
      have hlt := Nat.digits_lt_base (by decide) hd
      rw [digitByte, BitVec.toNat_ofNat]
      omega
    have hmap : (Nat.digits 10 n).map ((fun (c : Byte) => c.toNat - 48) ∘ digitByte) = Nat.digits 10 n :=
      (List.map_congr_left hdigit).trans (List.map_id' _)
    rw [← List.map_reverse, List.reverse_reverse, List.map_map, hmap, Nat.ofDigits_digits]

theorem decimal_inj {m n : Nat} (h : decimal m = decimal n) : m = n := by
  rw [← ofDigits_decimal m, h, ofDigits_decimal]

-- distinct numbers that are written correctly are distinct strings
theorem numToStr.Prints.inj {str str' b b' : Buf cnameMax} {m n : Int} {s : List Byte} (hprints : Prints str m)
    (hprints' : Prints str' n) (hm : 0 ≤ m) (hn : 0 ≤ n) (hok : numToStr str m = .ok b)
    (hok' : numToStr str' n = .ok b') (hs : b.StrAt 0 s) (hs' : b'.StrAt 0 s)
    : m = n := by
  obtain ⟨c, hc, hstr⟩ := hprints
  obtain ⟨c', hc', hstr'⟩ := hprints'
  rw [hok] at hc
  cases hc
  rw [hok'] at hc'
  cases hc'
  have hsame := decimal_inj ((hstr.unique hs).trans (hs'.unique hstr'))
  omega

/--
`num_to_str` writes the numeral of a non-negative `int`, and nothing overflows, exactly if the number does not end in
the digit 0 and is not too big when it is read backwards.
-/
theorem numToStr_prints_iff (str : Buf cnameMax) (num : Int) (hnonneg : 0 ≤ num) (hint : num < 2 ^ 31)
    : Prints str num ↔ num % 10 ≠ 0 ∧ Reversible num.toNat := by
  have hmod : num % 10 ≠ 0 ↔ num.toNat % 10 ≠ 0 := by omega
  rw [hmod, ← reversed_lt_iff (by omega)]
  constructor
  . intro hprints
    refine ⟨fun hlast => not_prints str hlast hprints, ?_⟩
    by_contra hbig
    obtain ⟨b, hok, -⟩ := hprints
    rw [numToStr_overflow str hbig] at hok
    cases hok
  . rintro ⟨hlast, hrev⟩
    obtain ⟨b, hok, hstr⟩ := numToStr_str num str hrev
    rw [written_eq hlast] at hstr
    exact ⟨b, hok, hstr⟩

theorem numToStr_prints_twelve : (0 : Int) ≤ 12 ∧ (12 : Int) < 2 ^ 31 ∧ Prints (Buf.zero cnameMax) 12 := by
  refine ⟨by decide, by decide, ?_⟩
  rw [numToStr_prints_iff _ 12 (by decide) (by decide)]
  exact ⟨by decide, Reversible.of_lt (by decide)⟩

/-- 10 is not written as `"10"`. -/
theorem not_prints_ten : (0 : Int) ≤ 10 ∧ (10 : Int) < 2 ^ 31 ∧ ¬ Prints (Buf.zero cnameMax) 10 :=
  ⟨by decide, by decide, not_prints _ (by decide)⟩

end Sched
