import Mathlib.Algebra.Group.Nat.Defs
import Mathlib.Logic.Function.Basic
import Mathlib.Tactic.Common

/-!
This module contains little endian words and byte buffers of a fixed length, seen as functions from
positions to bytes, with the words and the C strings they hold.
-/

abbrev Byte := BitVec 8

namespace LE

def byte (x : BitVec w) (i : Nat) : Byte :=
  x.extractLsb' (8 * i) 8

def word (w : Nat) (f : Nat → Byte) : Nat → BitVec w
  | 0 => 0#w
  | n + 1 => word w f n ||| ((f n).setWidth w <<< (8 * n))

@[simp]
theorem getLsbD_byte (x : BitVec w) (i k : Nat)
    : (byte x i).getLsbD k = (decide (k < 8) && x.getLsbD (8 * i + k)) := by
  simp [byte]

theorem getLsbD_word (f : Nat → Byte) (n i : Nat) (hi : i < w)
    : (word w f n).getLsbD i = (decide (i < 8 * n) && (f (i / 8)).getLsbD (i % 8)) := by
  induction n with
  | zero => simp [word]
  | succ n ih =>
    simp only [word, BitVec.getLsbD_or, ih, BitVec.getLsbD_shiftLeft, BitVec.getLsbD_setWidth, hi,
      decide_true, Bool.true_and]
    by_cases h1 : i < 8 * n
    . have h2 : i < 8 * (n + 1) := by omega
      simp [h1, h2]
    . by_cases h2 : i < 8 * (n + 1)
      . have h3 : i / 8 = n := by omega
        have h4 : i - 8 * n = i % 8 := by omega
        have h5 : i % 8 < w := by omega
        simp [h1, h2, h3, h4, h5]
      . have h3 : 8 ≤ i - 8 * n := by omega
        simp [h1, h2, BitVec.getLsbD_of_ge _ _ h3]

theorem word_congr (f g : Nat → Byte) (n : Nat) (h : ∀ k < n, f k = g k)
    : word w f n = word w g n := by
  induction n with
  | zero => rfl
  | succ n ih =>
    simp only [word]
    rw [ih (fun k hk => h k (by omega)), h n (by omega)]

theorem word_byte (x : BitVec w) (n : Nat) (hw : w = 8 * n) : word w (byte x) n = x := by
  apply BitVec.eq_of_getLsbD_eq
  intro i hi
  rw [getLsbD_word _ _ _ hi]
  have h1 : i < 8 * n := by omega
  have h2 : i % 8 < 8 := by omega
  have h3 : 8 * (i / 8) + i % 8 = i := by omega
  simp only [getLsbD_byte, h1, h2, h3, decide_true, Bool.true_and]

theorem byte_word (f : Nat → Byte) (n k : Nat) (hw : w = 8 * n) (hk : k < n)
    : byte (word w f n) k = f k := by
  apply BitVec.eq_of_getLsbD_eq
  intro i hi
  rw [getLsbD_byte, getLsbD_word _ _ _ (by omega)]
  have h1 : 8 * k + i < 8 * n := by omega
  have h2 : (8 * k + i) / 8 = k := by omega
  have h3 : (8 * k + i) % 8 = i := by omega
  simp only [hi, h1, h2, h3, decide_true, Bool.true_and]

@[simp]
theorem word_zero (w n : Nat) : word w (fun _ => 0#8) n = 0#w := by
  apply BitVec.eq_of_getLsbD_eq
  intro i hi
  rw [getLsbD_word _ _ _ hi]
  simp

end LE

abbrev Buf (n : Nat) := Fin n → Byte

namespace Buf

def zero (n : Nat) : Buf n := fun _ => 0#8

def get (b : Buf n) (i : Nat) : Byte :=
  if h : i < n then b ⟨i, h⟩ else 0#8

theorem get_lt (b : Buf n) (i : Nat) (h : i < n) : b.get i = b ⟨i, h⟩ := by
  simp [get, h]

@[simp]
theorem get_val (b : Buf n) (i : Fin n) : b.get i = b i := by
  simp [get]

@[simp]
theorem get_zero (i : Nat) : (zero n).get i = 0#8 := by
  simp [get, zero]

def copy (b : Buf n) (pos : Nat) (src : Nat → Byte) (len : Nat) : Buf n :=
  fun i => if pos ≤ i ∧ i < pos + len then src (i - pos) else b i

theorem copy_in (b : Buf n) (pos : Nat) (src : Nat → Byte) (len : Nat) (i : Fin n)
    (h : pos ≤ i ∧ i < pos + len)
    : b.copy pos src len i = src (i - pos) := by
  simp only [copy, h, and_self, ↓reduceIte]

theorem copy_out (b : Buf n) (pos : Nat) (src : Nat → Byte) (len : Nat) (i : Fin n)
    (h : ¬ (pos ≤ i ∧ i < pos + len))
    : b.copy pos src len i = b i := by
  simp only [copy, h, ↓reduceIte]

def word (w m : Nat) (b : Buf n) (j : Nat) : BitVec w :=
  LE.word w (fun k => b.get (m * j + k)) m

def setWord (m : Nat) (b : Buf n) (j : Nat) (x : BitVec w) : Buf n :=
  fun i => if i / m = j then LE.byte x (i % m) else b i

@[simp]
theorem word_zero (j : Nat) : word w m (zero n) j = 0#w := by
  unfold word
  simp only [get_zero]
  exact LE.word_zero w m

theorem word_setWord (b : Buf n) (j j' : Nat) (x : BitVec w) (hw : w = 8 * m)
    (hj : m * j' + m ≤ n)
    : word w m (setWord m b j x) j' = if j' = j then x else word w m b j' := by
  have hbyte : ∀ k < m, (setWord m b j x).get (m * j' + k)
      = if j' = j then LE.byte x k else b.get (m * j' + k) := by
    intro k hk
    have hm : 0 < m := by omega
    have h1 : (m * j' + k) / m = j' := by
      rw [Nat.mul_add_div hm, Nat.div_eq_of_lt hk]
      omega
    have h2 : (m * j' + k) % m = k := by
      rw [Nat.mul_add_mod, Nat.mod_eq_of_lt hk]
    have h3 : m * j' + k < n := by omega
    rw [get_lt _ _ h3, get_lt _ _ h3]
    simp only [setWord, h1, h2]
  unfold word
  rw [LE.word_congr _ _ _ hbyte]
  split
  . exact LE.word_byte x m hw
  . rfl

theorem setWord_word (b : Buf n) (j : Nat) (hw : w = 8 * m) (hm : 0 < m)
    : setWord m b j (word w m b j) = b := by
  funext i
  unfold setWord
  split
  . next h =>
    unfold word
    rw [LE.byte_word _ _ _ hw (Nat.mod_lt _ hm)]
    have : m * j + i % m = i := by
      rw [← h]
      exact Nat.div_add_mod i m
    rw [this, get_val]
  . rfl

def cstr (b : Buf n) : List Byte :=
  (List.ofFn b).takeWhile (fun c => c ≠ 0#8)

theorem getElem?_ofFn (b : Buf n) (k : Nat) (hk : k < n) : (List.ofFn b)[k]? = some (b.get k) := by
  simp [get, hk]

theorem cstr_eq_iff (b : Buf n) (mem : Nat → Byte) (len : Nat) (hlen : len < n)
    (hnul : mem len = 0#8) (hnz : ∀ (k : Nat), k < len → mem k ≠ 0#8)
    : b.cstr = (List.range len).map mem ↔ ∀ (k : Nat), k ≤ len → b.get k = mem k := by
  unfold cstr
  constructor
  . intro h k hk
    have hsplit := List.takeWhile_append_dropWhile (p := fun c => decide (c ≠ 0#8)) (l := List.ofFn b)
    rw [h] at hsplit
    have hget := getElem?_ofFn b k (by omega)
    rw [← hsplit] at hget
    by_cases hlast : k = len
    . -- the first byte that is dropped is the terminator
      subst hlast
      rw [List.getElem?_append_right (by simp)] at hget
      have hne : (List.ofFn b).dropWhile (fun c => decide (c ≠ 0#8)) ≠ [] := by
        intro hnil
        rw [hnil] at hget
        simp at hget
      have hhead := List.head_dropWhile_not (fun c => decide (c ≠ 0#8)) hne
      simp only [List.length_map, List.length_range, Nat.sub_self] at hget
      rw [← List.head?_eq_getElem?, List.head?_eq_some_head hne] at hget
      rw [hnul, ← Option.some.inj hget]
      simpa using hhead
    . rw [List.getElem?_append_left (by simp; omega)] at hget
      have hlt : k < len := by omega
      simp [hlt] at hget
      exact hget.symm
  . intro h
    have hsplit : List.ofFn b
        = (List.range len).map mem ++ 0#8 :: (List.ofFn b).drop (len + 1) := by
      apply List.ext_getElem?
      intro k
      by_cases h1 : k < len
      . rw [getElem?_ofFn b k (by omega), h k (by omega), List.getElem?_append_left (by simpa using h1)]
        simp [h1]
      . rw [List.getElem?_append_right (by simp; omega)]
        by_cases h2 : k = len
        . subst h2
          rw [getElem?_ofFn b k hlen, h k (by omega), hnul]
          simp
        . obtain ⟨d, rfl⟩ : ∃ (d : Nat), k = len + 1 + d := ⟨k - (len + 1), by omega⟩
          have : len + 1 + d - len = d + 1 := by omega
          simp [this]
    rw [hsplit, List.takeWhile_append_of_pos, List.takeWhile_cons_of_neg]
    . simp
    . simp
    . intro c hc
      simp only [List.mem_map, List.mem_range] at hc
      obtain ⟨k, hk, rfl⟩ := hc
      simpa using hnz k hk

end Buf
