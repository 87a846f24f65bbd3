import Mathlib.Algebra.GroupWithZero.Nat
import Mathlib.Data.Fin.Basic

/-!
This module contains the cyclic order of the indices below `n`: how far one index comes after another,
and the first index after a given one that has a property.
-/

namespace Cyclic

variable {n : Nat}

def ahead (a b : Fin n) : Nat :=
  if a < b then b - a else b + n - a

def First (p : Fin n → Prop) (a b : Fin n) : Prop :=
  p b ∧ ∀ (c : Fin n), p c → ahead a b ≤ ahead a c

variable {p : Fin n → Prop} {a b c : Fin n}

theorem ahead_inj (h : ahead a b = ahead a c) : b = c := by
  apply Fin.ext
  unfold ahead at h
  split at h
  . split at h
    . next h1 h2 =>
      simp only [Fin.lt_def] at h1 h2
      omega
    . omega
  . split at h
    . omega
    . omega

theorem First.ahead_lt (h : First p a b) (hc : p c) (hne : b ≠ c) : ahead b c < ahead a c := by
  have hle := h.2 c hc
  have hlt : ahead a b < ahead a c := by
    apply Nat.lt_of_le_of_ne hle
    intro heq
    exact hne (ahead_inj heq)
  have hbc : b.val ≠ c.val := fun heq => hne (Fin.ext heq)
  unfold ahead at hlt ⊢
  simp only [Fin.lt_def] at hlt ⊢
  split at hlt
  . split at hlt
    . split <;> omega
    . split <;> omega
  . split at hlt
    . omega
    . split <;> omega

theorem First.of_le [NeZero n] (hb : p b) (hzero : ¬ p 0) (hmin : ∀ (c : Fin n), p c → b ≤ c)
    : First p 0 b := by
  refine ⟨hb, ?_⟩
  intro c hc
  have hpos : ∀ (i : Fin n), p i → (0 : Fin n) < i := by
    intro i hi
    rw [Fin.pos_iff_ne_zero]
    intro heq
    rw [heq] at hi
    exact hzero hi
  have hle := hmin c hc
  have h1 := hpos b hb
  have h2 := hpos c hc
  unfold ahead
  simp only [h1, h2, ↓reduceIte]
  simp only [Fin.le_def] at hle
  omega

theorem First.of_zero [NeZero n] (h : First p 0 b) (hzero : ¬ p 0) (ha : ¬ p a)
    (hside : ¬ ∃ (i j : Fin n), p i ∧ i < a ∧ p j ∧ a < j)
    : First p a b := by
  refine ⟨h.1, ?_⟩
  intro c hc
  have hpos : ∀ (i : Fin n), p i → ahead 0 i = i := by
    intro i hi
    have hlt : (0 : Fin n) < i := by
      rw [Fin.pos_iff_ne_zero]
      intro heq
      rw [heq] at hi
      exact hzero hi
    unfold ahead
    simp only [hlt, ↓reduceIte, Fin.val_zero]
    omega
  have hne : ∀ (i : Fin n), p i → i.val ≠ a.val := by
    intro i hi heq
    rw [Fin.ext heq] at hi
    exact ha hi
  have hle := h.2 c hc
  rw [hpos b h.1, hpos c hc] at hle
  have hbc : ¬ (b < a ∧ a < c) := fun hlt => hside ⟨b, c, h.1, hlt.1, hc, hlt.2⟩
  have hb := hne b h.1
  have hc := hne c hc
  simp only [Fin.lt_def] at hbc
  unfold ahead
  simp only [Fin.lt_def]
  split
  . split <;> omega
  . split <;> omega

end Cyclic
