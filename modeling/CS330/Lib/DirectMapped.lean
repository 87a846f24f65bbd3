import Mathlib.Logic.Function.Basic
import Mathlib.Tactic.Common

/-!
This module contains direct mapped write-back caches: a line may hold only the keys that `idx` sends
to it, the tag `null` marks an empty line, and the contents a client sees are those of the line on a
hit and those of the backing memory on a miss.
-/

namespace DirectMapped

variable {κ ι β : Type} [DecidableEq ι] (idx : κ → ι) (null : κ)

def Tagged (tag : ι → κ) : Prop :=
  ∀ (i : ι), tag i ≠ null → idx (tag i) = i

theorem Tagged.set {idx : κ → ι} {null : κ} {tag : ι → κ} (htag : Tagged idx null tag) (i : ι)
    (k : κ) (hk : k ≠ null → idx k = i)
    : Tagged idx null (Function.update tag i k) := by
  intro i' hi'
  by_cases h : i' = i
  . subst h
    simp only [Function.update_self] at hi' ⊢
    exact hk hi'
  . simp only [Function.update_of_ne h] at hi' ⊢
    exact htag i' hi'

variable [DecidableEq κ]

def look (tag : ι → κ) (line : ι → β) (mem : κ → β) (k : κ) : β :=
  if tag (idx k) = k then line (idx k) else mem k

variable {idx null} {tag : ι → κ} {line : ι → β} {mem : κ → β}

theorem look_evict (htag : Tagged idx null tag) (i : ι) (k : κ) (hk : k ≠ null)
    : look idx (Function.update tag i null) line (Function.update mem (tag i) (line i)) k
        =
      look idx tag line mem k := by
  unfold look
  by_cases hi : idx k = i
  . subst hi
    simp only [Function.update_self, hk.symm, ↓reduceIte]
    by_cases hit : tag (idx k) = k
    . simp [hit]
    . simp [hit, Function.update_of_ne (Ne.symm hit)]
  . have hne : k ≠ tag i := by
      intro h
      subst h
      exact hi (htag i hk)
    simp [Function.update_of_ne hi, Function.update_of_ne hne]

theorem look_fill (k₀ : κ) (hempty : tag (idx k₀) = null) (k : κ) (hk : k ≠ null)
    : look idx (Function.update tag (idx k₀) k₀) (Function.update line (idx k₀) (mem k₀)) mem k
        =
      look idx tag line mem k := by
  unfold look
  by_cases hi : idx k = idx k₀
  . rw [hi]
    simp only [Function.update_self, hempty]
    by_cases h : k₀ = k
    . simp [h, hk.symm]
    . simp [h, hk.symm]
  . simp [Function.update_of_ne hi]

theorem look_store_empty (k₀ : κ) (v : β) (hempty : tag (idx k₀) = null) (k : κ) (hk : k ≠ null)
    : look idx (Function.update tag (idx k₀) k₀) (Function.update line (idx k₀) v) mem k
        =
      if k = k₀ then v else look idx tag line mem k := by
  unfold look
  by_cases hi : idx k = idx k₀
  . rw [hi]
    simp only [Function.update_self, hempty]
    by_cases h : k₀ = k
    . simp [h]
    . simp [h, hk.symm, Ne.symm h]
  . have h : k ≠ k₀ := by
      intro h
      exact hi (by rw [h])
    simp [Function.update_of_ne hi, h]

theorem look_store_hit (k₀ : κ) (v : β) (hhit : tag (idx k₀) = k₀) (k : κ)
    : look idx tag (Function.update line (idx k₀) v) mem k
        =
      if k = k₀ then v else look idx tag line mem k := by
  unfold look
  by_cases h : k = k₀
  . subst h
    simp [hhit]
  . by_cases hi : idx k = idx k₀
    . rw [hi, hhit]
      simp [h, Ne.symm h]
    . simp [Function.update_of_ne hi, h]

-- every copy of `k`, whichever line it is in
def Copies (tag : ι → κ) (line : ι → β) (mem : κ → β) (k : κ) (P : β → Prop) : Prop :=
  P (mem k) ∧ ∀ (i : ι), tag i = k → P (line i)

namespace Copies

variable {k : κ} {P : β → Prop}

theorem evict (h : Copies tag line mem k P) (i : ι) (hk : k ≠ null)
    : Copies (Function.update tag i null) line (Function.update mem (tag i) (line i)) k P := by
  constructor
  . by_cases heq : tag i = k
    . rw [heq, Function.update_self]
      exact h.2 i heq
    . rw [Function.update_of_ne (Ne.symm heq)]
      exact h.1
  . intro j hj
    by_cases hi : j = i
    . subst hi
      rw [Function.update_self] at hj
      exact absurd hj.symm hk
    . rw [Function.update_of_ne hi] at hj
      exact h.2 j hj

omit [DecidableEq κ] in
theorem store (h : Copies tag line mem k P) (i : ι) (k₀ : κ) (v : β) (hv : k₀ = k → P v)
    : Copies (Function.update tag i k₀) (Function.update line i v) mem k P := by
  refine ⟨h.1, ?_⟩
  intro j hj
  by_cases hi : j = i
  . subst hi
    rw [Function.update_self] at hj ⊢
    exact hv hj
  . rw [Function.update_of_ne hi] at hj ⊢
    exact h.2 j hj

end Copies

end DirectMapped
