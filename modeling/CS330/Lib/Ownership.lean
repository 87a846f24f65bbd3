import Mathlib.Logic.Function.Basic
import Mathlib.Tactic.Common

/-!
This module contains the ownership discipline of an allocator: resources are handed out to places, a
place that holds `null` owns nothing, some resources are reserved and never handed out.
-/

/--
Every place that does not hold `null` owns the resource it holds, alone; what is in use is exactly
what is reserved or owned.
-/
structure Owned {ρ β : Type} (null : β) (reserved used : β → Prop) (ptr : ρ → β) : Prop where
  null_reserved : reserved null
  reserved_used : ∀ (b : β), reserved b → used b
  inj : ∀ (r r' : ρ), ptr r ≠ null → ptr r = ptr r' → r = r'
  ptr_used : ∀ (r : ρ), ptr r ≠ null → used (ptr r)
  ptr_not_reserved : ∀ (r : ρ), ptr r ≠ null → ¬ reserved (ptr r)
  used_owned : ∀ (b : β), used b → ¬ reserved b → ∃ (r : ρ), ptr r = b

/-- As `Owned`, but there may be leaks: what is in use and not reserved need not be held by any place. -/
structure Backed {ρ β : Type} (null : β) (reserved used : β → Prop) (ptr : ρ → β) : Prop where
  null_reserved : reserved null
  reserved_used : ∀ (b : β), reserved b → used b
  inj : ∀ (r r' : ρ), ptr r ≠ null → ptr r = ptr r' → r = r'
  ptr_used : ∀ (r : ρ), ptr r ≠ null → used (ptr r)
  ptr_not_reserved : ∀ (r : ρ), ptr r ≠ null → ¬ reserved (ptr r)

namespace Backed

variable {ρ β : Type} {null : β} {reserved used used' : β → Prop} {ptr ptr' : ρ → β}

-- what is not in use is held by no place, the empty ones included
theorem ptr_ne (h : Backed null reserved used ptr) {b : β} (hb : ¬ used b) (r : ρ) : ptr r ≠ b := by
  intro heq
  by_cases hnull : ptr r = null
  . apply hb
    rw [← heq, hnull]
    exact h.reserved_used null h.null_reserved
  . exact hb (heq ▸ h.ptr_used r hnull)

theorem acquire [DecidableEq ρ] (h : Backed null reserved used ptr) (r : ρ) (b : β)
    (hr : ptr r = null) (hb : ¬ used b) (hused : ∀ (x : β), x = b ∨ used x → used' x)
    : Backed null reserved used' (Function.update ptr r b) where
  null_reserved := h.null_reserved
  reserved_used := fun x hx => hused x (Or.inr (h.reserved_used x hx))
  inj := by
    -- two places can only clash at `b`, and no old place holds `b`
    intro r₁ r₂ hne heq
    by_cases h1 : r₁ = r
    . by_cases h2 : r₂ = r
      . rw [h1, h2]
      . rw [h1, Function.update_self, Function.update_of_ne h2] at heq
        exact absurd heq.symm (h.ptr_ne hb r₂)
    . rw [Function.update_of_ne h1] at hne heq
      by_cases h2 : r₂ = r
      . rw [h2, Function.update_self] at heq
        exact absurd heq (h.ptr_ne hb r₁)
      . rw [Function.update_of_ne h2] at heq
        exact h.inj r₁ r₂ hne heq
  ptr_used := by
    intro r' hne
    apply hused
    by_cases h1 : r' = r
    . subst h1
      exact Or.inl (Function.update_self _ _ _)
    . rw [Function.update_of_ne h1] at hne ⊢
      exact Or.inr (h.ptr_used r' hne)
  ptr_not_reserved := by
    intro r' hne
    by_cases h1 : r' = r
    . subst h1
      rw [Function.update_self]
      exact fun hres => hb (h.reserved_used b hres)
    . rw [Function.update_of_ne h1] at hne ⊢
      exact h.ptr_not_reserved r' hne

theorem shrink (h : Backed null reserved used ptr) (hptr : ∀ (r : ρ), ptr' r = null ∨ ptr' r = ptr r)
    (hres : ∀ (b : β), reserved b → used' b) (hused : ∀ (r : ρ), ptr' r ≠ null → used' (ptr' r))
    : Backed null reserved used' ptr' where
  null_reserved := h.null_reserved
  reserved_used := hres
  inj := by
    intro r₁ r₂ hne heq
    have h1 := (hptr r₁).resolve_left hne
    have h2 := (hptr r₂).resolve_left (heq ▸ hne)
    exact h.inj r₁ r₂ (h1 ▸ hne) (by rw [← h1, heq, h2])
  ptr_used := hused
  ptr_not_reserved := by
    intro r hne
    have h1 := (hptr r).resolve_left hne
    rw [h1] at hne ⊢
    exact h.ptr_not_reserved r hne

end Backed

namespace Owned

variable {ρ β : Type} {null : β} {reserved used used' : β → Prop} {ptr ptr' : ρ → β}

theorem used_iff (h : Owned null reserved used ptr) (b : β)
    : used b ↔ (reserved b ∨ ∃! (r : ρ), ptr r = b) := by
  constructor
  . intro hb
    by_cases hr : reserved b
    . exact Or.inl hr
    . right
      obtain ⟨r, hptr⟩ := h.used_owned b hb hr
      refine ⟨r, hptr, ?_⟩
      intro r' hptr'
      have hne : ptr r' ≠ null := by
        intro hnull
        apply hr
        rw [← hptr', hnull]
        exact h.null_reserved
      exact h.inj r' r hne (by rw [hptr, hptr'])
  . intro hb
    cases hb with
    | inl hr => exact h.reserved_used b hr
    | inr hex =>
      obtain ⟨r, hptr, -⟩ := hex
      by_cases hnull : ptr r = null
      . rw [← hptr, hnull]
        exact h.reserved_used null h.null_reserved
      . rw [← hptr]
        exact h.ptr_used r hnull

theorem congr (h : Owned null reserved used ptr) (hused : ∀ b, used' b ↔ used b)
    (hptr : ∀ r, ptr' r = ptr r)
    : Owned null reserved used' ptr' := by
  have h1 : used' = used := funext fun b => propext (hused b)
  have h2 : ptr' = ptr := funext hptr
  rw [h1, h2]
  exact h

theorem backed (h : Owned null reserved used ptr) : Backed null reserved used ptr :=
  ⟨h.null_reserved, h.reserved_used, h.inj, h.ptr_used, h.ptr_not_reserved⟩

theorem of_backed (h : Backed null reserved used ptr)
    (hown : ∀ (b : β), used b → ¬ reserved b → ∃ (r : ρ), ptr r = b)
    : Owned null reserved used ptr :=
  ⟨h.null_reserved, h.reserved_used, h.inj, h.ptr_used, h.ptr_not_reserved, hown⟩

theorem acquire [DecidableEq ρ] (h : Owned null reserved used ptr) (r : ρ) (b : β)
    (hr : ptr r = null) (hb : ¬ used b)
    : Owned null reserved (fun x => x = b ∨ used x) (Function.update ptr r b) := by
  apply of_backed (h.backed.acquire r b hr hb (fun _ hx => hx))
  intro x hx hres
  cases hx with
  | inl heq => exact ⟨r, by simp [heq]⟩
  | inr hused =>
    obtain ⟨r', hptr⟩ := h.used_owned x hused hres
    refine ⟨r', ?_⟩
    have hne : r' ≠ r := by
      intro heq
      apply hres
      rw [← hptr, heq, hr]
      exact h.null_reserved
    rw [Function.update_of_ne hne]
    exact hptr

theorem release (h : Owned null reserved used ptr) (S : ρ → Prop) [DecidablePred S]
    : Owned null reserved (fun b => used b ∧ ¬ ∃ (r : ρ), S r ∧ ptr r ≠ null ∧ ptr r = b)
        (fun r => if S r then null else ptr r) := by
  apply of_backed
  . apply h.backed.shrink
    . intro r
      by_cases h1 : S r
      . exact Or.inl (if_pos h1)
      . exact Or.inr (if_neg h1)
    . intro b hb
      refine ⟨h.reserved_used b hb, ?_⟩
      rintro ⟨r, -, hne, heq⟩
      exact h.ptr_not_reserved r hne (heq ▸ hb)
    . intro r hne
      by_cases h1 : S r
      . simp [h1] at hne
      . simp only [h1, ↓reduceIte] at hne ⊢
        refine ⟨h.ptr_used r hne, ?_⟩
        rintro ⟨r', hS, hne', heq⟩
        exact h1 (h.inj r' r hne' heq ▸ hS)
  . rintro b ⟨hused, hkeep⟩ hres
    obtain ⟨r, hptr⟩ := h.used_owned b hused hres
    have hne : ptr r ≠ null := by
      intro hnull
      apply hres
      rw [← hptr, hnull]
      exact h.null_reserved
    have hS : ¬ S r := fun hS => hkeep ⟨r, hS, hne, hptr⟩
    exact ⟨r, by simp [hS, hptr]⟩

end Owned
