import Mathlib.Data.List.Nodup

/-!
This module contains ledgers: what was handed out and what was given back, against what is held by whom now.
-/

/--
No resource has two holders. What is held was handed out once more than it was given back, all else as often.
-/
structure Ledger {ρ κ : Type} [DecidableEq ρ] (given freed : List ρ) (holds : κ → ρ → Prop) : Prop where
  single : ∀ (k k' : κ) (r : ρ), holds k r → holds k' r → k = k'
  held : ∀ (k : κ) (r : ρ), holds k r → given.count r = freed.count r + 1
  gone : ∀ (r : ρ), (∀ (k : κ), ¬ holds k r) → given.count r = freed.count r

namespace Ledger

variable {ρ κ : Type} [DecidableEq ρ] {given freed : List ρ} {holds holds' : κ → ρ → Prop} {k : κ} {r : ρ}

theorem empty (hback : ∀ (r : ρ), given.count r = freed.count r) (hnone : ∀ (k : κ) (r : ρ), ¬ holds k r)
    : Ledger given freed holds where
  single := fun k _ r hk => absurd hk (hnone k r)
  held := fun k r hk => absurd hk (hnone k r)
  gone := fun r _ => hback r

-- what was given back as often as it was handed out is held by nobody
theorem not_held (h : Ledger given freed holds) (hback : given.count r = freed.count r) (k : κ) : ¬ holds k r := by
  intro hk
  have := h.held k r hk
  omega

theorem count_of_nodup {l : List ρ} (hl : l.Nodup) (r : ρ) : l.count r = if r ∈ l then 1 else 0 := by
  split
  . next hr => exact List.count_eq_one_of_mem hl hr
  . next hr => exact List.count_eq_zero_of_not_mem hr

-- a holder that had nothing takes what is in `new`
theorem take (h : Ledger given freed holds) (new : List ρ) (hnodup : new.Nodup)
    (hback : ∀ (r : ρ), r ∈ new → given.count r = freed.count r) (hbefore : ∀ (r : ρ), ¬ holds k r)
    (hafter : ∀ (r : ρ), holds' k r ↔ r ∈ new)
    (hsame : ∀ (k' : κ) (r : ρ), k' ≠ k → (holds' k' r ↔ holds k' r))
    : Ledger (new ++ given) freed holds' := by
  have hcases : ∀ (k' : κ) (r : ρ), holds' k' r → (k' = k ∧ r ∈ new) ∨ (k' ≠ k ∧ holds k' r) := by
    intro k' r hk'
    by_cases heq : k' = k
    . exact .inl ⟨heq, (hafter r).mp (heq ▸ hk')⟩
    . exact .inr ⟨heq, (hsame k' r heq).mp hk'⟩
  constructor
  . intro k₁ k₂ r h₁ h₂
    rcases hcases k₁ r h₁ with ⟨rfl, hr⟩ | ⟨hne, hold⟩
    . rcases hcases k₂ r h₂ with ⟨rfl, -⟩ | ⟨-, hold⟩
      . rfl
      . exact absurd hold (h.not_held (hback r hr) k₂)
    . rcases hcases k₂ r h₂ with ⟨-, hr⟩ | ⟨-, hold'⟩
      . exact absurd hold (h.not_held (hback r hr) k₁)
      . exact h.single k₁ k₂ r hold hold'
  . intro k' r hk'
    rw [List.count_append, count_of_nodup hnodup]
    rcases hcases k' r hk' with ⟨-, hr⟩ | ⟨-, hold⟩
    . rw [if_pos hr, hback r hr, Nat.add_comm]
    . have hr : r ∉ new := fun hr => h.not_held (hback r hr) k' hold
      rw [if_neg hr, h.held k' r hold, Nat.zero_add]
  . intro r hnone
    have hr : r ∉ new := fun hr => hnone k ((hafter r).mpr hr)
    rw [List.count_append, count_of_nodup hnodup, if_neg hr, Nat.zero_add]
    apply h.gone
    intro k' hk'
    by_cases heq : k' = k
    . exact hbefore r (heq ▸ hk')
    . exact hnone k' ((hsame k' r heq).mpr hk')

-- a holder gives back all that it has
theorem give (h : Ledger given freed holds) (old : List ρ) (hnodup : old.Nodup)
    (hbefore : ∀ (r : ρ), holds k r ↔ r ∈ old) (hafter : ∀ (r : ρ), ¬ holds' k r)
    (hsame : ∀ (k' : κ) (r : ρ), k' ≠ k → (holds' k' r ↔ holds k' r))
    : Ledger given (old ++ freed) holds' := by
  have hold : ∀ (k' : κ) (r : ρ), holds' k' r → k' ≠ k ∧ holds k' r := by
    intro k' r hk'
    by_cases heq : k' = k
    . exact absurd (heq ▸ hk') (hafter r)
    . exact ⟨heq, (hsame k' r heq).mp hk'⟩
  constructor
  . intro k₁ k₂ r h₁ h₂
    exact h.single k₁ k₂ r (hold k₁ r h₁).2 (hold k₂ r h₂).2
  . intro k' r hk'
    obtain ⟨hne, hk'⟩ := hold k' r hk'
    have hr : r ∉ old := fun hr => hne (h.single k' k r hk' ((hbefore r).mpr hr))
    rw [List.count_append, count_of_nodup hnodup, if_neg hr, h.held k' r hk', Nat.zero_add]
  . intro r hnone
    rw [List.count_append, count_of_nodup hnodup]
    by_cases hr : r ∈ old
    . rw [if_pos hr, h.held k r ((hbefore r).mpr hr), Nat.add_comm]
    . rw [if_neg hr, Nat.zero_add]
      apply h.gone
      intro k' hk'
      by_cases heq : k' = k
      . exact hr ((hbefore r).mp (heq ▸ hk'))
      . exact hnone k' ((hsame k' r heq).mpr hk')

end Ledger
