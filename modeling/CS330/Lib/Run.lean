/-!
This module contains runs of labelled transition systems, with the rule for invariants and the rule for
simulations.
-/

/-- The runs from `s`: their labels and where they end. -/
inductive Run {σ α : Type} (step : σ → α → σ → Prop) (s : σ) : List α → σ → Prop where
  | nil : Run step s [] s
  | snoc {l : List α} {a : α} {t u : σ} (hrun : Run step s l t) (hstep : step t a u)
      : Run step s (l ++ [a]) u

namespace Run

variable {σ τ α : Type} {step : σ → α → σ → Prop} {step' : τ → α → τ → Prop} {s t u : σ} {l l' : List α}

theorem inv {I : σ → Prop} (hinit : I s) (hkeep : ∀ (t : σ) (a : α) (u : σ), I t → step t a u → I u)
    (h : Run step s l t)
    : I t := by
  induction h with
  | nil => exact hinit
  | snoc hrun hstep ih => exact hkeep _ _ _ ih hstep

theorem mono {step₁ : σ → α → σ → Prop} (hstep : ∀ (t : σ) (a : α) (u : σ), step t a u → step₁ t a u)
    (h : Run step s l t)
    : Run step₁ s l t := by
  induction h with
  | nil => exact .nil
  | snoc hrun hlast ih => exact .snoc ih (hstep _ _ _ hlast)

theorem trans (h : Run step s l t) (h' : Run step t l' u) : Run step s (l ++ l') u := by
  induction h' with
  | nil =>
    rw [List.append_nil]
    exact h
  | snoc hrun hstep ih =>
    rw [← List.append_assoc]
    exact .snoc ih hstep

theorem of_snoc {a : α} (h : Run step s (l ++ [a]) u) : ∃ (t : σ), Run step s l t ∧ step t a u := by
  generalize heq : l ++ [a] = l' at h
  cases h with
  | nil => exact absurd heq (by simp)
  | snoc hrun hstep =>
    obtain ⟨hl, ha⟩ := List.append_inj' heq rfl
    cases hl
    cases ha
    exact ⟨_, hrun, hstep⟩

theorem of_nil (h : Run step s [] t) : t = s := by
  generalize heq : ([] : List α) = l at h
  cases h with
  | nil => rfl
  | snoc hrun hstep => exact absurd heq.symm (by simp)

theorem of_append (h : Run step s (l ++ l') u) : ∃ (t : σ), Run step s l t ∧ Run step t l' u := by
  generalize heq : l ++ l' = all at h
  induction h generalizing l' with
  | nil =>
    obtain ⟨rfl, rfl⟩ := List.append_eq_nil_iff.mp heq
    exact ⟨s, .nil, .nil⟩
  | snoc hrun hstep ih =>
    cases List.eq_nil_or_concat l' with
    | inl hnil =>
      rw [hnil, List.append_nil] at heq
      rw [hnil, heq]
      exact ⟨_, hrun.snoc hstep, .nil⟩
    | inr hconcat =>
      obtain ⟨l₁, a, hl⟩ := hconcat
      rw [hl, List.concat_eq_append, ← List.append_assoc] at heq
      obtain ⟨hinit, ha⟩ := List.append_inj' heq rfl
      cases ha
      obtain ⟨t, hrun₁, hrun₂⟩ := ih hinit
      rw [hl, List.concat_eq_append]
      exact ⟨t, hrun₁, hrun₂.snoc hstep⟩

theorem of_cons {a : α} (h : Run step s (a :: l) u) : ∃ (t : σ), step s a t ∧ Run step t l u := by
  obtain ⟨t, hfirst, hrest⟩ := of_append (l := [a]) h
  obtain ⟨t', hnil, hstep⟩ := of_snoc (l := []) hfirst
  rw [hnil.of_nil] at hstep
  exact ⟨t, hstep, hrest⟩

theorem sim {R : σ → τ → Prop}
    (hsim : ∀ (t : σ) (a : α) (u : σ) (t' : τ), R t t' → step t a u
      → ∃ (u' : τ), step' t' a u' ∧ R u u')
    {s' : τ} (hinit : R s s') (h : Run step s l t)
    : ∃ (t' : τ), Run step' s' l t' ∧ R t t' := by
  induction h with
  | nil => exact ⟨s', .nil, hinit⟩
  | snoc hrun hstep ih =>
    obtain ⟨t', hrun', hR⟩ := ih
    obtain ⟨u', hstep', hR'⟩ := hsim _ _ _ t' hR hstep
    exact ⟨u', .snoc hrun' hstep', hR'⟩

-- The same for a part of the steps: the others are not seen in the second system.
theorem sim_filter {p : α → Bool} {R : σ → τ → Prop}
    (hsim : ∀ (t : σ) (a : α) (u : σ) (t' : τ), p a = true → R t t' → step t a u
      → ∃ (u' : τ), step' t' a u' ∧ R u u')
    (hskip : ∀ (t : σ) (a : α) (u : σ) (t' : τ), p a = false → R t t' → step t a u → R u t')
    {s' : τ} (hinit : R s s') (h : Run step s l t)
    : ∃ (t' : τ), Run step' s' (l.filter p) t' ∧ R t t' := by
  induction h with
  | nil => exact ⟨s', .nil, hinit⟩
  | @snoc l a t u hrun hstep ih =>
    obtain ⟨t', hrun', hR⟩ := ih
    rw [List.filter_append]
    cases hp : p a with
    | true =>
      obtain ⟨u', hstep', hR'⟩ := hsim t a u t' hp hR hstep
      rw [List.filter_cons_of_pos hp, List.filter_nil]
      exact ⟨u', .snoc hrun' hstep', hR'⟩
    | false =>
      rw [List.filter_cons_of_neg (by simp [hp]), List.filter_nil, List.append_nil]
      exact ⟨t', hrun', hskip t a u t' hp hR hstep⟩

end Run
