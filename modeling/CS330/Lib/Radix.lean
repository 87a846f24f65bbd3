import Mathlib.Algebra.Group.Nat.Defs
import Mathlib.Data.List.Induction

/-!
This module contains radix trees that are kept in memory: nodes are tables of entries, an entry may lead to
another node, and a list of indices leads from the root to a node. Adding one entry adds one path.
-/

namespace Radix

variable {φ ι ε : Type} (child : ε → Option φ)

def reach (m : φ → ι → ε) : φ → List ι → Option φ
  | f, [] => some f
  | f, i :: is =>
    match child (m f i) with
    | some g => reach m g is
    | none => none

-- no two paths of less than `d` steps lead to the same node
def Unshared (m : φ → ι → ε) (root : φ) (d : Nat) : Prop :=
  ∀ (p q : List ι) (f : φ), p.length < d → q.length < d → reach child m root p = some f
    → reach child m root q = some f → p = q

variable {child} {m m' : φ → ι → ε} {root f g : φ} {p q : List ι} {i j : ι} {d : Nat}

theorem reach_append
    : reach child m root (p ++ q) = (reach child m root p).bind (fun f => reach child m f q) := by
  induction p generalizing root with
  | nil => rfl
  | cons i p ih =>
    simp only [List.cons_append, reach]
    cases child (m root i) with
    | none => rfl
    | some g => exact ih

theorem reach_snoc
    : reach child m root (p ++ [i]) = (reach child m root p).bind (fun f => child (m f i)) := by
  rw [reach_append]
  congr 1
  funext f
  simp only [reach]
  cases child (m f i) with
  | none => rfl
  | some g => rfl

theorem reach_snoc_of (h : reach child m root p = some f)
    : reach child m root (p ++ [i]) = child (m f i) := by
  rw [reach_snoc, h]
  rfl

theorem reach_of_prefix (h : reach child m root p = some f) (hq : q <+: p)
    : ∃ (g : φ), reach child m root q = some g := by
  obtain ⟨rest, hrest⟩ := hq
  rw [← hrest, reach_append] at h
  cases hg : reach child m root q with
  | none =>
    rw [hg] at h
    cases h
  | some g => exact ⟨g, rfl⟩

theorem reach_congr (h : ∀ (f : φ) (i : ι), child (m' f i) = child (m f i)) (root : φ) (p : List ι)
    : reach child m' root p = reach child m root p := by
  induction p generalizing root with
  | nil => rfl
  | cons i p ih =>
    simp only [reach, h]
    cases child (m root i) with
    | none => rfl
    | some g => exact ih g

-- `m'` has one more entry, at `i` in the node `f`, which leads to the empty node `g`
structure Grown (child : ε → Option φ) (m m' : φ → ι → ε) (root f g : φ) (i : ι) (d : Nat) : Prop where
  before : child (m f i) = none
  after : child (m' f i) = some g
  same : ∀ (q : List ι) (f' : φ) (j : ι), q.length < d → reach child m root q = some f' → (f' ≠ f ∨ j ≠ i)
    → m' f' j = m f' j

theorem Grown.reach_eq [DecidableEq ι] (h : Grown child m m' root f g i d) (hun : Unshared child m root d)
    (hp : p.length < d) (hf : reach child m root p = some f)
    (hempty : p.length + 1 < d → ∀ (j : ι), child (m' g j) = none)
    : ∀ (q : List ι), q.length ≤ d
      → reach child m' root q = if q = p ++ [i] then some g else reach child m root q := by
  intro q
  induction q using List.reverseRecOn with
  | nil =>
    intro _
    rw [if_neg]
    . rfl
    . intro heq
      simpa using congrArg List.length heq
  | append_singleton q j ih =>
    intro hlen
    rw [List.length_append, List.length_singleton] at hlen
    have hq := ih (by omega)
    rw [reach_snoc, hq, reach_snoc]
    by_cases hnew : q = p ++ [i]
    . -- below the new node there is nothing, neither before nor after
      have hlt : p.length + 1 < d := by
        have := congrArg List.length hnew
        simp only [List.length_append, List.length_singleton] at this
        omega
      have hne : q ++ [j] ≠ p ++ [i] := by
        intro heq
        have := congrArg List.length heq
        have := congrArg List.length hnew
        simp_all
      rw [if_pos hnew, if_neg hne, hnew, reach_snoc_of hf, h.before]
      exact hempty hlt j
    . rw [if_neg hnew]
      cases hr : reach child m root q with
      | none =>
        rw [if_neg]
        . rfl
        . intro heq
          have hqp := (List.append_inj heq (by simpa using congrArg List.length heq)).1
          rw [hqp, hf] at hr
          cases hr
      | some f' =>
        by_cases hhere : f' = f ∧ j = i
        . obtain ⟨hf', hj⟩ := hhere
          subst hf'
          subst hj
          have hqp : q = p := hun q p f' (by omega) hp hr hf
          rw [if_pos (by rw [hqp])]
          exact h.after
        . have hne : q ++ [j] ≠ p ++ [i] := by
            intro heq
            have hinj := List.append_inj heq (by simpa using congrArg List.length heq)
            rw [hinj.1, hf, Option.some.injEq] at hr
            have hj : j = i := by simpa using hinj.2
            exact hhere ⟨hr.symm, hj⟩
          have hoff : f' ≠ f ∨ j ≠ i := by
            by_cases hf' : f' = f
            . right
              intro hj
              exact hhere ⟨hf', hj⟩
            . exact .inl hf'
          rw [if_neg hne]
          simp only [Option.bind_some, h.same q f' j (by omega) hr hoff]

theorem Grown.unshared [DecidableEq ι] (h : Grown child m m' root f g i d) (hun : Unshared child m root d)
    (hp : p.length < d) (hf : reach child m root p = some f)
    (hempty : p.length + 1 < d → ∀ (j : ι), child (m' g j) = none)
    (hfresh : p.length + 1 < d → ∀ (q : List ι), q.length < d → reach child m root q ≠ some g)
    : Unshared child m' root d := by
  intro q r f' hq hr hqf hrf
  rw [h.reach_eq hun hp hf hempty q (by omega)] at hqf
  rw [h.reach_eq hun hp hf hempty r (by omega)] at hrf
  have hlt : ∀ (s : List ι), s = p ++ [i] → s.length < d → p.length + 1 < d := by
    intro s hs hlen
    rw [hs] at hlen
    simpa using hlen
  by_cases hq' : q = p ++ [i]
  . rw [if_pos hq', Option.some.injEq] at hqf
    by_cases hr' : r = p ++ [i]
    . rw [hq', hr']
    . rw [if_neg hr', ← hqf] at hrf
      exact absurd hrf (hfresh (hlt q hq' hq) r hr)
  . rw [if_neg hq'] at hqf
    by_cases hr' : r = p ++ [i]
    . rw [if_pos hr', Option.some.injEq] at hrf
      rw [← hrf] at hqf
      exact absurd hqf (hfresh (hlt r hr' hr) q hq)
    . rw [if_neg hr'] at hrf
      exact hun q r f' hq hr hqf hrf

end Radix
