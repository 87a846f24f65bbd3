import CS330.Lib.Cyclic
import CS330.Sched.Impl.Schedule

/-!
This module contains the correctness of `pick_next_context`: with a running process it finds the next
ready one in cyclic order, without one it starts over from index 1.
-/

namespace Sched

open Cyclic

variable {list : Slot → Context} {state : ProcessState} {lo hi : Nat} {cur i : Slot}

theorem firstIn_eq_some
    : firstIn list state lo hi = some i
        ↔ ((list i).state = state ∧ lo ≤ i.val ∧ i.val < hi
          ∧ ∀ (j : Slot), lo ≤ j.val → j < i → (list j).state ≠ state) := by
  unfold firstIn slots
  rw [List.find?_filter, Loop.find?_range]
  simp only [decide_eq_true_eq, decide_eq_false_iff_not]
  constructor
  . intro h
    obtain ⟨h1, h2⟩ := h
    apply And.intro h1.2
    apply And.intro h1.1.1
    apply And.intro h1.1.2
    intro j hj hlt heq
    apply h2 j hlt
    have : j.val < i.val := hlt
    exact ⟨⟨hj, by omega⟩, heq⟩
  . intro h
    obtain ⟨h1, h2, h3, h4⟩ := h
    apply And.intro ⟨⟨h2, h3⟩, h1⟩
    intro j hlt hj
    exact h4 j hj.1.1 hlt hj.2

theorem firstIn_eq_none
    : firstIn list state lo hi = none
        ↔ ∀ (j : Slot), lo ≤ j.val → j.val < hi → (list j).state ≠ state := by
  unfold firstIn slots
  rw [List.find?_filter, List.find?_eq_none]
  simp only [Loop.mem_range, decide_eq_true_eq, true_implies]
  constructor
  . intro h j h1 h2 heq
    exact h j ⟨⟨h1, h2⟩, heq⟩
  . intro h j hj
    exact h j hj.1.1 hj.1.2 hj.2

theorem ne_zero_iff (i : Slot) : i ≠ 0 ↔ 1 ≤ i.val := by
  rw [ne_eq, Fin.ext_iff]
  simp only [Fin.val_zero]
  omega

theorem firstIn_all_eq_none
    : firstIn list state 1 maxProcesses = none ↔ ∀ (j : Slot), j ≠ 0 → (list j).state ≠ state := by
  rw [firstIn_eq_none]
  constructor
  . intro h j hj
    exact h j ((ne_zero_iff j).mp hj) j.isLt
  . intro h j hj _
    exact h j ((ne_zero_iff j).mpr hj)

-- A process that could be switched to.
def IsReady (list : Slot → Context) (i : Slot) : Prop :=
  i ≠ 0 ∧ (list i).state = .ready

theorem pickNextContext_restart (hnone : ∀ (j : Slot), j ≠ 0 → (list j).state ≠ .running)
    : (∃ (next : Slot), First (IsReady list) 0 next ∧ pickNextContext list = some next)
      ∨ ((∀ (j : Slot), ¬ IsReady list j) ∧ (∃ (j : Slot), j ≠ 0 ∧ (list j).state = .waiting)
        ∧ pickNextContext list = some 0)
      ∨ ((∀ (j : Slot), ¬ IsReady list j) ∧ pickNextContext list = none) := by
  unfold pickNextContext
  rw [firstIn_all_eq_none.mpr hnone]
  cases hready : firstIn list .ready 1 maxProcesses with
  | some next =>
    left
    rw [firstIn_eq_some] at hready
    obtain ⟨h1, h2, -, h4⟩ := hready
    refine ⟨next, ?_, rfl⟩
    apply First.of_le
    . exact ⟨(ne_zero_iff next).mpr h2, h1⟩
    . intro hzero
      exact hzero.1 rfl
    . intro c hc
      apply Fin.not_lt.mp
      intro hlt
      exact h4 c ((ne_zero_iff c).mp hc.1) hlt hc.2
  | none =>
    right
    rw [firstIn_all_eq_none] at hready
    have hnot : ∀ (j : Slot), ¬ IsReady list j := fun j hj => hready j hj.1 hj.2
    cases hwaiting : firstIn list .waiting 1 maxProcesses with
    | some j =>
      left
      rw [firstIn_eq_some] at hwaiting
      exact ⟨hnot, ⟨j, (ne_zero_iff j).mpr hwaiting.2.1, hwaiting.1⟩, rfl⟩
    | none =>
      right
      exact ⟨hnot, rfl⟩

theorem pickNextContext_running (hcur : cur ≠ 0) (hrun : (list cur).state = .running)
    (honly : ∀ (j : Slot), (list j).state = .running → j = cur)
    : (∃ (next : Slot), First (IsReady list) cur next ∧ pickNextContext list = some next)
      ∨ ((∀ (j : Slot), ¬ IsReady list j) ∧ pickNextContext list = some cur) := by
  have hfound : firstIn list .running 1 maxProcesses = some cur := by
    rw [firstIn_eq_some]
    refine ⟨hrun, (ne_zero_iff cur).mp hcur, cur.isLt, ?_⟩
    intro j _ hlt heq
    rw [honly j heq] at hlt
    exact absurd hlt (Fin.lt_irrefl cur)
  unfold pickNextContext
  simp only [hfound]
  cases hafter : firstIn list .ready (cur + 1) maxProcesses with
  | some next =>
    left
    rw [firstIn_eq_some] at hafter
    obtain ⟨h1, h2, -, h4⟩ := hafter
    have hlt : cur < next := h2
    refine ⟨next, ⟨⟨?_, h1⟩, ?_⟩, rfl⟩
    . rw [ne_zero_iff]
      omega
    . intro c hc
      have hle : cur < c → next ≤ c := by
        intro hcc
        apply Fin.not_lt.mp
        intro hlt'
        exact h4 c hcc hlt' hc.2
      have hnext := next.isLt
      unfold ahead
      rw [if_pos hlt]
      split
      . next hcc =>
        have : next.val ≤ c.val := hle hcc
        omega
      . omega
  | none =>
    rw [firstIn_eq_none] at hafter
    cases hbefore : firstIn list .ready 1 cur with
    | some next =>
      left
      rw [firstIn_eq_some] at hbefore
      obtain ⟨h1, h2, h3, h4⟩ := hbefore
      refine ⟨next, ⟨⟨(ne_zero_iff next).mpr h2, h1⟩, ?_⟩, rfl⟩
      intro c hc
      have hcc : ¬ cur < c := fun hlt => hafter c hlt c.isLt hc.2
      have hnc : ¬ cur < next := by
        simp only [Fin.lt_def]
        omega
      have hle : next.val ≤ c.val := by
        apply Fin.not_lt.mp
        intro hlt
        exact h4 c ((ne_zero_iff c).mp hc.1) hlt hc.2
      unfold ahead
      rw [if_neg hnc, if_neg hcc]
      omega
    | none =>
      right
      rw [firstIn_eq_none] at hbefore
      refine ⟨?_, rfl⟩
      intro j hj
      by_cases hlt : cur < j
      . exact hafter j hlt j.isLt hj.2
      . by_cases heq : j = cur
        . have := hj.2
          rw [heq, hrun] at this
          cases this
        . have hne : j.val ≠ cur.val := fun h => heq (Fin.ext h)
          apply hbefore j ((ne_zero_iff j).mp hj.1) _ hj.2
          simp only [Fin.lt_def] at hlt
          omega

end Sched
