import CS330.Sched.Running

/-!
This module contains the order in which processes take turns. A tick and an exit hand over to the first ready
process after the outgoing one, and so does a sleep as long as not both sides of the sleeper are ready. Then
nobody gets a second turn while somebody else is kept ready.
-/

namespace Sched

open Cyclic

-- the first ready process after the outgoing one, or the swapper if there is none
def InTurn (k : Kernel) (c : Call) (k' : Kernel) : Prop :=
  First (IsReady (k.seen c)) k.current k'.current ∨ ((∀ (i : Slot), ¬ IsReady (k.seen c) i) ∧ k'.current = 0)

def SwitchesTo (p : Slot) (k k' : Kernel) : Prop :=
  k.current ≠ p ∧ k'.current = p

-- a step during which `q` stays ready
def Waits (step : Kernel → Call → Kernel → Prop) (q : Slot) (k : Kernel) (c : Call) (k' : Kernel) : Prop :=
  step k c k' ∧ IsReady k.list q ∧ IsReady k'.list q

structure RoundRobin (step : Kernel → Call → Kernel → Prop) (k : Kernel) : Prop where
  inTurn : ∀ (l : List Call) (k₁ k₂ : Kernel) (c : Call), Run step k l k₁ → step k₁ c k₂
    → k₂.current ≠ k₁.current → InTurn k₁ c k₂
  once : ∀ (p q : Slot) (l l' : List Call) (k₁ k₂ k₃ k₄ : Kernel) (c c' : Call), Run step k l k₁
    → Waits step q k₁ c k₂ → SwitchesTo p k₁ k₂ → Run (Waits step q) k₂ l' k₃
    → Waits step q k₃ c' k₄ → ¬ SwitchesTo p k₃ k₄

-- ready processes on both sides of the current one
def Kernel.Flanked (k : Kernel) : Prop :=
  ∃ (i j : Slot), IsReady k.list i ∧ i < k.current ∧ IsReady k.list j ∧ k.current < j

def FairStep (k : Kernel) (c : Call) (k' : Kernel) : Prop :=
  Step k c k' ∧ ∀ (ticks : Nat), c = .sleep ticks → ¬ k.Flanked

namespace Table

variable {t t' : Table} {c : Call} {q next : Slot}

theorem Steady.chosen_of_zero (h : t.Steady) (hnext : t.Chosen 0 next)
    (hside : ¬ ∃ (i j : Slot), t.Ready i ∧ i < t.current ∧ t.Ready j ∧ t.current < j)
    : t.Chosen t.current next := by
  cases hnext with
  | inl hfirst =>
    left
    apply hfirst.of_zero
    . intro hzero
      exact hzero.1 rfl
    . exact h.not_ready_current
    . exact hside
  | inr hidle => exact .inr hidle

theorem Steady.inTurn (h : t.Steady) (hstep : t.Step c t') (hswitch : t'.current ≠ t.current)
    (hside : ∀ (ticks : Nat), c = .sleep ticks
      → ¬ ∃ (i j : Slot), t.Ready i ∧ i < t.current ∧ t.Ready j ∧ t.current < j)
    : (t.seen c).Chosen t.current t'.current := by
  cases hstep with
  | preempt next hnext => exact .inl hnext
  | sleep ticks next hcur hnext => exact h.chosen_of_zero hnext (hside ticks rfl)
  | exit next hcur hnext => exact hnext
  | _ => exact absurd rfl hswitch

theorem Steady.ready_seen (h : t.Steady) (hready : t.Ready q) : (t.seen c).Ready q := by
  cases c with
  | tick =>
    refine ⟨hready.1, ?_⟩
    have hstate := hready.2
    have hsleep := h.sleep_ready hready
    simp [seen, Table.woken, hstate, hsleep]
  | _ => exact hready

end Table

variable {k k' : Kernel} {c : Call} {q : Slot}

theorem Kernel.isReady_seen (h : k.table.Steady) : IsReady (k.seen c) = (k.table.seen c).Ready := by
  funext i
  simp only [IsReady, Kernel.seen_state h]
  rfl

theorem FairStep.inTurn (h : k.Sane) (hstep : FairStep k c k') (hswitch : k'.current ≠ k.current)
    : InTurn k c k' := by
  unfold InTurn
  rw [Kernel.isReady_seen h.steady]
  exact h.steady.inTurn (hstep.1.table h) hswitch hstep.2

-- every switch comes nearer to a process that stays ready
theorem Waits.ahead_lt (h : k.Sane) (hstep : Waits FairStep q k c k') (hswitch : k'.current ≠ k.current)
    : ahead k'.current q < ahead k.current q := by
  have hready := h.steady.ready_seen (c := c) (hstep.2.1 : k.table.Ready q)
  have hne : k'.current ≠ q := by
    have hsane := h.step hstep.1.1
    exact (hsane.steady.ne_current (hstep.2.2 : k'.table.Ready q)).symm
  have hturn := hstep.1.inTurn h hswitch
  unfold InTurn at hturn
  rw [Kernel.isReady_seen h.steady] at hturn
  cases hturn with
  | inl hfirst => exact hfirst.ahead_lt hready hne
  | inr hidle => exact absurd hready (hidle.1 q)

theorem Waits.ahead_le (h : k.Sane) {l : List Call} (hrun : Run (Waits FairStep q) k l k')
    : k'.Sane ∧ ahead k'.current q ≤ ahead k.current q := by
  induction hrun with
  | nil => exact ⟨h, Nat.le_refl _⟩
  | snoc hrun hstep ih =>
    next t u =>
    refine ⟨ih.1.step hstep.1.1, ?_⟩
    by_cases hswitch : u.current = t.current
    . rw [hswitch]
      exact ih.2
    . have hlt := Waits.ahead_lt ih.1 hstep hswitch
      exact Nat.le_trans (Nat.le_of_lt hlt) ih.2

theorem fairStep_roundRobin (h : k.Sane) : RoundRobin FairStep k where
  inTurn := by
    intro l k₁ k₂ c hrun hstep hswitch
    have hsane : k₁.Sane := hrun.inv h (fun _ _ _ hs hst => hs.step hst.1)
    exact hstep.inTurn hsane hswitch
  once := by
    intro p q l l' k₁ k₂ k₃ k₄ c c' hrun hstep hto hrun' hstep' hto'
    have hsane₁ : k₁.Sane := hrun.inv h (fun _ _ _ hs hst => hs.step hst.1)
    have hsane₂ : k₂.Sane := hsane₁.step hstep.1.1
    -- from the first turn of `p` to the second one the distance to `q` would have to shrink
    have hle := Waits.ahead_le hsane₂ hrun'
    have hlt := Waits.ahead_lt hle.1 hstep' (by rw [hto'.2]; exact hto'.1.symm)
    rw [hto'.2] at hlt
    rw [hto.2] at hle
    omega

theorem fairStep_roundRobin_boot
    : ∃ (k : Kernel), FairStep boot .tick k ∧ k.current = 1 ∧ RoundRobin FairStep boot := by
  obtain ⟨k, hstep, hcurrent⟩ := exists_step (k := boot) (c := .tick)
    (p := fun k => decide (k.current = 1)) (by decide +kernel)
  rw [decide_eq_true_eq] at hcurrent
  refine ⟨k, ⟨hstep, ?_⟩, hcurrent, fairStep_roundRobin boot_sane⟩
  intro ticks hc
  cases hc

-- Init and its children in slots 2 and 3 are ready. Slot 2 gets its turn, sleeps for a tick and gets the next
-- turn after init, while slot 3 is ready all the time.
theorem not_roundRobin_boot : ¬ RoundRobin Step boot := by
  intro hfair
  let rest : Kernel → Bool := fun k₁ =>
    (execAll [.tick] k₁).any fun k₂ =>
      (execAll [.sleep 1] k₂).any fun k₃ =>
        (execAll [.tick] k₃).any fun k₄ =>
          decide (k₁.current = 1 ∧ k₂.current = 2 ∧ k₃.current = 1 ∧ k₄.current = 2
            ∧ (k₁.list 3).state = .ready ∧ (k₂.list 3).state = .ready ∧ (k₃.list 3).state = .ready
            ∧ (k₄.list 3).state = .ready)
  obtain ⟨k₁, hrun, h₁⟩ := exists_run (k := boot) (l := family) (p := rest) (by decide +kernel)
  obtain ⟨k₂, hstep₂, h₂⟩ := exists_step h₁
  obtain ⟨k₃, hstep₃, h₃⟩ := exists_step h₂
  obtain ⟨k₄, hstep₄, h₄⟩ := exists_step h₃
  rw [decide_eq_true_eq] at h₄
  obtain ⟨hc₁, hc₂, hc₃, hc₄, hr₁, hr₂, hr₃, hr₄⟩ := h₄
  have hwaits : ∀ (k : Kernel), (k.list 3).state = .ready → IsReady k.list 3 := by
    intro k hready
    exact ⟨by decide, hready⟩
  apply hfair.once 2 3 family [.sleep 1] k₁ k₂ k₃ k₄ .tick .tick hrun
  . exact ⟨hstep₂, hwaits k₁ hr₁, hwaits k₂ hr₂⟩
  . refine ⟨?_, hc₂⟩
    rw [hc₁]
    decide
  . exact .snoc .nil ⟨hstep₃, hwaits k₂ hr₂, hwaits k₃ hr₃⟩
  . exact ⟨hstep₄, hwaits k₃ hr₃, hwaits k₄ hr₄⟩
  . refine ⟨?_, hc₄⟩
    rw [hc₃]
    decide

end Sched
