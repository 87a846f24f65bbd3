import CS330.Sched.Boot

/-!
This module contains how long processes sleep: one that asked for at least one tick waits until exactly that
many ticks have passed, and can run from then on.
-/

namespace Sched

open Cyclic

def Call.isTick : Call → Bool
  | .tick => true
  | _ => false

-- a step that is not a system call of `p`
def Without (step : Kernel → Call → Kernel → Prop) (p : Slot) (k : Kernel) (c : Call) (k' : Kernel) : Prop :=
  step k c k' ∧ ¬ (c.IsSyscall ∧ k.current = p)

structure WakesOnTime (step : Kernel → Call → Kernel → Prop) (k : Kernel) : Prop where
  waiting : ∀ (l : List Call) (k' : Kernel) (i : Slot), Run step k l k' → (k'.list i).state = .waiting
    → 0 < (k'.list i).ticksToSleep
  asleep : ∀ (l l' : List Call) (k₁ k₂ k₃ : Kernel) (n : Nat), Run step k l k₁ → step k₁ (.sleep n) k₂
    → Run (Without step k₁.current) k₂ l' k₃ → l'.countP Call.isTick < n
    → (k₃.list k₁.current).state = .waiting
  awake : ∀ (l l' : List Call) (k₁ k₂ k₃ : Kernel) (n : Nat), Run step k l k₁ → step k₁ (.sleep n) k₂
    → Run (Without step k₁.current) k₂ l' k₃ → n ≤ l'.countP Call.isTick
    → (k₃.list k₁.current).state = .ready ∨ (k₃.list k₁.current).state = .running

-- whoever sleeps asks for at least one tick
def TimedStep (k : Kernel) (c : Call) (k' : Kernel) : Prop :=
  Step k c k' ∧ ∀ (ticks : Nat), c = .sleep ticks → 1 ≤ ticks

namespace Table

variable {t t' : Table} {c : Call} {p : Slot} {m : Nat}

-- `p` has `m` ticks left to sleep, or can run if there are none
def Due (t : Table) (p : Slot) (m : Nat) : Prop :=
  t.sleep p = m
    ∧ if 0 < m then t.state p = .waiting else t.state p = .ready ∨ t.state p = .running

theorem Due.waiting (h : t.Due p m) (hm : 0 < m) : t.state p = .waiting := by
  have := h.2
  rw [if_pos hm] at this
  exact this

theorem Due.awake (h : t.Due p m) (hm : m = 0) : t.state p = .ready ∨ t.state p = .running := by
  have := h.2
  rw [if_neg (by omega)] at this
  exact this

theorem Due.used (h : t.Due p m) : t.state p ≠ .unused := by
  intro hunused
  by_cases hm : 0 < m
  . have := h.waiting hm
    rw [hunused] at this
    cases this
  . have := h.awake (by omega)
    rw [hunused] at this
    cases this with
    | inl h => cases h
    | inr h => cases h

theorem Due.ready (h : t.Due p m) (hready : t.Ready p) : m = 0 := by
  apply Nat.eq_zero_of_not_pos
  intro hm
  have := h.waiting hm
  rw [hready.2] at this
  cases this

theorem Due.woken (h : t.Due p m) : t.woken.Due p (m - 1) := by
  have hsleep := h.1
  by_cases hone : m = 1
  . subst hone
    simp [Due, Table.woken, hsleep]
  . by_cases hm : 0 < m
    . have hstate := h.waiting hm
      have hpos : 0 < m - 1 := by omega
      simp [Due, Table.woken, hsleep, hone, hpos, hstate]
    . have hzero : m = 0 := by omega
      subst hzero
      have hstate := h.awake rfl
      simpa [Due, Table.woken, hsleep] using hstate

theorem Due.switched {next : Slot} (h : t.Due p m) (hnext : p = next → m = 0)
    : (t.switched next).Due p m := by
  by_cases hp : p = next
  . have hm := hnext hp
    subst hp
    subst hm
    simpa [Due, Table.switched] using h.1
  . simpa [Due, Table.switched, hp] using h

theorem Due.left {state : ProcessState} {n : Nat} (h : t.Due p m) (hp : p ≠ t.current)
    : (t.left state n).Due p m := by
  simpa [Due, Table.left, hp] using h

theorem Due.chosen {a next : Slot} (h : t.Due p m) (hp : p ≠ 0) (hnext : t.Chosen a next) (heq : p = next)
    : m = 0 := by
  subst heq
  cases hnext with
  | inl hfirst => exact h.ready hfirst.1
  | inr hidle => exact absurd hidle.2 hp

theorem Due.step (h : t.Due p m) (hsteady : t.Steady) (hp : p ≠ 0) (hstep : t.Step c t')
    (hother : ¬ (c.IsSyscall ∧ t.current = p))
    : t'.Due p (if c.isTick then m - 1 else m) := by
  cases hstep with
  | user cpu mem => exact h
  | stay hidle => exact h.woken
  | preempt next hnext =>
    apply Due.switched
    . by_cases hcur : p = t.current
      . -- the process that is preempted was not asleep
        have hm : m = 0 := by
          rw [← h.1, hcur]
          exact hsteady.sleep_current
        subst hm
        have hcur' : p = t.woken.current := hcur
        simp [Due, Table.left, hcur']
      . exact h.woken.left hcur
    . intro heq
      subst heq
      exact h.woken.ready hnext.1
  | sleep ticks next hcur hnext =>
    have hp' : p ≠ t.current := fun heq => hother ⟨trivial, heq.symm⟩
    apply Due.switched
    . exact h.left hp'
    . exact h.chosen hp hnext
  | exit next hcur hnext =>
    have hp' : p ≠ t.current := fun heq => hother ⟨trivial, heq.symm⟩
    apply Due.switched
    . exact h.left hp'
    . exact h.chosen hp hnext
  | clone thFunc userStack env rax i hi hfree hnew =>
    have hpi : p ≠ i := by
      intro heq
      rw [← heq] at hfree
      exact h.used hfree
    simpa [Due, Table.cloned, hpi, Call.isTick] using h
  | signal signo handler rax => exact h
  | alarm ticks rax => exact h

theorem Steady.due_sleep {n : Nat} (h : t.Steady) (hn : 0 < n) (hstep : t.Step (.sleep n) t')
    : t.current ≠ 0 ∧ t'.Due t.current n := by
  cases hstep with
  | sleep ticks next hcur hnext =>
    have hne := (h.chosen hcur hnext).1
    refine ⟨hcur, ?_⟩
    simp [Due, Table.switched, Table.left, hne.symm, hn]

-- nobody waits without end
def Timely (t : Table) : Prop :=
  ∀ (i : Slot), t.state i = .waiting → 0 < t.sleep i

theorem Timely.woken (h : t.Timely) : t.woken.Timely := by
  intro i hi
  simp only [Table.woken] at hi ⊢
  split at hi
  . cases hi
  . have := h i hi
    omega

theorem Timely.switch {state : ProcessState} {n : Nat} {next : Slot} (h : t.Timely)
    (hn : state = .waiting → 0 < n)
    : ((t.left state n).switched next).Timely := by
  intro i hi
  simp only [Table.switched, Table.left] at hi ⊢
  by_cases hnext : i = next
  . subst hnext
    simp at hi
  . rw [Function.update_of_ne hnext] at hi
    by_cases hcur : i = t.current
    . subst hcur
      rw [Function.update_self] at hi ⊢
      exact hn hi
    . rw [Function.update_of_ne hcur] at hi ⊢
      exact h i hi

theorem Timely.cloned {i : Slot} (h : t.Timely) : (t.cloned i).Timely := by
  intro j hj
  simp only [Table.cloned] at hj ⊢
  by_cases hji : j = i
  . subst hji
    simp at hj
  . rw [Function.update_of_ne hji] at hj ⊢
    exact h j hj

theorem Timely.step (h : t.Timely) (hstep : t.Step c t')
    (hticks : ∀ (ticks : Nat), c = .sleep ticks → 1 ≤ ticks)
    : t'.Timely := by
  cases hstep with
  | user cpu mem => exact h
  | stay hidle => exact h.woken
  | preempt next hnext =>
    apply h.woken.switch
    intro hstate
    cases hstate
  | sleep ticks next hcur hnext =>
    apply h.switch
    intro _
    exact hticks ticks rfl
  | exit next hcur hnext =>
    apply h.switch
    intro hstate
    cases hstate
  | clone thFunc userStack env rax i hi hfree hnew => exact h.cloned
  | signal signo handler rax => exact h
  | alarm ticks rax => exact h

end Table

variable {k k' : Kernel} {p : Slot} {m : Nat}

theorem Without.due {l : List Call} (h : k.Sane) (hp : p ≠ 0) (hdue : k.table.Due p m)
    (hrun : Run (Without TimedStep p) k l k')
    : k'.Sane ∧ k'.table.Due p (m - l.countP Call.isTick) := by
  induction hrun with
  | nil => exact ⟨h, hdue⟩
  | snoc hrun hstep ih =>
    next l c t u =>
    refine ⟨ih.1.step hstep.1.1, ?_⟩
    have hnext := ih.2.step ih.1.steady hp (hstep.1.1.table ih.1) hstep.2
    rw [List.countP_append, List.countP_singleton]
    cases hc : c.isTick with
    | true =>
      simp only [hc, ↓reduceIte] at hnext ⊢
      rw [← Nat.sub_sub]
      exact hnext
    | false =>
      simp only [hc, Bool.false_eq_true, ↓reduceIte, Nat.add_zero] at hnext ⊢
      exact hnext

theorem TimedStep.run {l : List Call} (h : k.Sane) (htimely : k.table.Timely) (hrun : Run TimedStep k l k')
    : k'.Sane ∧ k'.table.Timely := by
  induction hrun with
  | nil => exact ⟨h, htimely⟩
  | snoc hrun hstep ih => exact ⟨ih.1.step hstep.1, ih.2.step (hstep.1.table ih.1) hstep.2⟩

theorem TimedStep.due_sleep {n : Nat} (h : k.Sane) (hstep : TimedStep k (.sleep n) k')
    : k.current ≠ 0 ∧ k'.Sane ∧ k'.table.Due k.current n := by
  have hdue := h.steady.due_sleep (hstep.2 n rfl) (hstep.1.table h)
  exact ⟨hdue.1, h.step hstep.1, hdue.2⟩

theorem timedStep_wakesOnTime (h : k.Sane)
    (htimely : ∀ (i : Slot), (k.list i).state = .waiting → 0 < (k.list i).ticksToSleep)
    : WakesOnTime TimedStep k where
  waiting := by
    intro l k' i hrun hi
    exact (TimedStep.run h htimely hrun).2 i hi
  asleep := by
    intro l l' k₁ k₂ k₃ n hrun hstep hrun' hlt
    have hsane := (TimedStep.run h htimely hrun).1
    have hslept := TimedStep.due_sleep hsane hstep
    have hdue := Without.due hslept.2.1 hslept.1 hslept.2.2 hrun'
    apply hdue.2.waiting
    omega
  awake := by
    intro l l' k₁ k₂ k₃ n hrun hstep hrun' hle
    have hsane := (TimedStep.run h htimely hrun).1
    have hslept := TimedStep.due_sleep hsane hstep
    have hdue := Without.due hslept.2.1 hslept.1 hslept.2.2 hrun'
    apply hdue.2.awake
    omega

theorem timedStep_wakesOnTime_boot
    : (∃ (k : Kernel), TimedStep boot (.sleep 1) k) ∧ WakesOnTime TimedStep boot := by
  constructor
  . obtain ⟨k, hstep, _⟩ := exists_step (k := boot) (c := .sleep 1) (p := fun _ => true) (by decide +kernel)
    refine ⟨k, hstep, ?_⟩
    intro ticks hc
    simp only [Call.sleep.injEq] at hc
    omega
  . apply timedStep_wakesOnTime boot_sane
    decide

-- Init sleeps for no tick at all: it waits, and no tick will wake it.
theorem not_wakesOnTime_boot : ¬ WakesOnTime Step boot := by
  intro hwakes
  obtain ⟨k, hrun, hk⟩ := exists_run (k := boot) (l := [.sleep 0])
    (p := fun k => decide ((k.list 1).state = .waiting ∧ (k.list 1).ticksToSleep = 0)) (by decide +kernel)
  rw [decide_eq_true_eq] at hk
  have hpos := hwakes.waiting _ k 1 hrun hk.1
  omega

end Sched
