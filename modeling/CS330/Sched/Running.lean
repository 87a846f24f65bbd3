import CS330.Sched.Boot

/-!
This module contains that exactly one context is running between any two steps, and who is switched to.
-/

namespace Sched

open Cyclic

namespace Table

-- what `pick_next_context` looks at; a tick has woken up sleepers by then
def seen (t : Table) : Call → Table
  | .tick => t.woken
  | _ => t

variable {t t' : Table} {c : Call}

theorem Step.chosen (hstep : t.Step c t') (hswitch : t'.current ≠ t.current)
    : ∃ (a : Slot), (t.seen c).Chosen a t'.current := by
  cases hstep with
  | user cpu mem => exact absurd rfl hswitch
  | stay hidle => exact absurd rfl hswitch
  | preempt next hnext => exact ⟨t.current, .inl hnext⟩
  | sleep ticks next hcur hnext => exact ⟨0, hnext⟩
  | exit next hcur hnext => exact ⟨t.current, hnext⟩
  | clone thFunc userStack env rax i hi hfree hnew => exact absurd rfl hswitch
  | signal signo handler rax => exact absurd rfl hswitch
  | alarm ticks rax => exact absurd rfl hswitch

end Table

namespace Kernel

-- The context of init is the only one that is running. Pids are the indices of the contexts in use.
structure InitCurrent (k : Kernel) : Prop where
  current : k.current = 1
  running : ∀ (i : Slot), (k.list i).state = .running ↔ i = 1
  pid : ∀ (i : Slot), i = 0 ∨ (k.list i).state ≠ .unused → (k.list i).pid = i

-- Only waiting processes have ticks left to sleep.
def Timed (k : Kernel) : Prop :=
  ∀ (i : Slot), 0 < (k.list i).ticksToSleep → i ≠ 0 ∧ (k.list i).state = .waiting

def OneRunning (k : Kernel) : Prop :=
  ∀ (i : Slot), (k.list i).state = .running ↔ i = k.current

-- the contexts that `pick_next_context` is called on
def seen (k : Kernel) : Call → Slot → Context
  | .tick => (handleTimerTick.prepare k).list
  | _ => k.list

variable {k k' : Kernel} {c : Call}

theorem InitCurrent.sane (h : k.InitCurrent) (htimed : k.Timed) : k.Sane where
  steady := by
    constructor
    . apply (h.running _).mpr
      exact h.current
    . intro i hi
      rw [(h.running i).mp hi]
      exact h.current.symm
    . exact htimed
  pid := h.pid

theorem Sane.oneRunning (h : k.Sane) : k.OneRunning := by
  intro i
  constructor
  . exact h.steady.only i
  . intro heq
    rw [heq]
    exact h.steady.running

theorem seen_state (h : k.table.Steady) (i : Slot) : (k.seen c i).state = (k.table.seen c).state i := by
  cases c with
  | tick =>
    have htable := handleTimerTick.prepare_table h
    simp only [seen, Table.seen]
    generalize handleTimerTick.prepare k = p at *
    rw [← htable]
    rfl
  | _ => rfl

end Kernel

-- Whoever is switched to was ready, or is the swapper because nobody was.
structure SwitchesWell (k : Kernel) (c : Call) (k' : Kernel) : Prop where
  ready : (k.seen c k'.current).state = .ready ∨ k'.current = 0
  swapper : k'.current = 0 → ∀ (i : Slot), i ≠ 0 → (k.seen c i).state ≠ .ready

variable {k k' : Kernel} {c : Call}

theorem Step.switchesWell (h : k.Sane) (hstep : Step k c k') (hswitch : k'.current ≠ k.current)
    : SwitchesWell k c k' := by
  obtain ⟨a, hchosen⟩ := (hstep.table h).chosen hswitch
  have hstate := fun (i : Slot) => Kernel.seen_state (c := c) h.steady i
  cases hchosen with
  | inl hfirst =>
    constructor
    . left
      rw [hstate]
      exact hfirst.1.2
    . intro hzero
      exact absurd hzero hfirst.1.1
  | inr hidle =>
    constructor
    . exact .inr hidle.2
    . intro _ i hi hready
      rw [hstate] at hready
      exact hidle.1 i ⟨hi, hready⟩

theorem run_oneRunning {l : List Call} (hinit : k.InitCurrent) (htimed : k.Timed) (hrun : Run Step k l k')
    : k'.OneRunning
      ∧ ∀ (c : Call) (k'' : Kernel), Step k' c k'' → k''.current ≠ k'.current → SwitchesWell k' c k'' := by
  have hsane : k'.Sane := (hinit.sane htimed).run hrun
  constructor
  . exact hsane.oneRunning
  . intro c k'' hstep hswitch
    exact hstep.switchesWell hsane hswitch

theorem boot_initCurrent : boot.InitCurrent where
  current := rfl
  running := by decide
  pid := by decide

theorem boot_timed : boot.Timed := by
  unfold Kernel.Timed
  decide

-- a child is cloned, init goes to sleep, and the child is switched to
theorem run_oneRunning_boot
    : ∃ (k' k'' : Kernel), Run Step boot family k' ∧ k'.OneRunning ∧ Step k' (.sleep 1) k''
      ∧ SwitchesWell k' (.sleep 1) k'' := by
  obtain ⟨k', hrun, hany⟩ := exists_run (k := boot) (l := family)
    (p := fun k' => (execAll [.sleep 1] k').any (fun k'' => decide (k''.current ≠ k'.current)))
    (by decide +kernel)
  obtain ⟨k'', hstep, hswitch⟩ := exists_step hany
  rw [decide_eq_true_eq] at hswitch
  have hone := run_oneRunning boot_initCurrent boot_timed hrun
  exact ⟨k', k'', hrun, hone.1, hstep, hone.2 _ k'' hstep hswitch⟩

-- init is running, but has a tick left to sleep
def drowsy : Kernel :=
  { boot with list := Function.update boot.list 1 { boot.list 1 with ticksToSleep := 1 } }

theorem not_oneRunning_drowsy
    : drowsy.InitCurrent ∧ ∃ (k' : Kernel), Run Step drowsy [.tick] k' ∧ ¬ k'.OneRunning := by
  constructor
  . constructor
    . rfl
    . decide
    . decide
  . obtain ⟨k', hrun, hready⟩ := exists_run (k := drowsy) (l := [.tick])
      (p := fun k => decide (k.current = 1 ∧ (k.list 1).state = .ready)) (by decide +kernel)
    rw [decide_eq_true_eq] at hready
    refine ⟨k', hrun, ?_⟩
    intro hone
    have hrunning := (hone 1).mpr hready.1.symm
    rw [hready.2] at hrunning
    cases hrunning

end Sched
