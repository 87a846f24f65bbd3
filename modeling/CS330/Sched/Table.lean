import CS330.Lib.Cyclic
import CS330.Sched.Run

/-!
This module contains the scheduler without its registers, stacks and signals: a table of process states and
sleep counters, a current process, and who may be switched to by a tick, a sleep or an exit.
-/

namespace Sched

open Cyclic

structure Table where
  state : Slot → ProcessState
  sleep : Slot → Nat
  current : Slot

namespace Table

-- a process that can be switched to; the swapper is not one
def Ready (t : Table) (i : Slot) : Prop :=
  i ≠ 0 ∧ t.state i = .ready

-- a tick has passed
def woken (t : Table) : Table :=
  { t with
    state := fun i => if t.sleep i = 1 then .ready else t.state i
    sleep := fun i => t.sleep i - 1 }

-- the current process stops running
def left (state : ProcessState) (ticks : Nat) (t : Table) : Table :=
  { t with
    state := Function.update t.state t.current state
    sleep := Function.update t.sleep t.current ticks }

def switched (next : Slot) (t : Table) : Table :=
  { t with state := Function.update t.state next .running, current := next }

def cloned (i : Slot) (t : Table) : Table :=
  { t with
    state := Function.update t.state i .ready
    sleep := Function.update t.sleep i 0 }

-- the first ready process after `a`, or the swapper if there is none
def Chosen (t : Table) (a next : Slot) : Prop :=
  First t.Ready a next ∨ ((∀ (i : Slot), ¬ t.Ready i) ∧ next = 0)

inductive Step (t : Table) : Call → Table → Prop where
  | user (cpu : UserRegs) (mem : Memory) : Step t (.user cpu mem) t
  | stay (hidle : ∀ (i : Slot), ¬ t.woken.Ready i) : Step t .tick t.woken
  | preempt (next : Slot) (hnext : First t.woken.Ready t.current next)
      : Step t .tick ((t.woken.left .ready 0).switched next)
  -- the process that goes to sleep is not found any more, so the search begins at the swapper
  | sleep (ticks : Nat) (next : Slot) (hcur : t.current ≠ 0) (hnext : t.Chosen 0 next)
      : Step t (.sleep ticks) ((t.left .waiting ticks).switched next)
  | exit (next : Slot) (hcur : t.current ≠ 0) (hnext : t.Chosen t.current next)
      : Step t .exit ((t.left .unused 0).switched next)
  | clone (thFunc userStack : U64) (env : CloneEnv) (rax : U64) (i : Slot) (hi : i ≠ 0)
      (hfree : t.state i = .unused) (hnew : env.newCtx = some i)
      : Step t (.clone thFunc userStack env rax) (t.cloned i)
  | signal (signo : Int) (handler rax : U64) : Step t (.signal signo handler rax) t
  | alarm (ticks : Nat) (rax : U64) : Step t (.alarm ticks rax) t

-- Only the current process runs, and only waiting processes have ticks left to sleep.
structure Steady (t : Table) : Prop where
  running : t.state t.current = .running
  only : ∀ (i : Slot), t.state i = .running → i = t.current
  asleep : ∀ (i : Slot), 0 < t.sleep i → i ≠ 0 ∧ t.state i = .waiting

variable {t t' : Table} {i next a : Slot} {state : ProcessState} {n : Nat} {c : Call}

namespace Steady

theorem sleep_current (h : t.Steady) : t.sleep t.current = 0 := by
  apply Nat.eq_zero_of_not_pos
  intro hpos
  have := (h.asleep _ hpos).2
  rw [h.running] at this
  cases this

theorem not_ready_current (h : t.Steady) : ¬ t.Ready t.current := by
  intro hready
  have := hready.2
  rw [h.running] at this
  cases this

theorem woken (h : t.Steady) : t.woken.Steady := by
  constructor
  . simp only [Table.woken, h.sleep_current]
    exact h.running
  . intro i hi
    apply h.only
    simp only [Table.woken] at hi
    split at hi
    . cases hi
    . exact hi
  . intro i hi
    simp only [Table.woken] at hi ⊢
    have hone : t.sleep i ≠ 1 := by omega
    simp only [hone, ↓reduceIte]
    apply h.asleep
    omega

-- whoever is switched to must not have ticks left
theorem switch (h : t.Steady) (hout : state ≠ .running) (hn : 0 < n → t.current ≠ 0 ∧ state = .waiting)
    (hnext : next ≠ t.current) (hsleep : t.sleep next = 0)
    : ((t.left state n).switched next).Steady := by
  constructor
  . simp [switched]
  . intro i hi
    simp only [switched, left] at hi ⊢
    by_cases h1 : i = next
    . exact h1
    . rw [Function.update_of_ne h1] at hi
      by_cases h2 : i = t.current
      . subst h2
        rw [Function.update_self] at hi
        exact absurd hi hout
      . rw [Function.update_of_ne h2] at hi
        exact absurd (h.only i hi) h2
  . intro i hi
    simp only [switched, left] at hi ⊢
    by_cases h2 : i = t.current
    . subst h2
      rw [Function.update_self] at hi
      rw [Function.update_of_ne hnext.symm, Function.update_self]
      exact hn hi
    . rw [Function.update_of_ne h2] at hi
      have h1 : i ≠ next := by
        intro heq
        rw [heq, hsleep] at hi
        cases hi
      rw [Function.update_of_ne h1, Function.update_of_ne h2]
      exact h.asleep i hi

theorem sleep_zero (h : t.Steady) : t.sleep 0 = 0 := by
  apply Nat.eq_zero_of_not_pos
  intro hpos
  exact (h.asleep 0 hpos).1 rfl

theorem sleep_ready (h : t.Steady) (hready : t.Ready i) : t.sleep i = 0 := by
  apply Nat.eq_zero_of_not_pos
  intro hpos
  have := (h.asleep _ hpos).2
  rw [hready.2] at this
  cases this

theorem ne_current (h : t.Steady) (hready : t.Ready i) : i ≠ t.current := by
  intro heq
  rw [heq] at hready
  exact h.not_ready_current hready

theorem cloned (h : t.Steady) (hfree : t.state i = .unused) : (t.cloned i).Steady := by
  have hne : t.current ≠ i := by
    intro heq
    rw [← heq, h.running] at hfree
    cases hfree
  constructor
  . simp only [Table.cloned]
    rw [Function.update_of_ne hne]
    exact h.running
  . intro j hj
    simp only [Table.cloned] at hj ⊢
    by_cases hji : j = i
    . subst hji
      simp at hj
    . rw [Function.update_of_ne hji] at hj
      exact h.only j hj
  . intro j hj
    simp only [Table.cloned] at hj ⊢
    by_cases hji : j = i
    . subst hji
      simp at hj
    . rw [Function.update_of_ne hji] at hj ⊢
      exact h.asleep j hj

theorem chosen (h : t.Steady) (hcur : t.current ≠ 0) (hnext : t.Chosen a next)
    : next ≠ t.current ∧ t.sleep next = 0 := by
  cases hnext with
  | inl hfirst => exact ⟨h.ne_current hfirst.1, h.sleep_ready hfirst.1⟩
  | inr hidle =>
    rw [hidle.2]
    exact ⟨hcur.symm, h.sleep_zero⟩

theorem step (h : t.Steady) (hstep : t.Step c t') : t'.Steady := by
  cases hstep with
  | user cpu mem => exact h
  | stay hidle => exact h.woken
  | preempt next hnext =>
    apply h.woken.switch
    . decide
    . intro hpos
      cases hpos
    . exact h.woken.ne_current hnext.1
    . exact h.woken.sleep_ready hnext.1
  | sleep ticks next hcur hnext =>
    apply h.switch
    . decide
    . intro _
      exact ⟨hcur, rfl⟩
    . exact (h.chosen hcur hnext).1
    . exact (h.chosen hcur hnext).2
  | exit next hcur hnext =>
    apply h.switch
    . decide
    . intro hpos
      cases hpos
    . exact (h.chosen hcur hnext).1
    . exact (h.chosen hcur hnext).2
  | clone thFunc userStack env rax i hi hfree hnew => exact h.cloned hfree
  | signal signo handler rax => exact h
  | alarm ticks rax => exact h

end Steady

end Table

end Sched
