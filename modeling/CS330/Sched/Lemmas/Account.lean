import CS330.Sched.Table

/-!
This module contains what a timer tick does before it chooses the next process: the accounting of sleeping
processes and alarms, slot by slot.
-/

namespace Sched

namespace Kernel

def table (k : Kernel) : Table where
  state := fun i => (k.list i).state
  sleep := fun i => (k.list i).ticksToSleep
  current := k.current

end Kernel

namespace doSleepAndAlarmAccount

variable {k : Kernel} {c : Context} {i : Slot}

def reload (c : Context) : Context :=
  if 0 < c.ticksToAlarm then
    if c.ticksToAlarm - 1 = 0 then
      { c with ticksToAlarm := c.alarmConfigTime }
    else
      { c with ticksToAlarm := c.ticksToAlarm - 1 }
  else
    c

def Rings (c : Context) : Prop :=
  c.ticksToAlarm = 1 ∧ c.state = .running

instance : Decidable (Rings c) :=
  inferInstanceAs (Decidable (_ ∧ _))

-- the context in the PCB after the signal was delivered
def signalled (c : Context) : Context :=
  { c with regs := { c.regs with
      entryRsp := c.regs.entryRsp - 8
      entryRip := c.sighandlers sigalrm } }

def account (c : Context) : Context :=
  if Rings (wake c) then
    signalled (reload (wake c))
  else
    reload (wake c)

def accountMem (c : Context) (mem : Memory) : Memory :=
  if Rings (wake c) then
    mem.store (c.regs.entryRsp - 8) c.regs.entryRip
  else
    mem

theorem wake_eq
    : wake c = { c with
        ticksToSleep := c.ticksToSleep - 1
        state := if c.ticksToSleep = 1 then .ready else c.state } := by
  unfold wake
  split
  . split
    . have : c.ticksToSleep = 1 := by omega
      simp only [this, ↓reduceIte]
    . have : c.ticksToSleep ≠ 1 := by omega
      simp only [this, ↓reduceIte]
  . have : c.ticksToSleep = 0 := by omega
    cases c
    simp_all

theorem reload_eq
    : reload c = { c with
        ticksToAlarm := if c.ticksToAlarm = 1 then c.alarmConfigTime else c.ticksToAlarm - 1 } := by
  unfold reload
  split
  . split
    . have : c.ticksToAlarm = 1 := by omega
      simp only [this, ↓reduceIte]
    . have : c.ticksToAlarm ≠ 1 := by omega
      simp only [this, ↓reduceIte]
  . have : c.ticksToAlarm = 0 := by omega
    cases c
    simp_all

theorem alarm_eq (hcur : (k.list i).state = .running → i = k.current)
    : alarm i k
        =
      { k with
        list := Function.update k.list i
          (if Rings (k.list i) then signalled (reload (k.list i)) else reload (k.list i))
        mem := if Rings (k.list i) then
            k.mem.store ((k.list i).regs.entryRsp - 8) (k.list i).regs.entryRip
          else
            k.mem } := by
  unfold alarm reload Rings
  by_cases hpos : 0 < (k.list i).ticksToAlarm
  . by_cases hone : (k.list i).ticksToAlarm - 1 = 0
    . have hval : (k.list i).ticksToAlarm = 1 := by omega
      by_cases hrun : (k.list i).state = .running
      . have heq := hcur hrun
        subst heq
        simp [hval, hrun, invokeSyncSignal, Kernel.setCtx, Kernel.cur, signalled]
      . simp [hval, hrun, Kernel.setCtx]
    . have hval : (k.list i).ticksToAlarm ≠ 1 := by omega
      simp [hpos, hone, hval, Kernel.setCtx]
  . have hval : (k.list i).ticksToAlarm ≠ 1 := by omega
    simp [hpos, hval]

theorem body_eq (hcur : (wake (k.list i)).state = .running → i = k.current)
    : body k i
        =
      { k with
        list := Function.update k.list i (account (k.list i))
        mem := accountMem (k.list i) k.mem } := by
  unfold body account accountMem
  rw [alarm_eq]
  . simp [Kernel.setCtx, wake_eq]
  . simpa [Kernel.setCtx] using hcur

end doSleepAndAlarmAccount

open doSleepAndAlarmAccount

variable {k : Kernel}

theorem Table.Steady.wake_running (h : k.table.Steady) (i : Slot) (hrun : (wake (k.list i)).state = .running)
    : i = k.current := by
  apply h.only
  rw [wake_eq] at hrun
  by_cases hone : (k.list i).ticksToSleep = 1
  . simp [hone] at hrun
  . simpa [hone, Kernel.table] using hrun

@[simp]
theorem account_state (c : Context)
    : (account c).state = if c.ticksToSleep = 1 then .ready else c.state := by
  unfold account
  split <;> simp [signalled, reload_eq, wake_eq]

@[simp]
theorem account_ticksToSleep (c : Context) : (account c).ticksToSleep = c.ticksToSleep - 1 := by
  unfold account
  split <;> simp [signalled, reload_eq, wake_eq]

@[simp]
theorem account_pid (c : Context) : (account c).pid = c.pid := by
  unfold account
  split <;> simp [signalled, reload_eq, wake_eq]

@[simp]
theorem account_osStackPfn (c : Context) : (account c).osStackPfn = c.osStackPfn := by
  unfold account
  split <;> simp [signalled, reload_eq, wake_eq]

@[simp]
theorem account_ticksToAlarm (c : Context)
    : (account c).ticksToAlarm = if c.ticksToAlarm = 1 then c.alarmConfigTime else c.ticksToAlarm - 1 := by
  unfold account
  split <;> simp [signalled, reload_eq, wake_eq]

theorem account_regs (c : Context)
    : (account c).regs
        =
      if Rings (wake c) then
        { c.regs with entryRsp := c.regs.entryRsp - 8, entryRip := c.sighandlers sigalrm }
      else
        c.regs := by
  unfold account
  split <;> simp [signalled, reload_eq, wake_eq]

theorem doSleepAndAlarmAccount_eq (h : k.table.Steady)
    : doSleepAndAlarmAccount k
        =
      { k with
        list := fun i => account (k.list i)
        mem := accountMem k.cur k.mem } := by
  -- before pass n the slots below n are accounted for, and the memory as soon as the current one is
  let P : Nat → Kernel → Prop := fun n s =>
    s = { k with
      list := fun i => if i.val < n then account (k.list i) else k.list i
      mem := if k.current.val < n then accountMem k.cur k.mem else k.mem }
  have hrun : P maxProcesses (doSleepAndAlarmAccount k) := by
    apply Loop.foldl_range_inv (P := P)
    . intro i s hs
      have hlist : s.list i = k.list i := by
        rw [hs]
        simp
      have hbody : body s i = { s with
          list := Function.update s.list i (account (k.list i))
          mem := accountMem (k.list i) s.mem } := by
        rw [← hlist]
        apply body_eq
        rw [hlist, hs]
        exact h.wake_running i
      simp only [P]
      rw [hbody, hs]
      simp only [Kernel.mk.injEq, and_true, true_and]
      constructor
      . funext j
        by_cases hj : j = i
        . subst hj
          simp
        . have hne : j.val ≠ i.val := fun heq => hj (Fin.ext heq)
          have hiff : j.val < i.val + 1 ↔ j.val < i.val := by omega
          simp only [Function.update_of_ne hj, hiff]
      . by_cases hi : i = k.current
        . subst hi
          simp [Kernel.cur]
        . have hne : k.current.val ≠ i.val := fun heq => hi (Fin.ext heq.symm)
          have hiff : k.current.val < i.val + 1 ↔ k.current.val < i.val := by omega
          have hrings : ¬ Rings (wake (k.list i)) := fun hr => hi (h.wake_running i hr.2)
          simp only [accountMem, hrings, ↓reduceIte, hiff]
    . simp [P]
  rw [hrun]
  simp

namespace handleTimerTick

-- what the handler leaves in the context before it does anything else
def entered (k : Kernel) : Context :=
  { k.cur with regs := { k.cur.regs with
      rbp := k.cpu.rbp
      entryRsp := k.cpu.entryRsp
      entryRip := k.cpu.entryRip } }

theorem prepare_eq (h : k.table.Steady)
    : prepare k
        =
      { k with
        list := fun i => account (Function.update k.list k.current (entered k) i)
        mem := accountMem (entered k) k.mem
        stackToFree := 0
        pfnUsed := if k.stackToFree = 0 then k.pfnUsed else Function.update k.pfnUsed k.stackToFree false
        freed := if k.stackToFree = 0 then k.freed else k.stackToFree :: k.freed } := by
  have hkeep : ∀ (j : Kernel), j.list = Function.update k.list k.current (entered k)
      → j.current = k.current → j.table.Steady := by
    intro j hlist hcurrent
    have hstate : ∀ (i : Slot), (j.list i).state = (k.list i).state := by
      intro i
      rw [hlist]
      by_cases hi : i = k.current
      . subst hi
        simp [entered, Kernel.cur]
      . simp [hi]
    have hsleep : ∀ (i : Slot), (j.list i).ticksToSleep = (k.list i).ticksToSleep := by
      intro i
      rw [hlist]
      by_cases hi : i = k.current
      . subst hi
        simp [entered, Kernel.cur]
      . simp [hi]
    have htable : j.table = k.table := by
      simp only [Kernel.table, hstate, hsleep, hcurrent]
    rw [htable]
    exact h
  unfold prepare
  by_cases hfree : k.stackToFree = 0
  . simp only [Kernel.setCtx, hfree, ne_eq, not_true_eq_false, ↓reduceIte]
    rw [doSleepAndAlarmAccount_eq]
    . simp [Kernel.cur, entered, rbpPoint]
    . apply hkeep
      . rfl
      . rfl
  . simp only [Kernel.setCtx, hfree, ne_eq, not_false_eq_true, ↓reduceIte, osPfnFree]
    rw [doSleepAndAlarmAccount_eq]
    . simp [Kernel.cur, entered, rbpPoint]
    . apply hkeep
      . rfl
      . rfl

@[simp]
theorem prepare_current (h : k.table.Steady) : (prepare k).current = k.current := by
  rw [prepare_eq h]

@[simp]
theorem prepare_cpu (h : k.table.Steady) : (prepare k).cpu = k.cpu := by
  rw [prepare_eq h]

theorem prepare_pid (h : k.table.Steady) (i : Slot) : ((prepare k).list i).pid = (k.list i).pid := by
  rw [prepare_eq h]
  by_cases hi : i = k.current
  . subst hi
    simp [entered, Kernel.cur]
  . simp [hi]

theorem prepare_osStackPfn (h : k.table.Steady) (i : Slot)
    : ((prepare k).list i).osStackPfn = (k.list i).osStackPfn := by
  rw [prepare_eq h]
  by_cases hi : i = k.current
  . subst hi
    simp [entered, Kernel.cur]
  . simp [hi]

theorem prepare_regs (h : k.table.Steady) (i : Slot) (hi : i ≠ k.current)
    : ((prepare k).list i).regs = (k.list i).regs := by
  have hrings : ¬ Rings (wake (k.list i)) := fun hr => hi (h.wake_running i hr.2)
  rw [prepare_eq h]
  simp only [Function.update_of_ne hi, account_regs, hrings, ↓reduceIte]

theorem prepare_table (h : k.table.Steady) : (prepare k).table = k.table.woken := by
  rw [prepare_eq h]
  simp only [Kernel.table, Table.woken, Table.mk.injEq, and_true]
  constructor
  . funext i
    by_cases hi : i = k.current
    . subst hi
      simp only [Function.update_self, account_state, entered, Kernel.cur]
      rfl
    . simp only [Function.update_of_ne hi, account_state]
      rfl
  . funext i
    by_cases hi : i = k.current
    . subst hi
      simp [entered, Kernel.cur]
    . simp [hi]

end handleTimerTick

end Sched
