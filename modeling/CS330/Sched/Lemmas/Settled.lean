import CS330.Sched.Boot

/-!
This module contains what ticks, sleeping and exiting leave alone in every context, whatever the table of
contexts looks like: only a clone, `do_signal` and `do_alarm` set the rest.
-/

namespace Sched

-- a context without what the scheduler itself changes
def Context.settled (c : Context) : Context :=
  { c with state := .unused, regs := noRegs, ticksToSleep := 0, ticksToAlarm := 0 }

def Kernel.settled (k : Kernel) : Slot → Context :=
  fun i => (k.list i).settled

-- the calls that set up a part of a context
def Call.Configures : Call → Prop
  | .clone _ _ _ _ => True
  | .signal _ _ _ => True
  | .alarm _ _ => True
  | _ => False

variable {k k' : Kernel} {c : Call} {next : Slot}

@[simp]
theorem Kernel.settled_pid (k : Kernel) (i : Slot) : (k.settled i).pid = (k.list i).pid := rfl

@[simp]
theorem Kernel.settled_name (k : Kernel) (i : Slot) : (k.settled i).name = (k.list i).name := rfl

@[simp]
theorem Kernel.settled_sighandlers (k : Kernel) (i : Slot)
    : (k.settled i).sighandlers = (k.list i).sighandlers := rfl

@[simp]
theorem Kernel.settled_alarmConfigTime (k : Kernel) (i : Slot)
    : (k.settled i).alarmConfigTime = (k.list i).alarmConfigTime := rfl

theorem Kernel.settled_setCtx (i : Slot) (new : Context) (hnew : new.settled = (k.list i).settled)
    : (k.setCtx i new).settled = k.settled := by
  funext j
  by_cases hj : j = i
  . subst hj
    simp [settled, setCtx, hnew]
  . simp [settled, setCtx, hj]

theorem scheduleContext_settled (k : Kernel) : (scheduleContext next k).settled = k.settled := by
  apply Kernel.settled_setCtx
  rfl

theorem saveCurrentContext_settled (state : ProcessState) (rspPoint rbpPoint : Nat → U64) (skipRax : Bool)
    (k : Kernel)
    : (saveCurrentContext state rspPoint rbpPoint skipRax k).settled = k.settled := by
  apply Kernel.settled_setCtx
  rfl

namespace doSleepAndAlarmAccount

theorem wake_settled (c : Context) : (wake c).settled = c.settled := by
  rw [wake_eq]
  rfl

theorem alarm_settled (i : Slot) (k : Kernel) : (alarm i k).settled = k.settled := by
  unfold alarm
  simp only
  split
  . split
    . have hreload : (k.setCtx i { k.list i with ticksToAlarm := (k.list i).alarmConfigTime }).settled = k.settled := by
        apply Kernel.settled_setCtx
        rfl
      split
      . split
        . next rsp rip mem hsignal =>
          rw [← hreload]
          apply Kernel.settled_setCtx
          rfl
        . exact hreload
      . exact hreload
    . apply Kernel.settled_setCtx
      rfl
  . rfl

theorem body_settled (k : Kernel) (i : Slot) : (body k i).settled = k.settled := by
  rw [body, alarm_settled]
  apply Kernel.settled_setCtx
  apply wake_settled

end doSleepAndAlarmAccount

theorem doSleepAndAlarmAccount_settled (k : Kernel) : (doSleepAndAlarmAccount k).settled = k.settled := by
  unfold doSleepAndAlarmAccount
  generalize Loop.range maxProcesses = is
  induction is generalizing k with
  | nil => rfl
  | cons i is ih => rw [List.foldl_cons, ih, doSleepAndAlarmAccount.body_settled]

theorem handleTimerTick.prepare_settled (k : Kernel) : (prepare k).settled = k.settled := by
  unfold prepare
  simp only
  rw [doSleepAndAlarmAccount_settled]
  split
  . apply Kernel.settled_setCtx
    rfl
  . apply Kernel.settled_setCtx
    rfl

theorem handleTimerTick_settled (hok : handleTimerTick k = .ok k') : k'.settled = k.settled := by
  unfold handleTimerTick at hok
  simp only at hok
  rw [← handleTimerTick.prepare_settled k]
  generalize handleTimerTick.prepare k = p at *
  split at hok
  . cases hok
  . simp only [Except.ok.injEq] at hok
    rw [← hok, handleTimerTick.finish]
    split
    . rfl
    . rw [scheduleContext_settled, saveCurrentContext_settled]

theorem doSleep_settled {ticks : Nat} (hok : doSleep ticks k = .ok k') : k'.settled = k.settled := by
  have hsuspend : (k.suspendBySleep ticks).settled = k.settled := by
    rw [Kernel.suspendBySleep, saveCurrentContext_settled]
    apply Kernel.settled_setCtx
    rfl
  rw [doSleep_eq] at hok
  split at hok
  . cases hok
  . simp only [Except.ok.injEq] at hok
    rw [← hok, scheduleContext_settled, hsuspend]

theorem doExit_settled (hok : doExit k = .ok k') : k'.settled = k.settled := by
  have hdismiss : k.dismiss.settled = k.settled := by
    apply Kernel.settled_setCtx
    rfl
  rw [doExit_eq] at hok
  split at hok
  . cases hok
  . split at hok
    . simp only [Except.ok.injEq] at hok
      rw [← hok, scheduleContext_settled, hdismiss]
    . split at hok
      . simp only [Except.ok.injEq] at hok
        rw [← hok, scheduleContext_settled, hdismiss]
      . cases hok

theorem Call.settled (hok : c.exec k = .ok k') (hc : ¬ c.Configures) : k'.settled = k.settled := by
  cases c with
  | user cpu mem =>
    simp only [Call.exec, Except.ok.injEq] at hok
    rw [← hok]
    rfl
  | tick => exact handleTimerTick_settled hok
  | sleep ticks => exact doSleep_settled hok
  | exit => exact doExit_settled hok
  | _ => exact absurd trivial hc

end Sched
