import CS330.Sched.Basic

/-!
This module contains the switching of contexts in `schedule.c`: saving and restoring registers, the choice
of the next process and the accounting of sleeping processes and alarms.
-/

namespace Sched

-- `save_current_context`. The words at `rsp_bak` and `rbp_bak` on the OS stack are given as functions of
-- their index.
def saveCurrentContext (state : ProcessState) (rspPoint rbpPoint : Nat → U64) (skipRax : Bool) (k : Kernel)
    : Kernel :=
  let regs : UserRegs := {
    rbp := rbpPoint 0
    entryRip := rbpPoint 1
    entryCs := rbpPoint 2
    entryRflags := rbpPoint 3
    entryRsp := rbpPoint 4
    entrySs := rbpPoint 5
    r15 := rspPoint 0
    r14 := rspPoint 1
    r13 := rspPoint 2
    r12 := rspPoint 3
    r11 := rspPoint 4
    r10 := rspPoint 5
    r9 := rspPoint 6
    r8 := rspPoint 7
    rdi := rspPoint 8
    rsi := rspPoint 9
    rdx := rspPoint 10
    rcx := rspPoint 11
    rbx := rspPoint 12
    rax := if skipRax then k.cur.regs.rax else rspPoint 13 }
  k.setCtx k.current { k.cur with state := state, regs := regs }

-- `schedule_context`, up to the `iretq` into `next`
def scheduleContext (next : Slot) (k : Kernel) : Kernel :=
  let k := k.setCtx next { k.list next with state := .running }
  { k with current := next, cpu := (k.list next).regs }

-- the indices of `for (i = lo; i < hi; i++)`
def slots (lo hi : Nat) : List Slot :=
  (Loop.range maxProcesses).filter (fun i => decide (lo ≤ i.val ∧ i.val < hi))

def firstIn (list : Slot → Context) (state : ProcessState) (lo hi : Nat) : Option Slot :=
  (slots lo hi).find? (fun i => decide ((list i).state = state))

-- `none` when `do_cleanup` is called
def pickNextContext (list : Slot → Context) : Option Slot :=
  match firstIn list .running 1 maxProcesses with
  | none =>
    match firstIn list .ready 1 maxProcesses with
    | some i => some i
    | none =>
      match firstIn list .waiting 1 maxProcesses with
      | some _ => some 0
      | none => none
  | some running =>
    match firstIn list .ready (running + 1) maxProcesses with
    | some i => some i
    | none =>
      match firstIn list .ready 1 running with
      | some i => some i
      | none => some running

def waitingProcExists (list : Slot → Context) : Bool :=
  (firstIn list .waiting 1 maxProcesses).isSome

/--
`invoke_sync_signal`, with `*ustackp`, `*urip` and the user memory after the call, or `none` when it ends
in `do_exit`. Without a handler an alarm is not ignored: it goes to the null pointer.
-/
def invokeSyncSignal (signo : Fin maxSignals) (rsp rip : U64) (k : Kernel) : Option (U64 × U64 × Memory) :=
  if k.cur.sighandlers signo = 0 ∧ signo ≠ sigalrm then
    none
  else
    some (rsp - 8, k.cur.sighandlers signo, k.mem.store (rsp - 8) rip)

namespace doSleepAndAlarmAccount

def wake (c : Context) : Context :=
  if 0 < c.ticksToSleep then
    if c.ticksToSleep - 1 = 0 then
      { c with ticksToSleep := c.ticksToSleep - 1, state := .ready }
    else
      { c with ticksToSleep := c.ticksToSleep - 1 }
  else
    c

def alarm (i : Slot) (k : Kernel) : Kernel :=
  let c := k.list i
  if 0 < c.ticksToAlarm then
    if c.ticksToAlarm - 1 = 0 then
      let k := k.setCtx i { c with ticksToAlarm := c.alarmConfigTime }
      if c.state = .running then
        match invokeSyncSignal sigalrm c.regs.entryRsp c.regs.entryRip k with
        | some (rsp, rip, mem) =>
          let c := k.list i
          { k.setCtx i { c with regs := { c.regs with entryRsp := rsp, entryRip := rip } } with mem := mem }
        -- does not happen for this signal
        | none => k
      else
        k
    else
      k.setCtx i { c with ticksToAlarm := c.ticksToAlarm - 1 }
  else
    k

def body (k : Kernel) (i : Slot) : Kernel :=
  alarm i (k.setCtx i (wake (k.list i)))

end doSleepAndAlarmAccount

def doSleepAndAlarmAccount (k : Kernel) : Kernel :=
  (Loop.range maxProcesses).foldl doSleepAndAlarmAccount.body k

end Sched
