import CS330.Sched.Impl.Name
import CS330.Sched.Impl.Schedule

/-!
This module contains the entries into `schedule.c`: the timer interrupt and the system calls.
-/

namespace Sched

-- `os_pfn_free(OS_PT_REG, pfn)`
def osPfnFree (pfn : U32) (k : Kernel) : Kernel :=
  { k with pfnUsed := Function.update k.pfnUsed pfn false, freed := pfn :: k.freed }

namespace handleTimerTick

-- what the interrupt and the prologue of the handler put above `rbp`
def rbpPoint (u : UserRegs) : Nat → U64
  | 0 => u.rbp
  | 1 => u.entryRip
  | 2 => u.entryCs
  | 3 => u.entryRflags
  | 4 => u.entryRsp
  | 5 => u.entrySs
  | _ => 0

-- what the handler itself pushes, the last word first
def rspPoint (u : UserRegs) : Nat → U64
  | 0 => u.r15
  | 1 => u.r14
  | 2 => u.r13
  | 3 => u.r12
  | 4 => u.r11
  | 5 => u.r10
  | 6 => u.r9
  | 7 => u.r8
  | 8 => u.rdi
  | 9 => u.rsi
  | 10 => u.rdx
  | 11 => u.rcx
  | 12 => u.rbx
  | 13 => u.rax
  | _ => 0

-- up to the choice of the next process
def prepare (k : Kernel) : Kernel :=
  let k := k.setCtx k.current { k.cur with regs := { k.cur.regs with
    rbp := rbpPoint k.cpu 0, entryRsp := rbpPoint k.cpu 4, entryRip := rbpPoint k.cpu 1 } }
  let k := if k.stackToFree ≠ 0 then { osPfnFree k.stackToFree k with stackToFree := 0 } else k
  doSleepAndAlarmAccount k

-- RIP and RSP are taken from the context, everything else from the frame
def finish (next : Slot) (k : Kernel) : Kernel :=
  if (k.list next).pid = k.cur.pid then
    { k with cpu := { k.cpu with entryRip := k.cur.regs.entryRip, entryRsp := k.cur.regs.entryRsp } }
  else
    scheduleContext next (saveCurrentContext .ready (rspPoint k.cpu) (rbpPoint k.cpu) false k)

end handleTimerTick

def handleTimerTick (k : Kernel) : Except Fault Kernel :=
  let k := handleTimerTick.prepare k
  match pickNextContext k.list with
  | none => .error .cleanup
  | some next => .ok (handleTimerTick.finish next k)

def doExit (k : Kernel) : Except Fault Kernel :=
  match pickNextContext k.list with
  | none => .error .cleanup
  | some next =>
    let k := { k with stackToFree := k.cur.osStackPfn }
    let k := k.setCtx k.current { k.cur with state := .unused }
    if (k.list next).pid ≠ k.cur.pid then
      .ok (scheduleContext next k)
    else if waitingProcExists k.list then
      .ok (scheduleContext 0 k)
    else
      .error .cleanup

namespace doSleep

-- the words from `os_rsp` on as the system call entry leaves them
def frame (u : UserRegs) : Nat → U64
  | 2 => u.r15
  | 3 => u.r14
  | 4 => u.r13
  | 5 => u.r12
  | 6 => u.r11
  | 7 => u.r10
  | 8 => u.r9
  | 9 => u.r8
  | 10 => u.rbp
  | 11 => u.rdi
  | 12 => u.rsi
  | 13 => u.rdx
  | 14 => u.rcx
  | 15 => u.rbx
  | 16 => u.entryRip
  | 17 => u.entryCs
  | 18 => u.entryRflags
  | 19 => u.entryRsp
  | 20 => u.entrySs
  | _ => 0

-- brought into the order that the timer interrupt has
def rearrange (osRsp : Nat → U64) : Nat → U64 :=
  let rbpBak := osRsp 10
  let osRsp := Function.update osRsp 10 (osRsp 11)
  let osRsp := Function.update osRsp 11 (osRsp 12)
  let osRsp := Function.update osRsp 12 (osRsp 13)
  let osRsp := Function.update osRsp 13 (osRsp 14)
  let osRsp := Function.update osRsp 14 (osRsp 15)
  Function.update osRsp 15 rbpBak

end doSleep

def doSleep (ticks : Nat) (k : Kernel) : Except Fault Kernel :=
  let k := k.setCtx k.current { k.cur with ticksToSleep := ticks }
  let osRsp := doSleep.rearrange (doSleep.frame k.cpu)
  let k := saveCurrentContext .waiting (fun i => osRsp (2 + i)) (fun i => osRsp (15 + i)) true k
  match pickNextContext k.list with
  | none => .error .cleanup
  | some next => .ok (scheduleContext next k)

/--
What `do_clone` gets from elsewhere: the results of `get_new_ctx` and `os_pfn_alloc`, and what its local
buffers hold. The system calls below return no value, so that `rax` is whatever is left there.
-/
structure CloneEnv where
  newCtx : Option Slot
  pfn : U32
  name : Buf cnameMax
  pid : Buf cnameMax

-- `get_new_ctx` has set the pid and the state of the context that it returns
def doClone (thFunc userStack : U64) (env : CloneEnv) (rax : U64) (k : Kernel) : Except Fault Kernel :=
  match env.newCtx with
  | none => .error .nullPointer
  | some i => do
    let k := k.setCtx i { k.list i with pid := i, state := .new }
    let k := { k with pfnUsed := Function.update k.pfnUsed env.pfn true }
    let new := k.list i
    let name ← cloneName k.cur.name k.cur.pid env.name env.pid new.name
    let new := { new with
      type := k.cur.type
      usedMem := k.cur.usedMem
      pgd := k.cur.pgd
      osRsp := k.cur.osRsp
      mms := k.cur.mms
      sighandlers := k.cur.sighandlers
      pendingSignalBitmap := 0
      ticksToSleep := 0
      alarmConfigTime := 0
      ticksToAlarm := 0
      osStackPfn := env.pfn
      name := name
      -- the flags of the caller are in the hardware frame at the top of its OS stack
      regs := { k.cur.regs with
        entryRip := thFunc
        entryCs := 0x23
        entryRsp := userStack
        entrySs := 0x2B
        rbp := userStack
        entryRflags := k.cpu.entryRflags }
      state := .ready }
    return { k.setCtx i new with cpu := { k.cpu with rax := rax } }

def doSignal (signo : Int) (handler : U64) (rax : U64) (k : Kernel) : Except Fault Kernel :=
  if h : 0 ≤ signo ∧ signo < maxSignals then
    let s : Fin maxSignals := ⟨signo.toNat, by omega⟩
    let k := k.setCtx k.current { k.cur with sighandlers := Function.update k.cur.sighandlers s handler }
    .ok { k with cpu := { k.cpu with rax := rax } }
  else
    .error .outOfBounds

def doAlarm (ticks : Nat) (rax : U64) (k : Kernel) : Except Fault Kernel :=
  let k := k.setCtx k.current { k.cur with alarmConfigTime := ticks, ticksToAlarm := ticks }
  .ok { k with cpu := { k.cpu with rax := rax } }

end Sched
