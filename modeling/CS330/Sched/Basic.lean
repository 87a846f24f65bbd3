import CS330.Lib.Loop
import CS330.Lib.Memory
import Mathlib.Algebra.GroupWithZero.Nat

/-!
This module contains the data model of the scheduler in `gemOS-a3`: the records of `context.h` and
`schedule.h`, the registers and the user memory that the kernel finds when it is entered, and the frames
that it hands out as OS stacks.
-/

namespace Sched

abbrev U64 := BitVec 64
abbrev U32 := BitVec 32

abbrev cnameMax : Nat := 64
abbrev maxProcesses : Nat := 16
abbrev maxMmSegs : Nat := 4
abbrev maxSignals : Nat := 3

-- Index into the context list. The swapper has index 0.
abbrev Slot := Fin maxProcesses

instance maxProcesses_neZero : NeZero maxProcesses := ⟨by decide⟩

inductive ProcessState where
  | unused
  | new
  | ready
  | running
  | waiting
  | exiting
  deriving DecidableEq, Repr

abbrev sigsegv : Fin maxSignals := 0
abbrev sigfpe : Fin maxSignals := 1
abbrev sigalrm : Fin maxSignals := 2

structure MmSegment where
  start : U64
  stop : U64
  nextFree : U64
  accessFlags : U32

structure UserRegs where
  r15 : U64
  r14 : U64
  r13 : U64
  r12 : U64
  r11 : U64
  r10 : U64
  r9 : U64
  r8 : U64
  rbp : U64
  rdi : U64
  rsi : U64
  rdx : U64
  rcx : U64
  rbx : U64
  rax : U64
  entryRip : U64
  entryCs : U64
  entryRflags : U64
  entryRsp : U64
  entrySs : U64
  deriving DecidableEq, Repr

-- `struct exec_context`; a null handler is 0, and the three tick counters never exceed what they are set to
structure Context where
  pid : Nat
  type : BitVec 8
  state : ProcessState
  usedMem : BitVec 16
  pgd : U32
  osStackPfn : U32
  osRsp : U64
  mms : Fin maxMmSegs → MmSegment
  name : Buf cnameMax
  regs : UserRegs
  pendingSignalBitmap : U32
  sighandlers : Fin maxSignals → U64
  ticksToSleep : Nat
  alarmConfigTime : Nat
  ticksToAlarm : Nat

/--
The machine between two entries into the kernel: `cpu` holds the registers of the current process in user
mode, `pfnUsed` the frames of `OS_PT_REG` that are allocated, `freed` the frames that were given back,
the latest first.
-/
structure Kernel where
  list : Slot → Context
  current : Slot
  stackToFree : U32
  cpu : UserRegs
  mem : Memory
  pfnUsed : U32 → Bool
  freed : List U32

-- Ways not to come back: the machine was shut down by `do_cleanup`, or undefined behaviour.
inductive Fault where
  | cleanup
  | nullPointer
  | outOfBounds
  | overflow
  deriving DecidableEq, Repr

namespace Kernel

def setCtx (k : Kernel) (i : Slot) (c : Context) : Kernel :=
  { k with list := Function.update k.list i c }

-- `get_current_ctx()`
def cur (k : Kernel) : Context :=
  k.list k.current

end Kernel

end Sched
