import CS330.Lib.Run
import CS330.Sched.Impl.Calls

/-!
This module contains the runs of the machine: the current process executes in user mode, and the kernel is
entered by timer ticks and system calls.
-/

namespace Sched

inductive Call where
  | user (cpu : UserRegs) (mem : Memory)
  | tick
  | sleep (ticks : Nat)
  | exit
  | clone (thFunc userStack : U64) (env : CloneEnv) (rax : U64)
  | signal (signo : Int) (handler : U64) (rax : U64)
  | alarm (ticks : Nat) (rax : U64)

namespace Call

def exec (k : Kernel) : Call → Except Fault Kernel
  | .user cpu mem => .ok { k with cpu := cpu, mem := mem }
  | .tick => handleTimerTick k
  | .sleep ticks => doSleep ticks k
  | .exit => doExit k
  | .clone thFunc userStack env rax => doClone thFunc userStack env rax k
  | .signal signo handler rax => doSignal signo handler rax k
  | .alarm ticks rax => doAlarm ticks rax k

-- the calls that a process makes by itself
def IsSyscall : Call → Prop
  | .user _ _ => False
  | .tick => False
  | _ => True

-- the context of a new process
def Creates (i : Slot) : Call → Prop
  | .clone _ _ env _ => env.newCtx = some i
  | _ => False

end Call

/-- What `get_new_ctx` and `os_pfn_alloc` promise: an unused context and an unused frame. -/
structure CloneEnv.Honest (env : CloneEnv) (k : Kernel) : Prop where
  unused : ∀ (i : Slot), env.newCtx = some i → (k.list i).state = .unused ∧ i ≠ 0
  fresh : k.pfnUsed env.pfn = false
  pfn_ne : env.pfn ≠ 0

-- The swapper makes no system calls.
def Call.Allowed (k : Kernel) : Call → Prop
  | .user _ _ => True
  | .tick => True
  | .clone _ _ env _ => k.current ≠ 0 ∧ env.Honest k
  | _ => k.current ≠ 0

def Step (k : Kernel) (c : Call) (k' : Kernel) : Prop :=
  c.Allowed k ∧ c.exec k = .ok k'

end Sched
