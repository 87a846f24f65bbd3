import CS330.Sched.Lemmas.Frame

/-!
This module contains the machine as it is started, with init as the only process besides the swapper, and the
execution of a list of calls on it.
-/

namespace Sched

instance (env : CloneEnv) (k : Kernel) : Decidable (env.Honest k) :=
  decidable_of_iff
    ((∀ (i : Slot), env.newCtx = some i → (k.list i).state = .unused ∧ i ≠ 0)
      ∧ k.pfnUsed env.pfn = false ∧ env.pfn ≠ 0)
    ⟨fun h => ⟨h.1, h.2.1, h.2.2⟩, fun h => ⟨h.unused, h.fresh, h.pfn_ne⟩⟩

instance (k : Kernel) (c : Call) : Decidable (c.Allowed k) :=
  match c with
  | .user _ _ => inferInstanceAs (Decidable True)
  | .tick => inferInstanceAs (Decidable True)
  | .clone _ _ env _ => inferInstanceAs (Decidable (k.current ≠ 0 ∧ env.Honest k))
  | .sleep _ => inferInstanceAs (Decidable (k.current ≠ 0))
  | .exit => inferInstanceAs (Decidable (k.current ≠ 0))
  | .signal _ _ _ => inferInstanceAs (Decidable (k.current ≠ 0))
  | .alarm _ _ => inferInstanceAs (Decidable (k.current ≠ 0))

def execAll : List Call → Kernel → Option Kernel
  | [], k => some k
  | c :: cs, k =>
    if c.Allowed k then
      match c.exec k with
      | .ok k => execAll cs k
      | .error _ => none
    else
      none

theorem run_of_execAll {k k' : Kernel} {cs : List Call} (h : execAll cs k = some k') : Run Step k cs k' := by
  have hgo : ∀ (cs : List Call) (l : List Call) (p : Kernel), Run Step k l p → execAll cs p = some k'
      → Run Step k (l ++ cs) k' := by
    intro cs
    induction cs with
    | nil =>
      intro l p hrun hexec
      simp only [execAll, Option.some.injEq] at hexec
      rw [List.append_nil, ← hexec]
      exact hrun
    | cons c cs ih =>
      intro l p hrun hexec
      simp only [execAll] at hexec
      split at hexec
      . next hallowed =>
        split at hexec
        . next q hok =>
          have := ih (l ++ [c]) q (.snoc hrun ⟨hallowed, hok⟩) hexec
          rw [List.append_assoc] at this
          exact this
        . cases hexec
      . cases hexec
  exact hgo cs [] k .nil h

theorem exists_run {k : Kernel} {l : List Call} {p : Kernel → Bool} (h : (execAll l k).any p = true)
    : ∃ (k' : Kernel), Run Step k l k' ∧ p k' = true := by
  rw [Option.any_eq_true] at h
  obtain ⟨k', hexec, hp⟩ := h
  exact ⟨k', run_of_execAll hexec, hp⟩

theorem exists_step {k : Kernel} {c : Call} {p : Kernel → Bool} (h : (execAll [c] k).any p = true)
    : ∃ (k' : Kernel), Step k c k' ∧ p k' = true := by
  simp only [Option.any_eq_true, execAll] at h
  obtain ⟨k', hexec, hp⟩ := h
  refine ⟨k', ?_, hp⟩
  split at hexec
  . next hallowed =>
    split at hexec
    . next q hok =>
      rw [Option.some.injEq] at hexec
      rw [← hexec]
      exact ⟨hallowed, hok⟩
    . cases hexec
  . cases hexec

def noRegs : UserRegs :=
  ⟨0, 0, 0, 0, 0, 0, 0, 0, 0, 0, 0, 0, 0, 0, 0, 0, 0, 0, 0, 0⟩

def blankContext : Context where
  pid := 0
  type := 0
  state := .unused
  usedMem := 0
  pgd := 0
  osStackPfn := 0
  osRsp := 0
  mms := fun _ => ⟨0, 0, 0, 0⟩
  name := Buf.zero cnameMax
  regs := noRegs
  pendingSignalBitmap := 0
  sighandlers := fun _ => 0
  ticksToSleep := 0
  alarmConfigTime := 0
  ticksToAlarm := 0

-- the swapper is ready, init is running, and nothing else is in use
def boot : Kernel where
  list := fun i =>
    if i = 0 then
      { blankContext with state := .ready, osStackPfn := 1 }
    else if i = 1 then
      { blankContext with pid := 1, state := .running, osStackPfn := 2 }
    else
      blankContext
  current := 1
  stackToFree := 0
  cpu := noRegs
  mem := fun _ => 0#8
  pfnUsed := fun pfn => decide (pfn = 1 ∨ pfn = 2)
  freed := []

theorem boot_sane : boot.Sane where
  steady := by
    constructor
    . decide
    . decide
    . decide
  pid := by decide

def cloneInto (i : Slot) (pfn : U32) : Call :=
  .clone 0x1000 0x2000 ⟨some i, pfn, Buf.zero cnameMax, Buf.zero cnameMax⟩ 0

-- init gets children in slots 2 and 3
def family : List Call :=
  [cloneInto 2 3, cloneInto 3 4]

end Sched
