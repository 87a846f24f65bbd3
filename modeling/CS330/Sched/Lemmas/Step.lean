import CS330.Sched.Lemmas.Account
import CS330.Sched.Lemmas.Pick

/-!
This module contains what a step of the machine can do. From a sane kernel every step has one of the
outcomes below, and the table of process states takes a step with it.
-/

namespace Sched

open Cyclic

namespace Kernel

-- A context that is in use has its index for a pid.
structure Sane (k : Kernel) : Prop where
  steady : k.table.Steady
  pid : ∀ (i : Slot), i = 0 ∨ (k.list i).state ≠ .unused → (k.list i).pid = i

def suspendByTick (k : Kernel) : Kernel :=
  saveCurrentContext .ready (handleTimerTick.rspPoint k.cpu) (handleTimerTick.rbpPoint k.cpu) false
    (handleTimerTick.prepare k)

def suspendBySleep (ticks : Nat) (k : Kernel) : Kernel :=
  let osRsp := doSleep.rearrange (doSleep.frame k.cpu)
  saveCurrentContext .waiting (fun i => osRsp (2 + i)) (fun i => osRsp (15 + i)) true
    (k.setCtx k.current { k.cur with ticksToSleep := ticks })

def dismiss (k : Kernel) : Kernel :=
  { k with
    stackToFree := k.cur.osStackPfn
    list := Function.update k.list k.current { k.cur with state := .unused } }

end Kernel

-- what a step from a sane kernel leads to
inductive Outcome (k : Kernel) : Call → Kernel → Prop where
  | user (cpu : UserRegs) (mem : Memory) : Outcome k (.user cpu mem) { k with cpu := cpu, mem := mem }
  | stay (hidle : ∀ (i : Slot), ¬ k.table.woken.Ready i)
      : Outcome k .tick { handleTimerTick.prepare k with
          cpu := { k.cpu with
            entryRip := (handleTimerTick.prepare k).cur.regs.entryRip
            entryRsp := (handleTimerTick.prepare k).cur.regs.entryRsp } }
  | preempt (next : Slot) (hnext : First k.table.woken.Ready k.current next)
      : Outcome k .tick (scheduleContext next k.suspendByTick)
  | sleep (ticks : Nat) (next : Slot) (hcur : k.current ≠ 0) (hnext : k.table.Chosen 0 next)
      : Outcome k (.sleep ticks) (scheduleContext next (k.suspendBySleep ticks))
  | exit (next : Slot) (hcur : k.current ≠ 0) (hnext : k.table.Chosen k.current next)
      : Outcome k .exit (scheduleContext next k.dismiss)
  | clone (thFunc userStack : U64) (env : CloneEnv) (rax : U64) (i : Slot) (new : Context)
      (hi : i ≠ 0) (hfree : (k.list i).state = .unused) (henv : env.Honest k) (hctx : env.newCtx = some i)
      (hnew : new.state = .ready ∧ new.ticksToSleep = 0 ∧ new.pid = i ∧ new.osStackPfn = env.pfn)
      : Outcome k (.clone thFunc userStack env rax)
          { k with
            list := Function.update k.list i new
            pfnUsed := Function.update k.pfnUsed env.pfn true
            cpu := { k.cpu with rax := rax } }
  | signal (signo : Int) (handler rax : U64) (s : Fin maxSignals)
      : Outcome k (.signal signo handler rax)
          { k.setCtx k.current { k.cur with sighandlers := Function.update k.cur.sighandlers s handler } with
            cpu := { k.cpu with rax := rax } }
  | alarm (ticks : Nat) (rax : U64)
      : Outcome k (.alarm ticks rax)
          { k.setCtx k.current { k.cur with alarmConfigTime := ticks, ticksToAlarm := ticks } with
            cpu := { k.cpu with rax := rax } }

variable {k k' : Kernel} {i next : Slot}

theorem IsReady_list : IsReady k.list = k.table.Ready := rfl

namespace Kernel.Sane

theorem pid_current (h : k.Sane) : k.cur.pid = k.current := by
  apply h.pid
  right
  have hrun : (k.list k.current).state = .running := h.steady.running
  rw [hrun]
  decide

theorem pid_ready (h : k.Sane) (hready : k.table.Ready i) : (k.list i).pid = i := by
  apply h.pid
  right
  have hstate : (k.list i).state = .ready := hready.2
  rw [hstate]
  decide

end Kernel.Sane

theorem Kernel.Sane.pid_woken (h : k.Sane) (hready : k.table.woken.Ready i) : (k.list i).pid = i := by
  apply h.pid
  right
  intro hunused
  have hstate := hready.2
  simp only [Table.woken] at hstate
  split at hstate
  . next hone =>
    have hwaiting : (k.list i).state = .waiting := by
      apply (h.steady.asleep i _).2
      omega
    rw [hunused] at hwaiting
    cases hwaiting
  . have hready : (k.list i).state = .ready := hstate
    rw [hunused] at hready
    cases hready

theorem handleTimerTick_cases (h : k.Sane) (hok : handleTimerTick k = .ok k') : Outcome k .tick k' := by
  have hstayed := Outcome.stay (k := k)
  have hpreempted := Outcome.preempt (k := k)
  have htable := handleTimerTick.prepare_table h.steady
  have hcurrent := handleTimerTick.prepare_current h.steady
  have hcpu := handleTimerTick.prepare_cpu h.steady
  have hpid := handleTimerTick.prepare_pid h.steady
  unfold Kernel.suspendByTick at hpreempted
  unfold handleTimerTick at hok
  generalize handleTimerTick.prepare k = p at *
  have hsteady : p.table.Steady := by
    rw [htable]
    exact h.steady.woken
  have hcurpid : p.cur.pid = k.current := by
    rw [Kernel.cur, hcurrent, hpid]
    exact h.pid_current
  have hstay : pickNextContext p.list = some k.current → (∀ (i : Slot), ¬ k.table.woken.Ready i)
      → Outcome k .tick k' := by
    intro hpick hidle
    simp only [hpick, Except.ok.injEq, handleTimerTick.finish] at hok
    rw [← hok, if_pos]
    . rw [hcpu]
      exact hstayed hidle
    . rw [hcurpid, hpid]
      exact h.pid_current
  have hpreempt : ∀ (next : Slot), pickNextContext p.list = some next
      → First k.table.woken.Ready k.current next → Outcome k .tick k' := by
    intro next hpick hnext
    have hne : next ≠ k.current := h.steady.woken.ne_current hnext.1
    simp only [hpick, Except.ok.injEq, handleTimerTick.finish] at hok
    rw [← hok, if_neg]
    . rw [hcpu]
      exact hpreempted next hnext
    . rw [hcurpid, hpid, h.pid_woken hnext.1]
      exact fun heq => hne (Fin.ext heq)
  by_cases hzero : k.current = 0
  . have hnone : ∀ (j : Slot), j ≠ 0 → (p.list j).state ≠ .running := by
      intro j hj hrun
      have heq : j = p.current := hsteady.only j hrun
      rw [hcurrent, hzero] at heq
      exact hj heq
    cases pickNextContext_restart hnone with
    | inl hfirst =>
      obtain ⟨next, hnext, hpick⟩ := hfirst
      rw [IsReady_list, htable, ← hzero] at hnext
      exact hpreempt next hpick hnext
    | inr hnot =>
      cases hnot with
      | inl hidle =>
        rw [IsReady_list, htable] at hidle
        apply hstay
        . rw [hzero]
          exact hidle.2.2
        . exact hidle.1
      | inr hdown =>
        simp only [hdown.2] at hok
        cases hok
  . have hrunning : (p.list k.current).state = .running := by
      rw [← hcurrent]
      exact hsteady.running
    have honly : ∀ (j : Slot), (p.list j).state = .running → j = k.current := by
      rw [← hcurrent]
      exact hsteady.only
    have hcases := pickNextContext_running hzero hrunning honly
    rw [IsReady_list, htable] at hcases
    cases hcases with
    | inl hfirst =>
      obtain ⟨next, hnext, hpick⟩ := hfirst
      exact hpreempt next hpick hnext
    | inr hidle => exact hstay hidle.2 hidle.1

theorem Kernel.suspendBySleep_list (ticks : Nat) (hi : i ≠ k.current)
    : (k.suspendBySleep ticks).list i = k.list i := by
  simp [suspendBySleep, saveCurrentContext, setCtx, hi]

theorem Kernel.suspendBySleep_state (ticks : Nat)
    : ((k.suspendBySleep ticks).list k.current).state = .waiting := by
  simp [suspendBySleep, saveCurrentContext, setCtx]

theorem doSleep_eq (ticks : Nat) (k : Kernel)
    : doSleep ticks k
        =
      match pickNextContext (k.suspendBySleep ticks).list with
      | none => .error .cleanup
      | some next => .ok (scheduleContext next (k.suspendBySleep ticks)) := rfl

theorem doSleep_cases (h : k.Sane) (hcur : k.current ≠ 0) (ticks : Nat) (hok : doSleep ticks k = .ok k')
    : Outcome k (.sleep ticks) k' := by
  have hslept := Outcome.sleep (k := k) ticks
  have hlist := fun (i : Slot) => Kernel.suspendBySleep_list (k := k) (i := i) ticks
  have hstate := Kernel.suspendBySleep_state (k := k) ticks
  rw [doSleep_eq] at hok
  generalize k.suspendBySleep ticks = p at *
  have hready : IsReady p.list = k.table.Ready := by
    funext i
    by_cases hi : i = k.current
    . subst hi
      have hnot := h.steady.not_ready_current
      simp only [IsReady, hstate, reduceCtorEq, and_false, eq_iff_iff, false_iff]
      exact hnot
    . simp only [IsReady, hlist i hi]
      rfl
  have hnone : ∀ (j : Slot), j ≠ 0 → (p.list j).state ≠ .running := by
    intro j _ hrun
    by_cases hj : j = k.current
    . rw [hj, hstate] at hrun
      cases hrun
    . rw [hlist j hj] at hrun
      exact hj (h.steady.only j hrun)
  cases pickNextContext_restart hnone with
  | inl hfirst =>
    obtain ⟨next, hnext, hpick⟩ := hfirst
    rw [hready] at hnext
    simp only [hpick, Except.ok.injEq] at hok
    rw [← hok]
    exact hslept next hcur (.inl hnext)
  | inr hnot =>
    cases hnot with
    | inl hidle =>
      rw [hready] at hidle
      simp only [hidle.2.2, Except.ok.injEq] at hok
      rw [← hok]
      exact hslept 0 hcur (.inr ⟨hidle.1, rfl⟩)
    | inr hdown =>
      simp only [hdown.2] at hok
      cases hok

theorem doExit_eq (k : Kernel)
    : doExit k
        =
      match pickNextContext k.list with
      | none => .error .cleanup
      | some next =>
        if (k.dismiss.list next).pid ≠ k.dismiss.cur.pid then
          .ok (scheduleContext next k.dismiss)
        else if waitingProcExists k.dismiss.list then
          .ok (scheduleContext 0 k.dismiss)
        else
          .error .cleanup := rfl

theorem doExit_cases (h : k.Sane) (hcur : k.current ≠ 0) (hok : doExit k = .ok k')
    : Outcome k .exit k' := by
  have hcases := pickNextContext_running hcur h.steady.running h.steady.only
  have hpid : ∀ (i : Slot), (k.dismiss.list i).pid = (k.list i).pid := by
    intro i
    by_cases hi : i = k.current
    . subst hi
      simp [Kernel.dismiss, Kernel.cur]
    . simp [Kernel.dismiss, hi]
  have hcurpid : k.dismiss.cur.pid = k.cur.pid := hpid k.current
  rw [IsReady_list] at hcases
  rw [doExit_eq] at hok
  cases hcases with
  | inl hfirst =>
    obtain ⟨next, hnext, hpick⟩ := hfirst
    have hne : next ≠ k.current := h.steady.ne_current hnext.1
    simp only [hpick] at hok
    rw [hpid, hcurpid, h.pid_ready hnext.1, h.pid_current, if_pos] at hok
    . simp only [Except.ok.injEq] at hok
      rw [← hok]
      exact .exit next hcur (.inl hnext)
    . exact fun heq => hne (Fin.ext heq)
  | inr hidle =>
    simp only [hidle.2] at hok
    rw [hpid, hcurpid, if_neg] at hok
    . split at hok
      . simp only [Except.ok.injEq] at hok
        rw [← hok]
        exact .exit 0 hcur (.inr ⟨hidle.1, rfl⟩)
      . cases hok
    . intro hne
      exact hne rfl

-- which context a clone makes, and of what
theorem doClone_made {thFunc userStack : U64} {env : CloneEnv} {rax : U64}
    (hok : doClone thFunc userStack env rax k = .ok k')
    : ∃ (i : Slot) (new : Context), env.newCtx = some i
        ∧ k' = { k with
            list := Function.update k.list i new
            pfnUsed := Function.update k.pfnUsed env.pfn true
            cpu := { k.cpu with rax := rax } }
        ∧ (new.state = .ready ∧ new.ticksToSleep = 0 ∧ new.pid = i ∧ new.osStackPfn = env.pfn)
        ∧ new.sighandlers = k.cur.sighandlers
        ∧ (i ≠ k.current → cloneName k.cur.name k.cur.pid env.name env.pid (k.list i).name = .ok new.name) := by
  unfold doClone at hok
  cases hnew : env.newCtx with
  | none =>
    rw [hnew] at hok
    cases hok
  | some i =>
    rw [hnew] at hok
    simp only [bind, Except.bind] at hok
    split at hok
    . cases hok
    . next name hname =>
      simp only [pure, Except.pure, Except.ok.injEq] at hok
      rw [← hok]
      simp only [Kernel.setCtx, Function.update_idem, Function.update_self]
      refine ⟨i, _, rfl, rfl, ⟨rfl, rfl, rfl, rfl⟩, ?_, ?_⟩
      . by_cases hi : k.current = i
        . simp [Kernel.cur, hi]
        . simp [Kernel.cur, hi]
      . intro hi
        simp only [Kernel.cur, Kernel.setCtx, Function.update_self, Function.update_of_ne (Ne.symm hi)] at hname
        exact hname

theorem doClone_cases (thFunc userStack : U64) (env : CloneEnv) (rax : U64) (henv : env.Honest k)
    (hok : doClone thFunc userStack env rax k = .ok k')
    : Outcome k (.clone thFunc userStack env rax) k' := by
  obtain ⟨i, new, hctx, rfl, hnew, -⟩ := doClone_made hok
  have hunused := henv.unused i hctx
  exact .clone thFunc userStack env rax i new hunused.2 hunused.1 henv hctx hnew

theorem doSignal_cases {signo : Int} {handler rax : U64} (hok : doSignal signo handler rax k = .ok k')
    : ∃ (s : Fin maxSignals), (s.val : Int) = signo
        ∧ k' = { k.setCtx k.current { k.cur with
            sighandlers := Function.update k.cur.sighandlers s handler } with cpu := { k.cpu with rax := rax } } := by
  unfold doSignal at hok
  split at hok
  . next h =>
    simp only [Except.ok.injEq] at hok
    refine ⟨⟨signo.toNat, by omega⟩, ?_, hok.symm⟩
    exact Int.toNat_of_nonneg h.1
  . cases hok

theorem Step.outcome {c : Call} (h : k.Sane) (hstep : Step k c k') : Outcome k c k' := by
  obtain ⟨hallowed, hok⟩ := hstep
  cases c with
  | user cpu mem =>
    simp only [Call.exec, Except.ok.injEq] at hok
    rw [← hok]
    exact .user cpu mem
  | tick => exact handleTimerTick_cases h hok
  | sleep ticks => exact doSleep_cases h hallowed ticks hok
  | exit => exact doExit_cases h hallowed hok
  | clone thFunc userStack env rax => exact doClone_cases thFunc userStack env rax hallowed.2 hok
  | signal signo handler rax =>
    obtain ⟨s, -, heq⟩ := doSignal_cases hok
    rw [heq]
    exact .signal signo handler rax s
  | alarm ticks rax =>
    simp only [Call.exec, doAlarm, Except.ok.injEq] at hok
    rw [← hok]
    exact .alarm ticks rax

theorem Kernel.table_update {p : Kernel} {c : Context} (hlist : p.list = Function.update k.list i c)
    : p.table = ⟨Function.update k.table.state i c.state, Function.update k.table.sleep i c.ticksToSleep,
        p.current⟩ := by
  simp only [table, hlist, Table.mk.injEq, and_true]
  constructor
  . funext j
    by_cases hj : j = i
    . subst hj
      simp
    . simp [hj]
  . funext j
    by_cases hj : j = i
    . subst hj
      simp
    . simp [hj]

theorem Kernel.table_same {p : Kernel} {new : Context} (hlist : p.list = Function.update k.list k.current new)
    (hcurrent : p.current = k.current) (hstate : new.state = k.cur.state)
    (hsleep : new.ticksToSleep = k.cur.ticksToSleep)
    : p.table = k.table := by
  rw [Kernel.table_update hlist, hcurrent, hstate, hsleep]
  simp [table, cur]

theorem Kernel.scheduleContext_table (p : Kernel)
    : (scheduleContext next p).table = p.table.switched next := by
  rw [Kernel.table_update (k := p) (i := next) (c := { p.list next with state := .running }) rfl]
  simp only [Table.switched, Table.mk.injEq, true_and]
  constructor
  . apply Function.update_eq_self
  . rfl

theorem Kernel.saveCurrentContext_table (state : ProcessState) (rspPoint rbpPoint : Nat → U64) (skipRax : Bool)
    (p : Kernel)
    : (saveCurrentContext state rspPoint rbpPoint skipRax p).table
        =
      p.table.left state p.cur.ticksToSleep := by
  unfold saveCurrentContext
  rw [Kernel.table_update (k := p) rfl]
  rfl

theorem Kernel.suspendByTick_table (h : k.table.Steady)
    : k.suspendByTick.table = k.table.woken.left .ready 0 := by
  have htable := handleTimerTick.prepare_table h
  have hsleep := h.woken.sleep_current
  unfold suspendByTick
  generalize handleTimerTick.prepare k = p at *
  rw [← htable] at hsleep ⊢
  rw [Kernel.saveCurrentContext_table, ← hsleep]
  rfl

theorem Kernel.suspendBySleep_table (ticks : Nat)
    : (k.suspendBySleep ticks).table = k.table.left .waiting ticks := by
  unfold suspendBySleep
  rw [Kernel.saveCurrentContext_table, Kernel.setCtx, Kernel.table_update (k := k) rfl]
  simp [Table.left, cur, table]

theorem Kernel.dismiss_table (h : k.table.Steady) : k.dismiss.table = k.table.left .unused 0 := by
  rw [Kernel.table_update (k := k) (i := k.current) (c := { k.cur with state := .unused }) rfl]
  simp only [Table.left, ← h.sleep_current]
  rfl

-- the kernel refines the table
theorem Outcome.table {c : Call} (h : k.table.Steady) (hout : Outcome k c k') : k.table.Step c k'.table := by
  cases hout with
  | user cpu mem => exact .user cpu mem
  | stay hidle =>
    have htable := handleTimerTick.prepare_table h
    generalize handleTimerTick.prepare k = p at *
    have hstep := Table.Step.stay hidle
    rw [← htable] at hstep
    exact hstep
  | preempt next hnext =>
    rw [Kernel.scheduleContext_table, Kernel.suspendByTick_table h]
    exact .preempt next hnext
  | sleep ticks next hcur hnext =>
    rw [Kernel.scheduleContext_table, Kernel.suspendBySleep_table]
    exact .sleep ticks next hcur hnext
  | exit next hcur hnext =>
    rw [Kernel.scheduleContext_table, Kernel.dismiss_table h]
    exact .exit next hcur hnext
  | clone thFunc userStack env rax i new hi hfree henv hctx hnew =>
    have hstep := Table.Step.clone (t := k.table) thFunc userStack env rax i hi hfree hctx
    convert hstep using 1
    rw [Kernel.table_update (k := k) (i := i) (c := new)]
    . rw [hnew.1, hnew.2.1]
      rfl
    . rfl
  | signal signo handler rax s =>
    have hstep := Table.Step.signal (t := k.table) signo handler rax
    convert hstep using 1
    apply Kernel.table_same <;> rfl
  | alarm ticks rax =>
    have hstep := Table.Step.alarm (t := k.table) ticks rax
    convert hstep using 1
    apply Kernel.table_same <;> rfl

theorem Step.table {c : Call} (h : k.Sane) (hstep : Step k c k') : k.table.Step c k'.table :=
  (hstep.outcome h).table h.steady

end Sched
