import CS330.Sched.Alarm
import CS330.Sched.Lemmas.Settled
import CS330.Sched.Sleep

/-!
This module contains what becomes of a process that set an alarm but has no handler for it: it is disturbed by
every tick at which the alarm rings, unless another process takes over in the same tick and the signal happens
to store what is there already.
-/

namespace Sched

open Cyclic doSleepAndAlarmAccount

-- the tick from `k` to `k'` goes unnoticed by the process, which executes again in `k''`
structure Ignored (k k' k'' : Kernel) : Prop where
  rip : k''.cpu.entryRip = k.cpu.entryRip
  rsp : k''.cpu.entryRsp = k.cpu.entryRsp
  mem : k'.mem = k.mem

-- a step by which `p` neither ends nor sets an alarm or a handler for it
def Quiet (p : Slot) (k : Kernel) (c : Call) (k' : Kernel) : Prop :=
  Step k c k'
    ∧ (k.current = p → c ≠ .exit ∧ (∀ (ticks : Nat) (rax : U64), c ≠ .alarm ticks rax)
      ∧ ∀ (signo : Int) (handler rax : U64), c = .signal signo handler rax → signo = sigalrm.val → handler = 0)

-- `p` set its alarm to `n` ticks, `m` ticks ago, and has no handler for it
structure Kernel.Unhandled (k : Kernel) (p : Slot) (n m : Nat) : Prop where
  used : (k.list p).state ≠ .unused
  handler : (k.list p).sighandlers sigalrm = 0
  config : (k.list p).alarmConfigTime = n
  counter : (k.list p).ticksToAlarm = n - m % n

variable {k k' k₁ k₂ : Kernel} {c : Call} {p next : Slot} {n m : Nat}

theorem counter_due : n - m % n = 1 ↔ n ∣ m + 1 := by
  by_cases hn : n = 0
  . simp [hn]
  . have hlt := Nat.mod_lt m (Nat.pos_of_ne_zero hn)
    have hsplit : m + 1 = n * (m / n) + (m % n + 1) := by
      have := Nat.div_add_mod m n
      omega
    rw [hsplit, Nat.dvd_add_right (Nat.dvd_mul_right n _)]
    constructor
    . intro hone
      have : m % n + 1 = n := by omega
      simp only [this, Nat.dvd_refl]
    . intro hdvd
      have := Nat.le_of_dvd (by omega) hdvd
      omega

theorem counter_succ : (if n - m % n = 1 then n else n - m % n - 1) = n - (m + 1) % n := by
  split
  . next hone =>
    rw [Nat.mod_eq_zero_of_dvd (counter_due.mp hone), Nat.sub_zero]
  . next hone =>
    by_cases hn : n = 0
    . simp [hn]
    . have hlt := Nat.mod_lt m (Nat.pos_of_ne_zero hn)
      have hsplit : m + 1 = n * (m / n) + (m % n + 1) := by
        have := Nat.div_add_mod m n
        omega
      have hmod : (m + 1) % n = m % n + 1 := by
        rw [hsplit, Nat.mul_add_mod]
        exact Nat.mod_eq_of_lt (by omega)
      omega

theorem scheduleContext_ticksToAlarm (q : Kernel) (p : Slot)
    : ((scheduleContext next q).list p).ticksToAlarm = (q.list p).ticksToAlarm := by
  by_cases hp : p = next
  . subst hp
    simp [scheduleContext, Kernel.setCtx]
  . simp [scheduleContext, Kernel.setCtx, hp]

theorem saveCurrentContext_ticksToAlarm (state : ProcessState) (rspPoint rbpPoint : Nat → U64) (skipRax : Bool)
    (q : Kernel) (p : Slot)
    : ((saveCurrentContext state rspPoint rbpPoint skipRax q).list p).ticksToAlarm
        =
      (q.list p).ticksToAlarm := by
  by_cases hp : p = q.current
  . subst hp
    simp [saveCurrentContext, Kernel.setCtx, Kernel.cur]
  . simp [saveCurrentContext, Kernel.setCtx, hp]

theorem handleTimerTick.prepare_ticksToAlarm (h : k.table.Steady) (p : Slot)
    : ((prepare k).list p).ticksToAlarm
        =
      if (k.list p).ticksToAlarm = 1 then (k.list p).alarmConfigTime else (k.list p).ticksToAlarm - 1 := by
  rw [prepare_eq h]
  by_cases hp : p = k.current
  . subst hp
    simp [entered, Kernel.cur]
  . simp [hp]

theorem Outcome.counter (h : k.table.Steady) (hout : Outcome k c k') (hnot : ¬ c.Creates p)
    (halarm : ∀ (ticks : Nat) (rax : U64), c = .alarm ticks rax → k.current ≠ p)
    : (k'.list p).ticksToAlarm
        =
      if c.isTick then
        if (k.list p).ticksToAlarm = 1 then (k.list p).alarmConfigTime else (k.list p).ticksToAlarm - 1
      else
        (k.list p).ticksToAlarm := by
  have hprepare := handleTimerTick.prepare_ticksToAlarm h p
  cases hout with
  | user cpu mem => rfl
  | stay hidle =>
    generalize handleTimerTick.prepare k = q at *
    exact hprepare
  | preempt next hnext =>
    rw [scheduleContext_ticksToAlarm, Kernel.suspendByTick, saveCurrentContext_ticksToAlarm]
    exact hprepare
  | sleep ticks next hcur hnext =>
    rw [scheduleContext_ticksToAlarm, Kernel.suspendBySleep, saveCurrentContext_ticksToAlarm]
    by_cases hp : p = k.current
    . subst hp
      simp [Kernel.setCtx, Kernel.cur, Call.isTick]
    . simp [Kernel.setCtx, hp, Call.isTick]
  | exit next hcur hnext =>
    rw [scheduleContext_ticksToAlarm]
    by_cases hp : p = k.current
    . subst hp
      simp [Kernel.dismiss, Kernel.cur, Call.isTick]
    . simp [Kernel.dismiss, hp, Call.isTick]
  | clone thFunc userStack env rax j new hj hfree henv hctx hnew =>
    have hpj : p ≠ j := by
      intro heq
      rw [← heq] at hctx
      exact hnot hctx
    simp [hpj, Call.isTick]
  | signal signo handler rax s =>
    by_cases hp : p = k.current
    . subst hp
      simp [Kernel.setCtx, Kernel.cur, Call.isTick]
    . simp [Kernel.setCtx, hp, Call.isTick]
  | alarm ticks rax =>
    have hp : p ≠ k.current := (halarm ticks rax rfl).symm
    simp [Kernel.setCtx, hp, Call.isTick]

namespace Kernel.Unhandled

theorem not_creates (h : k.Sane) (hun : k.Unhandled p n m) (hstep : Step k c k') : ¬ c.Creates p :=
  fun hc => hun.used ((hstep.outcome h).created hc).unused

theorem kept (h : k.Sane) (hun : k.Unhandled p n m) (hquiet : Quiet p k c k')
    : (k'.list p).sighandlers sigalrm = 0 ∧ (k'.list p).alarmConfigTime = n := by
  have hok := hquiet.1.2
  have hnot := hun.not_creates h hquiet.1
  by_cases hc : c.Configures
  . cases c with
    | clone thFunc userStack env rax =>
      cases hquiet.1.outcome h with
      | clone _ _ _ _ j new hj hfree henv hctx hnew =>
        have hpj : p ≠ j := by
          intro heq
          rw [← heq] at hctx
          exact hnot hctx
        simp only [Function.update_of_ne hpj]
        exact ⟨hun.handler, hun.config⟩
    | signal signo handler rax =>
      obtain ⟨s, hs, heq⟩ := doSignal_cases hok
      rw [heq]
      by_cases hp : p = k.current
      . subst hp
        simp only [Kernel.setCtx, Function.update_self]
        refine ⟨?_, hun.config⟩
        by_cases halarm : sigalrm = s
        . subst halarm
          rw [Function.update_self]
          exact (hquiet.2 rfl).2.2 signo handler rax rfl hs.symm
        . rw [Function.update_of_ne halarm]
          exact hun.handler
      . simp only [Kernel.setCtx, Function.update_of_ne hp]
        exact ⟨hun.handler, hun.config⟩
    | alarm ticks rax =>
      have hp : p ≠ k.current := fun heq => (hquiet.2 heq.symm).2.1 ticks rax rfl
      simp only [Call.exec, doAlarm, Except.ok.injEq] at hok
      rw [← hok]
      simp only [Kernel.setCtx, Function.update_of_ne hp]
      exact ⟨hun.handler, hun.config⟩
    | _ => cases hc
  . have hsettled := congrFun (Call.settled hok hc) p
    have hhandlers := congrArg Context.sighandlers hsettled
    have hconfig := congrArg Context.alarmConfigTime hsettled
    simp only [Kernel.settled_sighandlers, Kernel.settled_alarmConfigTime] at hhandlers hconfig
    rw [hhandlers, hconfig]
    exact ⟨hun.handler, hun.config⟩

theorem step (h : k.Sane) (hun : k.Unhandled p n m) (hquiet : Quiet p k c k')
    : k'.Unhandled p n (m + if c.isTick then 1 else 0) where
  used := by
    apply (hquiet.1.table h).used hun.used
    intro hexit heq
    exact (hquiet.2 heq.symm).1 hexit
  handler := (hun.kept h hquiet).1
  config := (hun.kept h hquiet).2
  counter := by
    rw [(hquiet.1.outcome h).counter h.steady (hun.not_creates h hquiet.1)]
    . rw [hun.counter, hun.config]
      split
      . exact counter_succ
      . rfl
    . intro ticks rax hc heq
      exact (hquiet.2 heq).2.1 ticks rax hc

theorem run {l : List Call} (h : k.Sane) (hun : k.Unhandled p n m) (hrun : Run (Quiet p) k l k')
    : k'.Sane ∧ k'.Unhandled p n (m + l.countP Call.isTick) := by
  induction hrun with
  | nil => exact ⟨h, hun⟩
  | snoc hrun hstep ih =>
    refine ⟨ih.1.step hstep.1, ?_⟩
    rw [List.countP_append, List.countP_singleton, ← Nat.add_assoc]
    exact ih.2.step ih.1 hstep

theorem start {rax : U64} (h : k.Sane) (hhandler : k.cur.sighandlers sigalrm = 0)
    (halarm : Step k (.alarm n rax) k')
    : k'.Unhandled k.current n 0 := by
  have hrunning : (k.list k.current).state = .running := h.steady.running
  have hok := halarm.2
  simp only [Call.exec, doAlarm, Except.ok.injEq] at hok
  rw [← hok]
  constructor
  . simp only [Kernel.setCtx, Function.update_self, Kernel.cur, hrunning]
    decide
  . simp only [Kernel.setCtx, Function.update_self]
    exact hhandler
  . simp [Kernel.setCtx]
  . simp [Kernel.setCtx]

end Kernel.Unhandled

theorem Outcome.mem_tick (hout : Outcome k .tick k₁) : k₁.mem = (handleTimerTick.prepare k).mem := by
  cases hout with
  | stay hidle =>
    generalize handleTimerTick.prepare k = q
    rfl
  | preempt next hnext =>
    unfold Kernel.suspendByTick
    generalize handleTimerTick.prepare k = q
    rfl

theorem Outcome.stayed (h : k.Sane) (halone : k.Alone) (hout : Outcome k .tick k₁)
    : k₁.current = k.current
      ∧ k₁.cpu.entryRip = (handleTimerTick.prepare k).cur.regs.entryRip
      ∧ k₁.cpu.entryRsp = (handleTimerTick.prepare k).cur.regs.entryRsp := by
  cases hout with
  | stay hidle =>
    have hcurrent := handleTimerTick.prepare_current h.steady
    generalize handleTimerTick.prepare k = q at *
    exact ⟨hcurrent, rfl, rfl⟩
  | preempt next hnext => exact absurd hnext.1 (Kernel.alone_iff.mp halone next)

theorem handleTimerTick.prepare_mem_iff (h : k.Sane)
    : (prepare k).mem = k.mem ↔ (k.cur.ticksToAlarm = 1 → k.mem.load (k.cpu.entryRsp - 8) = k.cpu.entryRip) := by
  by_cases hdue : k.cur.ticksToAlarm = 1
  . rw [(prepare_rings h hdue).2.2, Memory.store_eq_self_iff]
    simp [hdue]
  . simp [hdue, (prepare_silent h hdue).2.2]

theorem Step.ignored_iff (h : k.Sane) (htick : Step k .tick k₁) (hresume : Resumes k.current k₁ k₂)
    : Ignored k k₁ k₂
        ↔ k.cur.ticksToAlarm ≠ 1
          ∨ (¬ k.Alone ∧ k.mem.load (k.cpu.entryRsp - 8) = k.cpu.entryRip) := by
  have hout := htick.outcome h
  have hmem := handleTimerTick.prepare_mem_iff h
  rw [← hout.mem_tick] at hmem
  by_cases halone : k.Alone
  . obtain ⟨hcurrent, hrip, hrsp⟩ := hout.stayed h halone
    cases hresume with
    | later hcurrent' haway hstep hin => exact absurd hcurrent hcurrent'
    | here _ =>
      by_cases hdue : k.cur.ticksToAlarm = 1
      . -- the handler at address 0 is entered
        have hrings := handleTimerTick.prepare_rings h hdue
        constructor
        . intro hignored
          have heq := hignored.rsp
          rw [hrsp, hrings.2.1] at heq
          exact absurd heq (sub_eight_ne _)
        . rintro (hne | ⟨hnot, -⟩)
          . exact absurd hdue hne
          . exact absurd halone hnot
      . have hsilent := handleTimerTick.prepare_silent h hdue
        refine iff_of_true ⟨?_, ?_, ?_⟩ (.inl hdue)
        . rw [hrip, hsilent.1]
        . rw [hrsp, hsilent.2.1]
        . rw [hmem]
          intro heq
          exact absurd heq hdue
  . have hswitch := hout.preempted h halone
    cases hresume with
    | here hcurrent => exact absurd hcurrent hswitch
    | later hcurrent haway hstep hin =>
      have hcpu : k₂.cpu = k.cpu := by
        rw [htick.resume h hswitch nofun haway hstep hin]
        exact (hout.saves h.steady hswitch nofun).2 rfl
      constructor
      . intro hignored
        by_cases hdue : k.cur.ticksToAlarm = 1
        . exact .inr ⟨halone, hmem.mp hignored.mem hdue⟩
        . exact .inl hdue
      . intro hcond
        refine ⟨?_, ?_, ?_⟩
        . rw [hcpu]
        . rw [hcpu]
        . rw [hmem]
          intro hdue
          rcases hcond with hne | ⟨-, hword⟩
          . exact absurd hdue hne
          . exact hword

/--
The process has set its alarm to `n` ticks and has no handler for it. The alarm rings at every `n`-th tick from
then on, and exactly at these ticks the process is disturbed.
-/
theorem alarm_ignored_iff {k₀ k k₁ k₂ : Kernel} {l l' : List Call} {n : Nat} {rax : U64} (h : k₀.Sane)
    (hrun : Run Step k₀ l k) (hhandler : k.cur.sighandlers sigalrm = 0)
    (halarm : Step k (.alarm n rax) k₁) (hquiet : Run (Quiet k.current) k₁ l' k₂)
    : k₂.Unhandled k.current n (l'.countP Call.isTick)
      ∧ (k₂.current = k.current → ∀ (k₃ k₄ : Kernel), Step k₂ .tick k₃ → Resumes k.current k₃ k₄
          → (Ignored k₂ k₃ k₄
              ↔ ¬ n ∣ l'.countP Call.isTick + 1
                ∨ (¬ k₂.Alone ∧ k₂.mem.load (k₂.cpu.entryRsp - 8) = k₂.cpu.entryRip))) := by
  have hsane : k.Sane := h.run hrun
  obtain ⟨hsane₂, hun⟩ := (Kernel.Unhandled.start hsane hhandler halarm).run (hsane.step halarm) hquiet
  rw [Nat.zero_add] at hun
  refine ⟨hun, ?_⟩
  intro hcurrent k₃ k₄ htick hresume
  rw [← hcurrent] at hun hresume
  rw [htick.ignored_iff hsane₂ hresume, ← counter_due, ← hun.counter]
  rfl

-- what init executes after it has set the alarm
def work : Call :=
  .user { noRegs with entryRip := 0x5000, entryRsp := 0x6000 } boot.mem

theorem exists_work (n : Nat) {p : Kernel → Kernel → Bool}
    (h : (execAll [.alarm n 0] boot).any (fun k₁ =>
      (execAll [work] k₁).any fun k₂ => (execAll [.tick] k₂).any fun k₃ => p k₂ k₃) = true)
    : ∃ (k₁ k₂ k₃ : Kernel), Step boot (.alarm n 0) k₁ ∧ Run (Quiet 1) k₁ [work] k₂ ∧ Step k₂ .tick k₃
        ∧ p k₂ k₃ = true := by
  obtain ⟨k₁, halarm, h₁⟩ := exists_step h
  obtain ⟨k₂, hwork, h₂⟩ := exists_step h₁
  obtain ⟨k₃, htick, h₃⟩ := exists_step h₂
  have hquiet : Quiet 1 k₁ work k₂ := ⟨hwork, fun _ => ⟨nofun, nofun, nofun⟩⟩
  exact ⟨k₁, k₂, k₃, halarm, .snoc .nil hquiet, htick, h₃⟩

theorem alarm_ignored_early
    : ∃ (k₁ k₂ k₃ : Kernel), Step boot (.alarm 2 0) k₁ ∧ Run (Quiet 1) k₁ [work] k₂ ∧ Step k₂ .tick k₃
        ∧ Ignored k₂ k₃ k₃ := by
  obtain ⟨k₁, k₂, k₃, halarm, hquiet, htick, hcurrent⟩ := exists_work 2
    (p := fun k₂ k₃ => decide (k₂.current = 1 ∧ k₃.current = 1)) (by decide +kernel)
  rw [decide_eq_true_eq] at hcurrent
  have hmain := (alarm_ignored_iff boot_sane .nil rfl halarm hquiet).2 hcurrent.1 k₃ k₃ htick (.here hcurrent.2)
  exact ⟨k₁, k₂, k₃, halarm, hquiet, htick, hmain.mpr (.inl (by decide))⟩

-- At the first tick init is sent to address 0.
theorem not_ignored_null
    : ∃ (k₁ k₂ k₃ : Kernel), Step boot (.alarm 1 0) k₁ ∧ Run (Quiet 1) k₁ [work] k₂ ∧ Step k₂ .tick k₃
        ∧ Resumes 1 k₃ k₃ ∧ k₃.cpu.entryRip = 0 ∧ ¬ Ignored k₂ k₃ k₃ := by
  obtain ⟨k₁, k₂, k₃, halarm, hquiet, htick, h⟩ := exists_work 1
    (p := fun k₂ k₃ => decide (k₃.current = 1 ∧ k₂.cpu.entryRip = 0x5000 ∧ k₃.cpu.entryRip = 0))
    (by decide +kernel)
  rw [decide_eq_true_eq] at h
  obtain ⟨hcurrent, hrip, hrip'⟩ := h
  refine ⟨k₁, k₂, k₃, halarm, hquiet, htick, .here hcurrent, hrip', ?_⟩
  intro hignored
  have heq := hignored.rip
  rw [hrip, hrip'] at heq
  revert heq
  decide

end Sched
