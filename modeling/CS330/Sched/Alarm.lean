import CS330.Sched.Registers

/-!
This module contains what becomes of an alarm that rings while its process is running: it is delivered exactly
if the same tick does not switch to another process.
-/

namespace Sched

open Cyclic doSleepAndAlarmAccount

-- the alarm of the current process goes off at the next tick
structure Kernel.Alarmed (k : Kernel) : Prop where
  due : k.cur.ticksToAlarm = 1
  handler : k.cur.sighandlers sigalrm ≠ 0

-- `k'` is where `p` executes in user mode for the next time
inductive Resumes (p : Slot) (k : Kernel) : Kernel → Prop where
  | here (hcurrent : k.current = p) : Resumes p k k
  | later {l : List Call} {c : Call} {k₁ k₂ : Kernel} (hcurrent : k.current ≠ p) (haway : Run (Away p) k l k₁)
      (hstep : Step k₁ c k₂) (hin : k₂.current = p)
      : Resumes p k k₂

-- the handler runs on top of the interrupted code
structure Delivered (k k' : Kernel) : Prop where
  rip : k'.cpu.entryRip = k.cur.sighandlers sigalrm
  rsp : k'.cpu.entryRsp = k.cpu.entryRsp - 8
  word : k'.mem.load k'.cpu.entryRsp = k.cpu.entryRip

-- nobody else can run after the next tick
def Kernel.Alone (k : Kernel) : Prop :=
  ∀ (i : Slot), i ≠ 0 → (k.list i).state ≠ .ready ∧ (k.list i).ticksToSleep ≠ 1

variable {k k₁ k₂ : Kernel}

theorem Kernel.alone_iff : k.Alone ↔ ∀ (i : Slot), ¬ k.table.woken.Ready i := by
  constructor
  . intro halone i hready
    have hi := halone i hready.1
    have hsleep : k.table.sleep i ≠ 1 := hi.2
    have hstate := hready.2
    simp only [Table.woken] at hstate
    rw [if_neg hsleep] at hstate
    exact hi.1 hstate
  . intro hidle i hi
    constructor
    . intro hready
      apply hidle i
      refine ⟨hi, ?_⟩
      simp only [Table.woken]
      split
      . rfl
      . exact hready
    . intro hone
      apply hidle i
      refine ⟨hi, ?_⟩
      simp only [Table.woken]
      rw [if_pos]
      exact hone

theorem Kernel.Sane.rings_iff (h : k.Sane) : Rings (wake (handleTimerTick.entered k)) ↔ k.cur.ticksToAlarm = 1 := by
  have hrunning : k.cur.state = .running := h.steady.running
  have hsleep : k.cur.ticksToSleep = 0 := h.steady.sleep_current
  simp [Rings, wake_eq, handleTimerTick.entered, hrunning, hsleep]

theorem handleTimerTick.prepare_rings (h : k.Sane) (hdue : k.cur.ticksToAlarm = 1)
    : (prepare k).cur.regs.entryRip = k.cur.sighandlers sigalrm
      ∧ (prepare k).cur.regs.entryRsp = k.cpu.entryRsp - 8
      ∧ (prepare k).mem = k.mem.store (k.cpu.entryRsp - 8) k.cpu.entryRip := by
  have hrings := h.rings_iff.mpr hdue
  rw [prepare_eq h.steady]
  simp only [Kernel.cur, Function.update_self, account_regs, accountMem, hrings, ↓reduceIte]
  exact ⟨rfl, rfl, rfl⟩

theorem handleTimerTick.prepare_silent (h : k.Sane) (hdue : k.cur.ticksToAlarm ≠ 1)
    : (prepare k).cur.regs.entryRip = k.cpu.entryRip
      ∧ (prepare k).cur.regs.entryRsp = k.cpu.entryRsp
      ∧ (prepare k).mem = k.mem := by
  have hrings : ¬ Rings (wake (entered k)) := fun hr => hdue (h.rings_iff.mp hr)
  rw [prepare_eq h.steady]
  simp only [Kernel.cur, Function.update_self, account_regs, accountMem, hrings, ↓reduceIte]
  exact ⟨rfl, rfl, trivial⟩

-- without a switch the handler is entered at once
theorem Outcome.delivered (h : k.Sane) (halarm : k.Alarmed) (halone : k.Alone) (hout : Outcome k .tick k₁)
    : k₁.current = k.current ∧ Delivered k k₁ := by
  cases hout with
  | stay hidle =>
    have hcurrent := handleTimerTick.prepare_current h.steady
    have hrings := handleTimerTick.prepare_rings h halarm.due
    generalize handleTimerTick.prepare k = q at *
    refine ⟨hcurrent, ?_⟩
    constructor
    . exact hrings.1
    . exact hrings.2.1
    . simp only [hrings.2.1, hrings.2.2]
      apply Memory.load_store
  | preempt next hnext => exact absurd hnext.1 (Kernel.alone_iff.mp halone next)

theorem Outcome.preempted (h : k.Sane) (halone : ¬ k.Alone) (hout : Outcome k .tick k₁)
    : k₁.current ≠ k.current := by
  cases hout with
  | stay hidle => exact absurd (Kernel.alone_iff.mpr hidle) halone
  | preempt next hnext => exact h.steady.woken.ne_current hnext.1

theorem sub_eight_ne (a : U64) : a - 8 ≠ a := by
  bv_omega

theorem alarm_delivered_iff {k₀ : Kernel} {l : List Call} (h : k₀.Sane) (hrun : Run Step k₀ l k)
    (halarm : k.Alarmed) (htick : Step k .tick k₁) (hresume : Resumes k.current k₁ k₂)
    : Delivered k k₂ ↔ k.Alone := by
  have hsane : k.Sane := h.run hrun
  have hout := htick.outcome hsane
  constructor
  . intro hdelivered
    apply Classical.byContradiction
    intro halone
    have hswitch := hout.preempted hsane halone
    cases hresume with
    | here hcurrent => exact hswitch hcurrent
    | later hcurrent haway hstep hin =>
      -- the registers come from the interrupt frame, which the signal has not changed
      have hcpu := htick.resume hsane hswitch nofun haway hstep hin
      have hsaved := (hout.saves hsane.steady hswitch nofun).2 rfl
      have hrsp := hdelivered.rsp
      rw [hcpu, hsaved] at hrsp
      exact sub_eight_ne _ hrsp.symm
  . intro halone
    have hdelivered := hout.delivered hsane halarm halone
    cases hresume with
    | here hcurrent => exact hdelivered.2
    | later hcurrent haway hstep hin => exact absurd hdelivered.1 hcurrent

-- init with a handler and an alarm after one tick
def ringing : List Call :=
  [.signal 2 0x4000 0, .alarm 1 0, .user { noRegs with entryRip := 0x5000, entryRsp := 0x6000 } boot.mem]

theorem alarm_delivered_alone
    : ∃ (k k₁ : Kernel), Run Step boot ringing k ∧ k.Alarmed ∧ k.Alone ∧ Step k .tick k₁ ∧ Delivered k k₁ := by
  let rest : Kernel → Bool := fun k =>
    (execAll [.tick] k).any fun k₁ =>
      decide (k.current = 1 ∧ k₁.current = 1 ∧ k.cur.ticksToAlarm = 1 ∧ k.cur.sighandlers sigalrm = 0x4000
        ∧ ∀ (i : Slot), i ≠ 0 → (k.list i).state ≠ .ready ∧ (k.list i).ticksToSleep ≠ 1)
  obtain ⟨k, hrun, h₀⟩ := exists_run (k := boot) (l := ringing) (p := rest) (by decide +kernel)
  obtain ⟨k₁, hstep, h₁⟩ := exists_step h₀
  rw [decide_eq_true_eq] at h₁
  obtain ⟨hcurrent, hcurrent₁, hdue, hhandler, halone⟩ := h₁
  have halarm : k.Alarmed := by
    refine ⟨hdue, ?_⟩
    rw [hhandler]
    decide
  have hresume : Resumes k.current k₁ k₁ := by
    apply Resumes.here
    rw [hcurrent₁, hcurrent]
  exact ⟨k, k₁, hrun, halarm, halone, hstep,
    (alarm_delivered_iff boot_sane hrun halarm hstep hresume).mpr halone⟩

-- The alarm rings in the tick that preempts init. When init runs again it goes on where it was interrupted.
theorem alarm_lost_family
    : ∃ (k k₁ k₂ : Kernel), Run Step boot (family ++ ringing) k ∧ k.Alarmed ∧ Step k .tick k₁
      ∧ Resumes k.current k₁ k₂ ∧ k₂.cpu.entryRip = k.cpu.entryRip ∧ ¬ Delivered k k₂ := by
  let rest : Kernel → Bool := fun k =>
    (execAll [.tick] k).any fun k₁ =>
      (execAll [.tick] k₁).any fun q =>
        (execAll [.tick] q).any fun k₂ =>
          decide (k.current = 1 ∧ k₁.current = 2 ∧ q.current = 3 ∧ k₂.current = 1
            ∧ k.cur.ticksToAlarm = 1 ∧ k.cur.sighandlers sigalrm = 0x4000
            ∧ k.cpu.entryRip = 0x5000 ∧ k₂.cpu.entryRip = 0x5000)
  obtain ⟨k, hrun, h₀⟩ := exists_run (k := boot) (l := family ++ ringing) (p := rest) (by decide +kernel)
  obtain ⟨k₁, hstep₁, h₁⟩ := exists_step h₀
  obtain ⟨q, hstep, hq⟩ := exists_step h₁
  obtain ⟨k₂, hstep₂, h₂⟩ := exists_step hq
  rw [decide_eq_true_eq] at h₂
  obtain ⟨hc, hc₁, hcq, hc₂, hdue, hhandler, hrip, hrip₂⟩ := h₂
  refine ⟨k, k₁, k₂, hrun, ⟨hdue, ?_⟩, hstep₁, ?_, ?_, ?_⟩
  . rw [hhandler]
    decide
  . rw [hc]
    have haway : Away 1 k₁ .tick q := by
      refine ⟨hstep, ?_, ?_⟩
      . rw [hc₁]
        decide
      . rw [hcq]
        decide
    have hne : k₁.current ≠ 1 := haway.2.1
    exact Resumes.later hne (Run.snoc Run.nil haway) hstep₂ hc₂
  . rw [hrip, hrip₂]
  . intro hdelivered
    have := hdelivered.rip
    rw [hhandler, hrip₂] at this
    revert this
    decide

end Sched
