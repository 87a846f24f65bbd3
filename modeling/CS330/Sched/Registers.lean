import CS330.Sched.Boot

/-!
This module contains that a process that is suspended by a tick or a sleep finds its registers unchanged when
it is switched to again.
-/

namespace Sched

open Cyclic

-- a step before and after which somebody else is current
def Away (p : Slot) (k : Kernel) (c : Call) (k' : Kernel) : Prop :=
  Step k c k' ∧ k.current ≠ p ∧ k'.current ≠ p

variable {k k' : Kernel} {c : Call} {p next : Slot} {regs : UserRegs}

-- what `p` will have in its registers when it is switched to
structure Kernel.Saved (k : Kernel) (p : Slot) (regs : UserRegs) : Prop where
  away : k.current ≠ p
  used : (k.list p).state ≠ .unused
  regs : (k.list p).regs = regs

theorem Outcome.cpu (h : k.table.Steady) (hout : Outcome k c k') (hswitch : k'.current ≠ k.current)
    : k'.cpu = (k'.list k'.current).regs := by
  cases hout with
  | stay hidle =>
    have hcurrent := handleTimerTick.prepare_current h
    generalize handleTimerTick.prepare k = q at *
    exact absurd hcurrent hswitch
  | preempt next hnext => rfl
  | sleep ticks next hcur hnext => rfl
  | exit next hcur hnext => rfl
  | _ => exact absurd rfl hswitch

theorem Kernel.Saved.regs_step (h : k.Sane) (hsaved : k.Saved p regs) (hstep : Step k c k')
    : (k'.list p).regs = regs := by
  have hout := hstep.outcome h
  have hnot : ¬ c.Creates p := fun hc => hsaved.used (hout.created hc).unused
  rw [(hout.kept h.steady hnot).regs hsaved.away.symm]
  exact hsaved.regs

theorem Kernel.Saved.step (h : k.Sane) (hsaved : k.Saved p regs) (hstep : Away p k c k') : k'.Saved p regs where
  away := hstep.2.2
  used := by
    apply (hstep.1.table h).used hsaved.used
    intro _
    exact hsaved.away.symm
  regs := hsaved.regs_step h hstep.1

theorem Kernel.Saved.run {l : List Call} (h : k.Sane) (hsaved : k.Saved p regs) (hrun : Run (Away p) k l k')
    : k'.Sane ∧ k'.Saved p regs := by
  induction hrun with
  | nil => exact ⟨h, hsaved⟩
  | snoc hrun hstep ih => exact ⟨ih.1.step hstep.1, ih.2.step ih.1 hstep⟩

theorem Kernel.suspendByTick_regs (h : k.table.Steady) : (k.suspendByTick.list k.current).regs = k.cpu := by
  have hcurrent := handleTimerTick.prepare_current h
  unfold suspendByTick
  generalize handleTimerTick.prepare k = q at *
  rw [← hcurrent]
  simp [saveCurrentContext, setCtx, handleTimerTick.rspPoint, handleTimerTick.rbpPoint]

theorem Kernel.suspendBySleep_regs (ticks : Nat)
    : ((k.suspendBySleep ticks).list k.current).regs = { k.cpu with rax := k.cur.regs.rax } := by
  simp [suspendBySleep, saveCurrentContext, setCtx, doSleep.rearrange, doSleep.frame, Kernel.cur]

theorem scheduleContext_regs (q : Kernel) (p : Slot) : ((scheduleContext next q).list p).regs = (q.list p).regs := by
  by_cases hp : p = next
  . subst hp
    simp [scheduleContext, Kernel.setCtx]
  . simp [scheduleContext, Kernel.setCtx, hp]

-- what is saved of the process that stops running
theorem Outcome.saves (h : k.table.Steady) (hout : Outcome k c k') (hswitch : k'.current ≠ k.current)
    (hexit : c ≠ .exit)
    : (k'.list k.current).regs = { k.cpu with rax := (k'.list k.current).regs.rax }
      ∧ (c = .tick → (k'.list k.current).regs = k.cpu) := by
  cases hout with
  | stay hidle =>
    have hcurrent := handleTimerTick.prepare_current h
    generalize handleTimerTick.prepare k = q at *
    exact absurd hcurrent hswitch
  | preempt next hnext =>
    rw [scheduleContext_regs, Kernel.suspendByTick_regs h]
    simp
  | sleep ticks next hcur hnext =>
    rw [scheduleContext_regs, Kernel.suspendBySleep_regs]
    simp
  | exit next hcur hnext => exact absurd rfl hexit
  | _ => exact absurd rfl hswitch

-- what a switch back puts in place is what was saved when the process was suspended
theorem Step.resume {l : List Call} {k₀ k₁ k₂ k₃ : Kernel} {c c' : Call} (h : k₀.Sane)
    (hsuspend : Step k₀ c k₁) (hout : k₁.current ≠ k₀.current) (hexit : c ≠ .exit)
    (haway : Run (Away k₀.current) k₁ l k₂)
    (hresume : Step k₂ c' k₃) (hin : k₃.current = k₀.current)
    : k₃.cpu = (k₁.list k₀.current).regs := by
  have hused : (k₁.list k₀.current).state ≠ .unused := by
    have hrunning : k₀.table.state k₀.current ≠ .unused := by
      have hrun : k₀.table.state k₀.current = .running := h.steady.running
      rw [hrun]
      decide
    apply (hsuspend.table h).used hrunning
    intro hc
    exact absurd hc hexit
  have hsaved : k₁.Saved k₀.current (k₁.list k₀.current).regs := ⟨hout, hused, rfl⟩
  have hlater := hsaved.run (h.step hsuspend) haway
  have hswitch : k₃.current ≠ k₂.current := by
    rw [hin]
    exact hlater.2.away.symm
  rw [(hresume.outcome hlater.1).cpu hlater.1.steady hswitch, hin]
  exact hlater.2.regs_step hlater.1 hresume

theorem run_registers {l l' : List Call} {k₀ k₁ k₂ k₃ : Kernel} {c c' : Call} (h : k.Sane)
    (hrun : Run Step k l k₀)
    (hsuspend : Step k₀ c k₁) (hout : k₁.current ≠ k₀.current) (hexit : c ≠ .exit)
    (haway : Run (Away k₀.current) k₁ l' k₂)
    (hresume : Step k₂ c' k₃) (hin : k₃.current = k₀.current)
    : k₃.cpu = { k₀.cpu with rax := k₃.cpu.rax } ∧ (c = .tick → k₃.cpu = k₀.cpu) := by
  have hsane : k₀.Sane := h.run hrun
  rw [hsuspend.resume hsane hout hexit haway hresume hin]
  exact (hsuspend.outcome hsane).saves hsane.steady hout hexit

def busyRegs : UserRegs :=
  { noRegs with rax := 1, r15 := 2, entryRip := 3 }

-- Init is preempted with its registers in use, its children run in between.
theorem run_registers_family
    : ∃ (k₀ k₃ : Kernel),
        Run Step boot (family ++ [.user busyRegs boot.mem]) k₀ ∧ k₀.current = 1 ∧ k₃.current = 1
        ∧ k₃.cpu = k₀.cpu := by
  let rest : Kernel → Bool := fun k₀ =>
    (execAll [.tick] k₀).any fun k₁ =>
      (execAll [.user noRegs boot.mem] k₁).any fun q =>
        (execAll [.tick] q).any fun k₂ =>
          (execAll [.tick] k₂).any fun k₃ =>
            decide (k₀.current = 1 ∧ k₁.current = 2 ∧ q.current = 2 ∧ k₂.current = 3 ∧ k₃.current = 1)
  obtain ⟨k₀, hrun, h₀⟩ := exists_run (k := boot)
    (l := family ++ [.user busyRegs boot.mem])
    (p := rest) (by decide +kernel)
  obtain ⟨k₁, hstep₁, h₁⟩ := exists_step h₀
  obtain ⟨q, hstep, hq⟩ := exists_step h₁
  obtain ⟨k₂, hstep₂, h₂⟩ := exists_step hq
  obtain ⟨k₃, hstep₃, h₃⟩ := exists_step h₂
  rw [decide_eq_true_eq] at h₃
  obtain ⟨hc₀, hc₁, hcq, hc₂, hc₃⟩ := h₃
  have hstep' : Away k₀.current k₁ (.user noRegs boot.mem) q := by
    rw [hc₀]
    refine ⟨hstep, ?_, ?_⟩
    . rw [hc₁]
      decide
    . rw [hcq]
      decide
  have hstep₂' : Away k₀.current q .tick k₂ := by
    rw [hc₀]
    refine ⟨hstep₂, ?_, ?_⟩
    . rw [hcq]
      decide
    . rw [hc₂]
      decide
  have haway := Run.snoc (Run.snoc Run.nil hstep') hstep₂'
  have hkept := run_registers boot_sane hrun hstep₁ (by rw [hc₁, hc₀]; decide) nofun haway hstep₃
    (by rw [hc₃, hc₀])
  exact ⟨k₀, k₃, hrun, hc₀, hc₃, hkept.2 rfl⟩

end Sched
