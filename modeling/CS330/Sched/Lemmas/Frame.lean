import CS330.Sched.Lemmas.Step

/-!
This module contains what a step leaves alone: a context keeps its pid and its OS stack unless it was handed
out by a clone, and its registers unless it is the current one. From this follows that sane kernels stay sane.
-/

namespace Sched

open Cyclic

variable {k k' : Kernel} {i next : Slot} {c : Call}

-- what remains of a context that is in use
structure Kept (k k' : Kernel) (i : Slot) : Prop where
  pid : (k'.list i).pid = (k.list i).pid
  osStackPfn : (k'.list i).osStackPfn = (k.list i).osStackPfn
  regs : i ≠ k.current → (k'.list i).regs = (k.list i).regs

namespace Kept

theorem of_list (h : k'.list i = k.list i) : Kept k k' i where
  pid := by rw [h]
  osStackPfn := by rw [h]
  regs := by
    intro _
    rw [h]

theorem trans {p : Kernel} (h1 : Kept k p i) (h2 : Kept p k' i) (hcurrent : p.current = k.current)
    : Kept k k' i where
  pid := h2.pid.trans h1.pid
  osStackPfn := h2.osStackPfn.trans h1.osStackPfn
  regs := by
    intro hi
    rw [h2.regs (by rw [hcurrent]; exact hi), h1.regs hi]

theorem schedule (p : Kernel) : Kept p (scheduleContext next p) i := by
  by_cases hi : i = next
  . subst hi
    constructor <;> simp [scheduleContext, Kernel.setCtx]
  . apply of_list
    simp [scheduleContext, Kernel.setCtx, hi]

theorem save (state : ProcessState) (rspPoint rbpPoint : Nat → U64) (skipRax : Bool) (p : Kernel)
    : Kept p (saveCurrentContext state rspPoint rbpPoint skipRax p) i := by
  by_cases hi : i = p.current
  . subst hi
    constructor
    . simp [saveCurrentContext, Kernel.setCtx, Kernel.cur]
    . simp [saveCurrentContext, Kernel.setCtx, Kernel.cur]
    . intro hne
      exact absurd rfl hne
  . apply of_list
    simp [saveCurrentContext, Kernel.setCtx, hi]

theorem prepare (h : k.table.Steady) : Kept k (handleTimerTick.prepare k) i where
  pid := handleTimerTick.prepare_pid h i
  osStackPfn := handleTimerTick.prepare_osStackPfn h i
  regs := handleTimerTick.prepare_regs h i

theorem setCur {p : Kernel} {new : Context} (hlist : p.list = Function.update k.list k.current new)
    (hpid : new.pid = k.cur.pid) (hpfn : new.osStackPfn = k.cur.osStackPfn)
    : Kept k p i := by
  by_cases hi : i = k.current
  . subst hi
    constructor
    . rw [hlist, Function.update_self]
      exact hpid
    . rw [hlist, Function.update_self]
      exact hpfn
    . intro hne
      exact absurd rfl hne
  . apply of_list
    rw [hlist, Function.update_of_ne hi]

theorem suspendByTick (h : k.table.Steady) : Kept k k.suspendByTick i := by
  apply trans (prepare h)
  . apply save
  . exact handleTimerTick.prepare_current h

theorem suspendBySleep (ticks : Nat) : Kept k (k.suspendBySleep ticks) i := by
  unfold Kernel.suspendBySleep
  apply trans (p := k.setCtx k.current { k.cur with ticksToSleep := ticks })
  . apply setCur <;> rfl
  . apply save
  . rfl

theorem dismiss : Kept k k.dismiss i := by
  apply setCur <;> rfl

end Kept

theorem Kernel.suspendByTick_current (h : k.table.Steady) : k.suspendByTick.current = k.current := by
  have hcurrent := handleTimerTick.prepare_current h
  unfold suspendByTick
  generalize handleTimerTick.prepare k = p at *
  exact hcurrent

theorem Outcome.kept (h : k.table.Steady) (hout : Outcome k c k') (hnot : ¬ c.Creates i) : Kept k k' i := by
  cases hout with
  | user cpu mem => exact Kept.of_list rfl
  | stay hidle =>
    have hkept := Kept.prepare (i := i) h
    generalize handleTimerTick.prepare k = p at *
    exact ⟨hkept.pid, hkept.osStackPfn, hkept.regs⟩
  | preempt next hnext =>
    apply Kept.trans (Kept.suspendByTick h) (Kept.schedule _)
    exact Kernel.suspendByTick_current h
  | sleep ticks next hcur hnext =>
    apply Kept.trans (Kept.suspendBySleep ticks) (Kept.schedule _)
    rfl
  | exit next hcur hnext =>
    apply Kept.trans Kept.dismiss (Kept.schedule _)
    rfl
  | clone thFunc userStack env rax j new hj hfree henv hctx hnew =>
    apply Kept.of_list
    have hij : i ≠ j := by
      intro heq
      rw [← heq] at hctx
      exact hnot hctx
    simp [hij]
  | signal signo handler rax s => apply Kept.setCur <;> rfl
  | alarm ticks rax => apply Kept.setCur <;> rfl

-- the context of a new process was unused, and so was its stack
structure Created (k k' : Kernel) (i : Slot) : Prop where
  ne_zero : i ≠ 0
  unused : (k.list i).state = .unused
  pid : (k'.list i).pid = i
  fresh : k.pfnUsed (k'.list i).osStackPfn = false
  pfn_ne : (k'.list i).osStackPfn ≠ 0
  used : k'.pfnUsed = Function.update k.pfnUsed (k'.list i).osStackPfn true

theorem Outcome.created (hout : Outcome k c k') (hc : c.Creates i) : Created k k' i := by
  cases hout with
  | clone thFunc userStack env rax j new hj hfree henv hctx hnew =>
    have hij : i = j := by
      have heq : env.newCtx = some i := hc
      rw [hctx, Option.some.injEq] at heq
      exact heq.symm
    subst hij
    constructor
    . exact hj
    . exact hfree
    . simp [hnew.2.2.1]
    . simp [hnew.2.2.2, henv.fresh]
    . simpa [hnew.2.2.2] using henv.pfn_ne
    . simp [hnew.2.2.2]
  | _ => cases hc

namespace Table

variable {t t' : Table} {p : Slot}

-- no slot comes into use but by a clone
theorem Step.unused (h : t.Steady) (hstep : t.Step c t') (hi : i ≠ 0) (hnot : ¬ c.Creates i)
    (hunused : t.state i = .unused)
    : t'.state i = .unused := by
  have hne : i ≠ t.current := by
    intro heq
    rw [heq, h.running] at hunused
    cases hunused
  have hsleep : t.sleep i = 0 := by
    apply Nat.eq_zero_of_not_pos
    intro hpos
    have := (h.asleep i hpos).2
    rw [hunused] at this
    cases this
  have hwoken : t.woken.state i = .unused := by
    simp [Table.woken, hsleep, hunused]
  have hchosen : ∀ (a next : Slot), t.Chosen a next → i ≠ next := by
    intro a next hnext heq
    cases hnext with
    | inl hfirst =>
      have := hfirst.1.2
      rw [← heq, hunused] at this
      cases this
    | inr hidle =>
      rw [hidle.2] at heq
      exact hi heq
  cases hstep with
  | user cpu mem => exact hunused
  | stay hidle => exact hwoken
  | preempt next hnext =>
    have hnext' : i ≠ next := by
      intro heq
      have := hnext.1.2
      rw [← heq, hwoken] at this
      cases this
    have hne' : i ≠ t.woken.current := hne
    simp only [Table.switched, Table.left, Function.update_of_ne hnext', Function.update_of_ne hne']
    exact hwoken
  | sleep ticks next hcur hnext =>
    have hnext' := hchosen _ _ hnext
    simp only [Table.switched, Table.left, Function.update_of_ne hnext', Function.update_of_ne hne]
    exact hunused
  | exit next hcur hnext =>
    have hnext' := hchosen _ _ hnext
    simp only [Table.switched, Table.left, Function.update_of_ne hnext', Function.update_of_ne hne]
    exact hunused
  | clone thFunc userStack env rax j hj hfree hctx =>
    have hij : i ≠ j := by
      intro heq
      rw [← heq] at hctx
      exact hnot hctx
    simp only [Table.cloned, Function.update_of_ne hij]
    exact hunused
  | signal signo handler rax => exact hunused
  | alarm ticks rax => exact hunused

theorem Step.used (hstep : t.Step c t') (hp : t.state p ≠ .unused)
    (hexit : c = .exit → p ≠ t.current)
    : t'.state p ≠ .unused := by
  have hwoken : t.woken.state p ≠ .unused := by
    simp only [woken]
    split
    . decide
    . exact hp
  have hswitched : ∀ (u : Table) (state : ProcessState) (n : Nat) (next : Slot), u.state p ≠ .unused
      → (p = u.current → state ≠ .unused) → ((u.left state n).switched next).state p ≠ .unused := by
    intro u state n next hu hcur
    simp only [switched, left]
    by_cases hnext : p = next
    . subst hnext
      simp
    . rw [Function.update_of_ne hnext]
      by_cases hpu : p = u.current
      . have hne := hcur hpu
        subst hpu
        rw [Function.update_self]
        exact hne
      . rw [Function.update_of_ne hpu]
        exact hu
  cases hstep with
  | user cpu mem => exact hp
  | stay hidle => exact hwoken
  | preempt next hnext =>
    apply hswitched _ _ _ _ hwoken
    intro _
    decide
  | sleep ticks next hcur hnext =>
    apply hswitched _ _ _ _ hp
    intro _
    decide
  | exit next hcur hnext =>
    apply hswitched _ _ _ _ hp
    intro heq
    exact absurd heq (hexit rfl)
  | clone thFunc userStack env rax i hi hfree hnew =>
    have hpi : p ≠ i := by
      intro heq
      rw [heq] at hp
      exact hp hfree
    simp only [cloned, Function.update_of_ne hpi]
    exact hp
  | signal signo handler rax => exact hp
  | alarm ticks rax => exact hp

end Table

theorem Kernel.Sane.step (h : k.Sane) (hstep : Step k c k') : k'.Sane where
  steady := h.steady.step (hstep.table h)
  pid := by
    intro i hi
    have hout := hstep.outcome h
    by_cases hc : c.Creates i
    . exact (hout.created hc).pid
    . rw [(hout.kept h.steady hc).pid]
      apply h.pid
      by_cases hzero : i = 0
      . exact .inl hzero
      . right
        intro hunused
        cases hi with
        | inl heq => exact hzero heq
        | inr hne => exact hne ((hstep.table h).unused h.steady hzero hc hunused)

theorem Kernel.Sane.run (h : k.Sane) {l : List Call} (hrun : Run Step k l k') : k'.Sane :=
  hrun.inv h (fun _ _ _ hsane hstep => hsane.step hstep)

end Sched
