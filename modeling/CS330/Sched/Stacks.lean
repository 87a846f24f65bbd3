import CS330.Sched.Boot

/-!
This module contains the reclamation of OS stacks: the stack of a process that exits is freed by the next tick,
as long as no other process exits before that.
-/

namespace Sched

open Cyclic

-- A run with the stacks of the processes that exited in it, those before its last tick apart from the others.
inductive History (step : Kernel → Call → Kernel → Prop) (k : Kernel) : List U32 → List U32 → Kernel → Prop where
  | nil : History step k [] [] k
  | exit {old new : List U32} {t u : Kernel} (hrun : History step k old new t) (hstep : step t .exit u)
      : History step k old (t.cur.osStackPfn :: new) u
  | tick {old new : List U32} {t u : Kernel} (hrun : History step k old new t) (hstep : step t .tick u)
      : History step k (new ++ old) [] u
  | other {old new : List U32} {t u : Kernel} (c : Call) (hexit : c ≠ .exit) (htick : c ≠ .tick)
      (hrun : History step k old new t) (hstep : step t c u)
      : History step k old new u

structure Reclaims (step : Kernel → Call → Kernel → Prop) (k : Kernel) : Prop where
  -- what has been freed are the stacks of those who exited before the last tick, each of them once
  once : ∀ (old new : List U32) (t : Kernel), History step k old new t → t.freed.Perm (old ++ k.freed)
  live : ∀ (old new : List U32) (t u : Kernel) (c : Call) (pfns : List U32) (pfn : U32) (i : Slot),
    History step k old new t → step t c u → u.freed = pfns ++ t.freed → pfn ∈ pfns
    → (t.list i).state ≠ .unused → (t.list i).osStackPfn ≠ pfn

-- whoever exits finds the stack of the one before freed
def PacedStep (k : Kernel) (c : Call) (k' : Kernel) : Prop :=
  Step k c k' ∧ (c = .exit → k.stackToFree = 0)

namespace Kernel

-- Processes have OS stacks of their own, and the one that is to be freed belongs to none of them.
structure Stacked (k : Kernel) : Prop where
  swapper : (k.list 0).state ≠ .unused
  nonzero : ∀ (i : Slot), (k.list i).state ≠ .unused → (k.list i).osStackPfn ≠ 0
  used : ∀ (i : Slot), (k.list i).state ≠ .unused → k.pfnUsed (k.list i).osStackPfn = true
  inj : ∀ (i j : Slot), (k.list i).state ≠ .unused → (k.list j).state ≠ .unused
    → (k.list i).osStackPfn = (k.list j).osStackPfn → i = j
  pending : k.stackToFree ≠ 0 → k.pfnUsed k.stackToFree = true
    ∧ ∀ (i : Slot), (k.list i).state ≠ .unused → (k.list i).osStackPfn ≠ k.stackToFree

end Kernel

variable {k k' : Kernel} {c : Call} {i : Slot}

theorem Call.Creates.unique {j : Slot} (hi : c.Creates i) (hj : c.Creates j) : i = j := by
  cases c with
  | clone thFunc userStack env rax =>
    have heq : some i = some j := hi.symm.trans hj
    rw [Option.some.injEq] at heq
    exact heq
  | _ => cases hi

theorem Outcome.frames_tick (h : k.table.Steady) (hout : Outcome k .tick k')
    : k'.stackToFree = 0
      ∧ k'.freed = (if k.stackToFree = 0 then k.freed else k.stackToFree :: k.freed)
      ∧ k'.pfnUsed
        = (if k.stackToFree = 0 then k.pfnUsed else Function.update k.pfnUsed k.stackToFree false) := by
  have hprepare : (handleTimerTick.prepare k).stackToFree = 0
      ∧ (handleTimerTick.prepare k).freed
        = (if k.stackToFree = 0 then k.freed else k.stackToFree :: k.freed)
      ∧ (handleTimerTick.prepare k).pfnUsed
        = (if k.stackToFree = 0 then k.pfnUsed else Function.update k.pfnUsed k.stackToFree false) := by
    rw [handleTimerTick.prepare_eq h]
    exact ⟨rfl, rfl, rfl⟩
  cases hout with
  | stay hidle =>
    generalize handleTimerTick.prepare k = q at *
    exact hprepare
  | preempt next hnext =>
    unfold Kernel.suspendByTick
    generalize handleTimerTick.prepare k = q at *
    exact hprepare

theorem Outcome.frames_exit (hout : Outcome k .exit k')
    : k'.stackToFree = k.cur.osStackPfn ∧ k'.freed = k.freed ∧ k'.pfnUsed = k.pfnUsed := by
  cases hout with
  | exit next hcur hnext => exact ⟨rfl, rfl, rfl⟩

theorem Outcome.frames_other (hout : Outcome k c k') (hexit : c ≠ .exit) (htick : c ≠ .tick)
    : k'.stackToFree = k.stackToFree ∧ k'.freed = k.freed
      ∧ (k'.pfnUsed = k.pfnUsed ∨ ∃ (i : Slot), c.Creates i) := by
  cases hout with
  | stay hidle => exact absurd rfl htick
  | preempt next hnext => exact absurd rfl htick
  | exit next hcur hnext => exact absurd rfl hexit
  | clone thFunc userStack env rax i new hi hfree henv hctx hnew => exact ⟨rfl, rfl, .inr ⟨i, hctx⟩⟩
  | _ => exact ⟨rfl, rfl, .inl rfl⟩

-- a slot that is in use after a step was so before, or was handed out
theorem Step.live (h : k.Sane) (hswapper : (k.list 0).state ≠ .unused) (hstep : Step k c k')
    (hnot : ¬ c.Creates i) (hlive : (k'.list i).state ≠ .unused)
    : (k.list i).state ≠ .unused := by
  by_cases hi : i = 0
  . rw [hi]
    exact hswapper
  . intro hunused
    exact hlive ((hstep.table h).unused h.steady hi hnot hunused)

theorem Step.exited (h : k.Sane) (hstep : Step k .exit k') : (k'.list k.current).state = .unused := by
  have htable := hstep.table h
  generalize ht : k'.table = t' at htable
  have hstate : (k'.list k.current).state = t'.state k.current := by
    rw [← ht]
    rfl
  rw [hstate]
  cases htable with
  | exit next hcur hnext =>
    have hne := (h.steady.chosen hcur hnext).1
    have hne' : k.current ≠ next := hne.symm
    simp only [Table.switched, Table.left]
    rw [Function.update_of_ne hne']
    exact Function.update_self _ _ _

namespace Kernel.Stacked

theorem stackOf (h : k.Stacked) (hsane : k.Sane) (hstep : Step k c k') (hnot : ¬ c.Creates i)
    (hlive : (k'.list i).state ≠ .unused)
    : (k.list i).state ≠ .unused ∧ (k'.list i).osStackPfn = (k.list i).osStackPfn := by
  refine ⟨hstep.live hsane h.swapper hnot hlive, ?_⟩
  exact ((hstep.outcome hsane).kept hsane.steady hnot).osStackPfn

theorem fresh (h : k.Stacked) (hsane : k.Sane) (hstep : Step k c k') (hc : c.Creates i) {j : Slot}
    (hnot : ¬ c.Creates j) (hlive : (k'.list j).state ≠ .unused)
    : (k'.list i).osStackPfn ≠ (k'.list j).osStackPfn := by
  have hcreated := (hstep.outcome hsane).created hc
  have hold := h.stackOf hsane hstep hnot hlive
  intro heq
  have hfresh := hcreated.fresh
  rw [heq, hold.2, h.used j hold.1] at hfresh
  cases hfresh

theorem swapper_step (h : k.Stacked) (hsane : k.Sane) (hstep : Step k c k')
    : (k'.list 0).state ≠ .unused := by
  apply (hstep.table hsane).used h.swapper
  intro hc
  rw [hc] at hstep
  exact hstep.1.symm

theorem nonzero_step (h : k.Stacked) (hsane : k.Sane) (hstep : Step k c k')
    (hlive : (k'.list i).state ≠ .unused)
    : (k'.list i).osStackPfn ≠ 0 := by
  by_cases hc : c.Creates i
  . exact ((hstep.outcome hsane).created hc).pfn_ne
  . have hold := h.stackOf hsane hstep hc hlive
    rw [hold.2]
    exact h.nonzero i hold.1

theorem inj_step (h : k.Stacked) (hsane : k.Sane) (hstep : Step k c k') (i j : Slot)
    (hi : (k'.list i).state ≠ .unused) (hj : (k'.list j).state ≠ .unused)
    (heq : (k'.list i).osStackPfn = (k'.list j).osStackPfn)
    : i = j := by
  by_cases hci : c.Creates i
  . by_cases hcj : c.Creates j
    . exact Call.Creates.unique hci hcj
    . exact absurd heq (h.fresh hsane hstep hci hcj hj)
  . by_cases hcj : c.Creates j
    . exact absurd heq.symm (h.fresh hsane hstep hcj hci hi)
    . have holdi := h.stackOf hsane hstep hci hi
      have holdj := h.stackOf hsane hstep hcj hj
      rw [holdi.2, holdj.2] at heq
      exact h.inj i j holdi.1 holdj.1 heq

-- the frames that are in use after a step other than a tick
theorem pfnUsed_step (hsane : k.Sane) (hstep : Step k c k') (htick : c ≠ .tick) {pfn : U32}
    (hused : k.pfnUsed pfn = true)
    : k'.pfnUsed pfn = true := by
  have hout := hstep.outcome hsane
  by_cases hexit : c = .exit
  . subst hexit
    rw [hout.frames_exit.2.2]
    exact hused
  . cases (hout.frames_other hexit htick).2.2 with
    | inl hsame =>
      rw [hsame]
      exact hused
    | inr hc =>
      obtain ⟨i, hc⟩ := hc
      rw [(hout.created hc).used]
      by_cases hpfn : pfn = (k'.list i).osStackPfn
      . rw [hpfn]
        simp
      . rw [Function.update_of_ne hpfn]
        exact hused

theorem used_step (h : k.Stacked) (hsane : k.Sane) (hstep : Step k c k')
    (hlive : (k'.list i).state ≠ .unused)
    : k'.pfnUsed (k'.list i).osStackPfn = true := by
  have hout := hstep.outcome hsane
  by_cases hc : c.Creates i
  . rw [(hout.created hc).used]
    simp
  . have hold := h.stackOf hsane hstep hc hlive
    rw [hold.2]
    by_cases htick : c = .tick
    . subst htick
      rw [(hout.frames_tick hsane.steady).2.2]
      split
      . exact h.used i hold.1
      . next hpending =>
        have hne := (h.pending hpending).2 i hold.1
        rw [Function.update_of_ne hne]
        exact h.used i hold.1
    . exact pfnUsed_step hsane hstep htick (h.used i hold.1)

theorem pending_step (h : k.Stacked) (hsane : k.Sane) (hstep : Step k c k') (hpending : k'.stackToFree ≠ 0)
    : k'.pfnUsed k'.stackToFree = true
      ∧ ∀ (i : Slot), (k'.list i).state ≠ .unused → (k'.list i).osStackPfn ≠ k'.stackToFree := by
  have hout := hstep.outcome hsane
  by_cases htick : c = .tick
  . subst htick
    exact absurd (hout.frames_tick hsane.steady).1 hpending
  . by_cases hexit : c = .exit
    . -- the stack of the process that exits was its own
      subst hexit
      have hlive : (k.list k.current).state ≠ .unused := by
        have hrunning : (k.list k.current).state = .running := hsane.steady.running
        rw [hrunning]
        decide
      rw [hout.frames_exit.1]
      constructor
      . exact pfnUsed_step hsane hstep htick (h.used k.current hlive)
      . intro i hi heq
        have hold := h.stackOf hsane hstep (fun hc => hc) hi
        rw [hold.2] at heq
        have hcur := h.inj i k.current hold.1 hlive heq
        rw [hcur] at hi
        exact hi (hstep.exited hsane)
    . have hframes := hout.frames_other hexit htick
      rw [hframes.1] at hpending ⊢
      have hold := h.pending hpending
      constructor
      . exact pfnUsed_step hsane hstep htick hold.1
      . intro i hi heq
        by_cases hc : c.Creates i
        . have hfresh := (hout.created hc).fresh
          rw [heq, hold.1] at hfresh
          cases hfresh
        . have hstack := h.stackOf hsane hstep hc hi
          rw [hstack.2] at heq
          exact hold.2 i hstack.1 heq

theorem step (h : k.Stacked) (hsane : k.Sane) (hstep : Step k c k') : k'.Stacked where
  swapper := h.swapper_step hsane hstep
  nonzero := fun _ hlive => h.nonzero_step hsane hstep hlive
  used := fun _ hlive => h.used_step hsane hstep hlive
  inj := h.inj_step hsane hstep
  pending := h.pending_step hsane hstep

end Kernel.Stacked

theorem History.accounted {old new : List U32} {t : Kernel} (h : k.Sane) (hstacked : k.Stacked)
    (hzero : k.stackToFree = 0) (hrun : History PacedStep k old new t)
    : t.Sane ∧ t.Stacked ∧ t.freed = old ++ k.freed
      ∧ ((new = [] ∧ t.stackToFree = 0) ∨ (new = [t.stackToFree] ∧ t.stackToFree ≠ 0)) := by
  induction hrun with
  | nil => exact ⟨h, hstacked, rfl, .inl ⟨rfl, hzero⟩⟩
  | exit hrun hstep ih =>
    next old new t u =>
    obtain ⟨hsane, hst, hfreed, hnew⟩ := ih
    have hframes := (hstep.1.outcome hsane).frames_exit
    have hlive : (t.list t.current).state ≠ .unused := by
      have hrunning : (t.list t.current).state = .running := hsane.steady.running
      rw [hrunning]
      decide
    have hnil : new = [] := by
      cases hnew with
      | inl hnil => exact hnil.1
      | inr hone => exact absurd (hstep.2 rfl) hone.2
    refine ⟨hsane.step hstep.1, hst.step hsane hstep.1, ?_, .inr ⟨?_, ?_⟩⟩
    . rw [hframes.2.1, hfreed]
    . rw [hframes.1, hnil]
    . rw [hframes.1]
      exact hst.nonzero t.current hlive
  | tick hrun hstep ih =>
    next old new t u =>
    obtain ⟨hsane, hst, hfreed, hnew⟩ := ih
    have hframes := (hstep.1.outcome hsane).frames_tick hsane.steady
    refine ⟨hsane.step hstep.1, hst.step hsane hstep.1, ?_, .inl ⟨rfl, hframes.1⟩⟩
    rw [hframes.2.1]
    cases hnew with
    | inl hnil => rw [if_pos hnil.2, hnil.1, hfreed, List.nil_append]
    | inr hone =>
      rw [if_neg hone.2, hone.1, hfreed]
      rfl
  | other c hexit htick hrun hstep ih =>
    next old new t u =>
    obtain ⟨hsane, hst, hfreed, hnew⟩ := ih
    have hframes := (hstep.1.outcome hsane).frames_other hexit htick
    refine ⟨hsane.step hstep.1, hst.step hsane hstep.1, ?_, ?_⟩
    . rw [hframes.2.1, hfreed]
    . rw [hframes.1]
      exact hnew

-- a step frees at most the stack that was put aside
theorem Step.freed {pfns : List U32} {pfn : U32} (h : k.Sane) (hstep : Step k c k')
    (hfreed : k'.freed = pfns ++ k.freed) (hpfn : pfn ∈ pfns)
    : k.stackToFree ≠ 0 ∧ pfn = k.stackToFree := by
  have hnone : k'.freed ≠ k.freed := by
    intro heq
    rw [heq] at hfreed
    have hnil := List.self_eq_append_left.mp hfreed
    rw [hnil] at hpfn
    cases hpfn
  by_cases htick : c = .tick
  . subst htick
    have hframes := ((hstep.outcome h).frames_tick h.steady).2.1
    by_cases hzero : k.stackToFree = 0
    . rw [if_pos hzero] at hframes
      exact absurd hframes hnone
    . rw [if_neg hzero, hfreed] at hframes
      have hone : pfns = [k.stackToFree] := List.append_cancel_right hframes
      rw [hone, List.mem_singleton] at hpfn
      exact ⟨hzero, hpfn⟩
  . by_cases hexit : c = .exit
    . subst hexit
      exact absurd (hstep.outcome h).frames_exit.2.1 hnone
    . exact absurd ((hstep.outcome h).frames_other hexit htick).2.1 hnone

theorem pacedStep_reclaims (h : k.Sane) (hstacked : k.Stacked) (hzero : k.stackToFree = 0)
    : Reclaims PacedStep k where
  once := by
    intro old new t hrun
    rw [(hrun.accounted h hstacked hzero).2.2.1]
  live := by
    intro old new t u c pfns pfn i hrun hstep hfreed hpfn hlive
    obtain ⟨hsane, hst, -, -⟩ := hrun.accounted h hstacked hzero
    have hone := hstep.1.freed hsane hfreed hpfn
    rw [hone.2]
    exact (hst.pending hone.1).2 i hlive

theorem boot_stacked : boot.Stacked where
  swapper := by decide
  nonzero := by decide
  used := by decide
  inj := by decide
  pending := by
    intro hpending
    exact absurd rfl hpending

theorem pacedStep_reclaims_boot
    : (∃ (k : Kernel), PacedStep boot (cloneInto 2 3) k) ∧ Reclaims PacedStep boot := by
  constructor
  . obtain ⟨k, hstep, _⟩ := exists_step (k := boot) (c := cloneInto 2 3) (p := fun _ => true) (by decide +kernel)
    exact ⟨k, hstep, nofun⟩
  . exact pacedStep_reclaims boot_sane boot_stacked rfl

-- Init and its first child exit before the next tick, which frees the stack of the child only.
theorem not_reclaims_boot : ¬ Reclaims Step boot := by
  intro hreclaims
  let rest : Kernel → Bool := fun k₂ =>
    (execAll [.exit] k₂).any fun k₃ =>
      (execAll [.exit] k₃).any fun k₄ =>
        (execAll [.tick] k₄).any fun k₅ => decide (k₅.freed = [3])
  obtain ⟨k₁, hstep₁, h₁⟩ := exists_step (k := boot) (c := cloneInto 2 3)
    (p := fun k₁ => (execAll [cloneInto 3 4] k₁).any rest) (by decide +kernel)
  obtain ⟨k₂, hstep₂, h₂⟩ := exists_step h₁
  obtain ⟨k₃, hstep₃, h₃⟩ := exists_step h₂
  obtain ⟨k₄, hstep₄, h₄⟩ := exists_step h₃
  obtain ⟨k₅, hstep₅, h₅⟩ := exists_step h₄
  rw [decide_eq_true_eq] at h₅
  have hrun₁ : History Step boot [] [] k₁ := .other (cloneInto 2 3) nofun nofun .nil hstep₁
  have hrun₂ : History Step boot [] [] k₂ := .other (cloneInto 3 4) nofun nofun hrun₁ hstep₂
  have hrun₅ := ((hrun₂.exit hstep₃).exit hstep₄).tick hstep₅
  have hlength := (hreclaims.once _ _ k₅ hrun₅).length_eq
  rw [h₅] at hlength
  simp [boot] at hlength

end Sched
