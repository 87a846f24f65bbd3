import CS330.Sched.Boot
import Mathlib.Data.Finset.Card
import Mathlib.Data.Fintype.Basic

/-!
This module contains how many processes are alive in a run, and that it is the exit of the last one that shuts the
machine down.
-/

namespace Sched

open Cyclic

namespace Call

def isExit : Call → Bool
  | .exit => true
  | _ => false

def isClone : Call → Bool
  | .clone _ _ _ _ => true
  | _ => false

end Call

variable {k k' : Kernel} {c : Call} {i j : Slot}

namespace Table

-- the processes, without the swapper
def alive (t : Table) : Finset Slot :=
  Finset.univ.filter (fun i => i ≠ 0 ∧ t.state i ≠ .unused)

-- Contexts in use are in one of the states that the scheduler itself gives.
def Plain (t : Table) : Prop :=
  ∀ (i : Slot), i ≠ 0 → t.state i = .unused ∨ t.state i = .ready ∨ t.state i = .running ∨ t.state i = .waiting

variable {t t' : Table}

@[simp]
theorem mem_alive : i ∈ t.alive ↔ i ≠ 0 ∧ t.state i ≠ .unused := by
  simp [alive]

theorem Plain.woken (h : t.Plain) : t.woken.Plain := by
  intro i hi
  simp only [Table.woken]
  split
  . exact .inr (.inl rfl)
  . exact h i hi

theorem Plain.switch {state : ProcessState} {n : Nat} {next : Slot} (h : t.Plain)
    (hstate : state = .unused ∨ state = .ready ∨ state = .running ∨ state = .waiting)
    : ((t.left state n).switched next).Plain := by
  intro i hi
  simp only [switched, left]
  by_cases hnext : i = next
  . rw [hnext, Function.update_self]
    exact .inr (.inr (.inl rfl))
  . rw [Function.update_of_ne hnext]
    by_cases hcur : i = t.current
    . rw [hcur, Function.update_self]
      exact hstate
    . rw [Function.update_of_ne hcur]
      exact h i hi

theorem Plain.step (h : t.Plain) (hstep : t.Step c t') : t'.Plain := by
  cases hstep with
  | user cpu mem => exact h
  | stay hidle => exact h.woken
  | preempt next hnext => exact h.woken.switch (.inr (.inl rfl))
  | sleep ticks next hcur hnext => exact h.switch (.inr (.inr (.inr rfl)))
  | exit next hcur hnext => exact h.switch (.inl rfl)
  | clone thFunc userStack env rax j hj hfree hnew =>
    intro i hi
    simp only [cloned]
    by_cases hij : i = j
    . rw [hij, Function.update_self]
      exact .inr (.inl rfl)
    . rw [Function.update_of_ne hij]
      exact h i hi
  | signal signo handler rax => exact h
  | alarm ticks rax => exact h

namespace Step

theorem alive_exit (h : t.Steady) (hstep : t.Step .exit t') : t'.alive = t.alive.erase t.current := by
  ext i
  rw [Finset.mem_erase, mem_alive, mem_alive]
  constructor
  . rintro ⟨hi, hused⟩
    have hold : t.state i ≠ .unused := fun hunused => hused (hstep.unused h hi (fun hc => hc) hunused)
    refine ⟨?_, hi, hold⟩
    rintro rfl
    cases hstep with
    | exit next hcur hnext =>
      apply hused
      simp [switched, left, (h.chosen hcur hnext).1.symm]
  . rintro ⟨hne, hi, hused⟩
    exact ⟨hi, hstep.used hused (fun _ => hne)⟩

theorem alive_clone {thFunc userStack : U64} {env : CloneEnv} {rax : U64} (h : t.Steady)
    (hstep : t.Step (.clone thFunc userStack env rax) t')
    : ∃ (i : Slot), env.newCtx = some i ∧ i ∉ t.alive ∧ t'.alive = insert i t.alive := by
  have hunused := fun (j : Slot) => hstep.unused (i := j) h
  have hused := fun (j : Slot) => hstep.used (p := j)
  cases hstep with
  | clone _ _ _ _ i hi hfree hnew =>
    refine ⟨i, hnew, ?_, ?_⟩
    . rw [mem_alive, hfree]
      exact fun hboth => hboth.2 rfl
    . ext j
      rw [Finset.mem_insert, mem_alive, mem_alive]
      constructor
      . rintro ⟨hj, huse⟩
        by_cases hij : j = i
        . exact .inl hij
        . right
          refine ⟨hj, fun hold => huse (hunused j hj ?_ hold)⟩
          intro hc
          rw [Call.Creates, hnew, Option.some.injEq] at hc
          exact hij hc.symm
      . rintro (rfl | ⟨hj, huse⟩)
        . exact ⟨hi, by simp [cloned]⟩
        . refine ⟨hj, hused j huse ?_⟩
          intro hc
          cases hc

theorem alive_other (h : t.Steady) (hstep : t.Step c t') (hexit : c.isExit = false) (hclone : c.isClone = false)
    : t'.alive = t.alive := by
  ext i
  rw [mem_alive, mem_alive]
  constructor
  . rintro ⟨hi, hused⟩
    refine ⟨hi, fun hunused => hused (hstep.unused h hi ?_ hunused)⟩
    cases c with
    | clone => cases hclone
    | _ => exact id
  . rintro ⟨hi, hused⟩
    refine ⟨hi, hstep.used hused ?_⟩
    rintro rfl
    cases hexit

theorem card_alive (h : t.Steady) (hstep : t.Step c t')
    : t'.alive.card + [c].countP Call.isExit = t.alive.card + [c].countP Call.isClone := by
  cases c with
  | exit =>
    have hcur : t.current ∈ t.alive := by
      cases hstep with
      | exit next hcur hnext =>
        rw [mem_alive, h.running]
        exact ⟨hcur, nofun⟩
    rw [hstep.alive_exit h]
    exact Finset.card_erase_add_one hcur
  | clone thFunc userStack env rax =>
    obtain ⟨i, -, hnot, halive⟩ := hstep.alive_clone h
    rw [halive, Finset.card_insert_of_notMem hnot]
    rfl
  | _ =>
    rw [hstep.alive_other h rfl rfl]
    rfl

end Step

end Table

theorem pickNextContext_eq_none {list : Slot → Context}
    : pickNextContext list = none
        ↔ ∀ (j : Slot), j ≠ 0 → (list j).state ≠ .running ∧ (list j).state ≠ .ready ∧ (list j).state ≠ .waiting := by
  have hsplit : (∀ (j : Slot), j ≠ 0 → (list j).state ≠ .running ∧ (list j).state ≠ .ready
      ∧ (list j).state ≠ .waiting)
      ↔ firstIn list .running 1 maxProcesses = none ∧ firstIn list .ready 1 maxProcesses = none
        ∧ firstIn list .waiting 1 maxProcesses = none := by
    rw [firstIn_all_eq_none, firstIn_all_eq_none, firstIn_all_eq_none]
    simp only [imp_and, forall_and]
  rw [hsplit]
  unfold pickNextContext
  cases firstIn list .running 1 maxProcesses with
  | none =>
    cases firstIn list .ready 1 maxProcesses with
    | none => cases firstIn list .waiting 1 maxProcesses <;> simp
    | some i => simp
  | some running =>
    simp only [reduceCtorEq, false_and, iff_false]
    split
    . nofun
    . split
      . nofun
      . nofun

-- Making a name goes wrong only by writing too far or by an overflow.
namespace cloneName

theorem bind_ne {α β : Type} {x : Except Fault α} {f : α → Except Fault β} (hx : x ≠ .error .cleanup)
    (hf : ∀ (a : α), f a ≠ .error .cleanup)
    : (x >>= f) ≠ .error .cleanup := by
  cases x with
  | error e =>
    intro heq
    exact hx (congrArg Except.error (Except.error.inj heq))
  | ok a => exact hf a

theorem poke_ne (b : Buf cnameMax) (i : Nat) (v : Byte) : poke b i v ≠ .error .cleanup := by
  unfold poke
  split
  . nofun
  . nofun

theorem reverse_ne (n : Nat) : ∀ (num rev : Nat), numToStr.reverse n num rev ≠ .error .cleanup := by
  induction n with
  | zero => nofun
  | succ n ih =>
    intro num rev
    rw [numToStr.reverse]
    split
    . split
      . exact ih _ _
      . nofun
    . nofun

theorem digits_ne (n : Nat)
    : ∀ (rev i : Nat) (str : Buf cnameMax), numToStr.digits n rev i str ≠ .error .cleanup := by
  induction n with
  | zero =>
    intro rev i str
    exact poke_ne str i 0#8
  | succ n ih =>
    intro rev i str
    rw [numToStr.digits]
    split
    . exact bind_ne (poke_ne str i _) (fun str => ih _ _ str)
    . exact poke_ne str i 0#8

theorem numToStr_ne (str : Buf cnameMax) (num : Int) : numToStr str num ≠ .error .cleanup :=
  bind_ne (reverse_ne _ _ _) (fun rev => digits_ne rev rev 0 str)

theorem strcat_ne (dst src : Buf cnameMax) (len : Nat) : strcat dst src len ≠ .error .cleanup := by
  unfold strcat
  split
  . nofun
  . split
    . nofun
    . nofun

end cloneName

theorem cloneName_ne (parent : Buf cnameMax) (num : Nat) (name pid old : Buf cnameMax)
    : cloneName parent num name pid old ≠ .error .cleanup := by
  unfold cloneName
  split
  . nofun
  . apply cloneName.bind_ne (cloneName.numToStr_ne _ _)
    intro pid
    split
    . nofun
    . next pidLen _ =>
      have hpoke : ∀ (name : Buf cnameMax) (length : Nat),
          (if length + pidLen + 1 ≤ cnameMax then
            poke (old.copy 0 name.get (length + pidLen + 1)) (length + pidLen + 1) 0#8
          else
            throw .outOfBounds) ≠ .error .cleanup := by
        intro name length
        split
        . exact cloneName.poke_ne _ _ _
        . nofun
      dsimp only
      split
      . exact cloneName.bind_ne (cloneName.strcat_ne _ pid pidLen) (fun name => hpoke name _)
      . exact hpoke _ _

theorem doClone_ne (thFunc userStack : U64) (env : CloneEnv) (rax : U64) (k : Kernel)
    : doClone thFunc userStack env rax k ≠ .error .cleanup := by
  unfold doClone
  split
  . nofun
  . exact cloneName.bind_ne (cloneName_ne _ _ _ _ _) nofun

theorem doSignal_ne (signo : Int) (handler rax : U64) (k : Kernel)
    : doSignal signo handler rax k ≠ .error .cleanup := by
  unfold doSignal
  split
  . nofun
  . nofun

theorem Kernel.Sane.current_alive (h : k.Sane) (hcur : k.current ≠ 0) : k.current ∈ k.table.alive := by
  have hrunning : k.table.state k.current = .running := h.steady.running
  rw [Table.mem_alive, hrunning]
  exact ⟨hcur, nofun⟩

theorem doSleep_ne (hcur : k.current ≠ 0) (ticks : Nat) : doSleep ticks k ≠ .error .cleanup := by
  rw [doSleep_eq]
  split
  . next hpick => exact absurd (k.suspendBySleep_state ticks) (pickNextContext_eq_none.mp hpick k.current hcur).2.2
  . nofun

section

variable (h : k.Sane) (hplain : k.table.Plain)

include h hplain

-- somebody is always found by a tick
theorem handleTimerTick_ne (halive : k.table.alive.Nonempty) : handleTimerTick k ≠ .error .cleanup := by
  have htable := handleTimerTick.prepare_table h.steady
  have hwoken := hplain.woken
  unfold handleTimerTick
  generalize handleTimerTick.prepare k = p at *
  dsimp only
  split
  . next hpick =>
    obtain ⟨i, hi⟩ := halive
    rw [Table.mem_alive] at hi
    have hnone := pickNextContext_eq_none.mp hpick i hi.1
    have hstate : (p.list i).state = k.table.woken.state i := congrFun (congrArg Table.state htable) i
    rw [hstate] at hnone
    rcases hwoken i hi.1 with hunused | hready | hrunning | hwaiting
    . simp only [Table.woken] at hunused
      split at hunused
      . cases hunused
      . exact absurd hunused hi.2
    . exact absurd hready hnone.2.1
    . exact absurd hrunning hnone.1
    . exact absurd hwaiting hnone.2.2
  . intro hcleanup
    cases hcleanup

theorem doExit_cleanup_iff (hcur : k.current ≠ 0)
    : doExit k = .error .cleanup ↔ k.table.alive = {k.current} := by
  have hcases := pickNextContext_running hcur h.steady.running h.steady.only
  have hpid : ∀ (i : Slot), (k.dismiss.list i).pid = (k.list i).pid := by
    intro i
    by_cases hi : i = k.current
    . subst hi
      simp [Kernel.dismiss, Kernel.cur]
    . simp [Kernel.dismiss, hi]
  have hcurpid : k.dismiss.cur.pid = k.cur.pid := hpid k.current
  have hlist : ∀ (i : Slot), i ≠ k.current → k.dismiss.list i = k.list i := by
    intro i hi
    simp [Kernel.dismiss, hi]
  rw [IsReady_list] at hcases
  rw [doExit_eq]
  rcases hcases with ⟨next, hnext, hpick⟩ | ⟨hidle, hpick⟩
  . have hne : next ≠ k.current := h.steady.ne_current hnext.1
    simp only [hpick]
    rw [hpid, hcurpid, h.pid_ready hnext.1, h.pid_current, if_pos (fun heq => hne (Fin.ext heq))]
    simp only [reduceCtorEq, false_iff]
    intro halive
    have hused : k.table.state next ≠ .unused := by
      rw [hnext.1.2]
      decide
    have hmem : next ∈ k.table.alive := Table.mem_alive.mpr ⟨hnext.1.1, hused⟩
    rw [halive, Finset.mem_singleton] at hmem
    exact hne hmem
  . simp only [hpick]
    rw [hpid, hcurpid, if_neg (fun hne => hne rfl)]
    unfold waitingProcExists
    cases hwaits : firstIn k.dismiss.list .waiting 1 maxProcesses with
    | some i =>
      obtain ⟨hstate, hi, -⟩ := firstIn_eq_some.mp hwaits
      simp only [Option.isSome_some, ↓reduceIte, reduceCtorEq, false_iff]
      intro halive
      have hne : i ≠ k.current := by
        rintro rfl
        simp [Kernel.dismiss] at hstate
      have hmem : i ∈ k.table.alive := by
        rw [Table.mem_alive]
        refine ⟨(ne_zero_iff i).mpr hi, ?_⟩
        have hwaiting : k.table.state i = .waiting := by
          rw [← hstate, hlist i hne]
          rfl
        rw [hwaiting]
        decide
      rw [halive, Finset.mem_singleton] at hmem
      exact hne hmem
    | none =>
      rw [firstIn_all_eq_none] at hwaits
      simp only [Option.isSome_none, Bool.false_eq_true, ↓reduceIte, true_iff]
      ext i
      rw [Finset.mem_singleton]
      constructor
      . intro hi
        by_contra hne
        rw [Table.mem_alive] at hi
        have hnot := hwaits i hi.1
        rw [hlist i hne] at hnot
        rcases hplain i hi.1 with hunused | hready | hrunning | hwaiting
        . exact hi.2 hunused
        . exact hidle i ⟨hi.1, hready⟩
        . exact hne (h.steady.only i hrunning)
        . exact hnot hwaiting
      . rintro rfl
        exact h.current_alive hcur

theorem exec_cleanup_iff (halive : k.table.alive.Nonempty) (hallowed : c.Allowed k)
    : c.exec k = .error .cleanup ↔ c = .exit ∧ k.table.alive = {k.current} := by
  cases c with
  | exit =>
    rw [Call.exec, doExit_cleanup_iff h hplain hallowed]
    exact ⟨fun heq => ⟨rfl, heq⟩, fun hboth => hboth.2⟩
  | user cpu mem =>
    simp only [reduceCtorEq, false_and, iff_false]
    intro hcleanup
    cases hcleanup
  | tick =>
    simp only [Call.exec, reduceCtorEq, false_and, iff_false]
    exact handleTimerTick_ne h hplain halive
  | sleep ticks =>
    simp only [reduceCtorEq, false_and, iff_false]
    exact doSleep_ne hallowed ticks
  | clone thFunc userStack env rax =>
    simp only [reduceCtorEq, false_and, iff_false]
    exact doClone_ne thFunc userStack env rax k
  | signal signo handler rax =>
    simp only [reduceCtorEq, false_and, iff_false]
    exact doSignal_ne signo handler rax k
  | alarm ticks rax =>
    simp only [reduceCtorEq, false_and, iff_false]
    intro hcleanup
    cases hcleanup

end

/-- What the calls `l` since `k₀` say about the processes of `k`. -/
structure Populated (k₀ : Kernel) (l : List Call) (k : Kernel) : Prop where
  sane : k.Sane
  plain : k.table.Plain
  alive : k.table.alive.Nonempty
  card : k.table.alive.card + l.countP Call.isExit = k₀.table.alive.card + l.countP Call.isClone

namespace Populated

variable {k₀ : Kernel} {l : List Call}

theorem step (h : Populated k₀ l k) (hstep : Step k c k') : Populated k₀ (l ++ [c]) k' where
  sane := h.sane.step hstep
  plain := h.plain.step (hstep.table h.sane)
  alive := by
    have htable := hstep.table h.sane
    cases c with
    | exit =>
      rw [htable.alive_exit h.sane.steady, Finset.nonempty_iff_ne_empty]
      intro hempty
      have hcleanup : Call.exit.exec k = .error .cleanup := by
        rw [exec_cleanup_iff h.sane h.plain h.alive hstep.1]
        exact ⟨rfl, ((Finset.erase_eq_empty_iff _ _).mp hempty).resolve_left h.alive.ne_empty⟩
      rw [hstep.2] at hcleanup
      cases hcleanup
    | clone thFunc userStack env rax =>
      obtain ⟨i, -, -, halive⟩ := htable.alive_clone h.sane.steady
      rw [halive]
      exact Finset.insert_nonempty i _
    | _ =>
      rw [htable.alive_other h.sane.steady rfl rfl]
      exact h.alive
  card := by
    have hcard := (hstep.table h.sane).card_alive h.sane.steady
    have hold := h.card
    rw [List.countP_append, List.countP_append]
    omega

theorem run (h : Populated k₀ [] k₀) (hrun : Run Step k₀ l k) : Populated k₀ l k := by
  induction hrun with
  | nil => exact h
  | snoc hrun hstep ih => exact ih.step hstep

-- one process is alive, which is the caller
theorem last_iff (h : Populated k₀ l k) (hcur : k.current ≠ 0)
    : k.table.alive = {k.current}
        ↔ l.countP Call.isExit + 1 = k₀.table.alive.card + l.countP Call.isClone := by
  have hcard := h.card
  have hmem := h.sane.current_alive hcur
  constructor
  . intro halive
    rw [halive, Finset.card_singleton] at hcard
    omega
  . intro hcount
    obtain ⟨i, hi⟩ := Finset.card_eq_one.mp (show k.table.alive.card = 1 by omega)
    rw [hi, Finset.mem_singleton] at hmem
    rw [hi, hmem]

end Populated

/-- Who is alive after a run: the calls decide, and the last exit shuts the machine down. -/
structure Counted (k₀ : Kernel) (l : List Call) (k : Kernel) : Prop where
  card : k.table.alive.card + l.countP Call.isExit = k₀.table.alive.card + l.countP Call.isClone
  shutDown : ∀ (c : Call), c.Allowed k → (c.exec k = .error .cleanup
    ↔ c = .exit ∧ l.countP Call.isExit + 1 = k₀.table.alive.card + l.countP Call.isClone)
  comes : ∀ (c : Call) (k' : Kernel) (i : Slot), Step k c k' → i ≠ 0 → (k.list i).state = .unused
    → ((k'.list i).state ≠ .unused ↔ c.Creates i)
  goes : ∀ (c : Call) (k' : Kernel) (i : Slot), Step k c k' → i ≠ 0 → (k.list i).state ≠ .unused
    → ((k'.list i).state = .unused ↔ c = .exit ∧ i = k.current)

theorem Step.comes_iff (h : k.Sane) (hstep : Step k c k') (hi : i ≠ 0) (hunused : (k.list i).state = .unused)
    : (k'.list i).state ≠ .unused ↔ c.Creates i := by
  constructor
  . intro hused
    by_contra hnot
    exact hused ((hstep.table h).unused h.steady hi hnot hunused)
  . intro hc
    cases hstep.outcome h with
    | clone _ _ _ _ j new _ _ _ hctx hnew =>
      rw [Call.Creates, hctx, Option.some.injEq] at hc
      subst hc
      simp [hnew.1]
    | _ => cases hc

theorem Step.goes_iff (h : k.Sane) (hstep : Step k c k') (hi : i ≠ 0) (hused : (k.list i).state ≠ .unused)
    : (k'.list i).state = .unused ↔ c = .exit ∧ i = k.current := by
  have hstate : (k'.list i).state = k'.table.state i := rfl
  constructor
  . intro hunused
    by_contra hnot
    apply (hstep.table h).used hused _ hunused
    rintro rfl rfl
    exact hnot ⟨rfl, rfl⟩
  . rintro ⟨rfl, rfl⟩
    have halive := (hstep.table h).alive_exit h.steady
    have hnot : k.current ∉ k'.table.alive := by
      rw [halive]
      exact Finset.notMem_erase _ _
    rw [Table.mem_alive, not_and_not_right] at hnot
    exact hnot hi

theorem run_counted {k₀ : Kernel} {l : List Call} (hsane : k₀.Sane) (hplain : k₀.table.Plain)
    (halive : k₀.table.alive.Nonempty) (hrun : Run Step k₀ l k)
    : Counted k₀ l k := by
  have h : Populated k₀ l k := Populated.run ⟨hsane, hplain, halive, rfl⟩ hrun
  constructor
  . exact h.card
  . intro c hallowed
    rw [exec_cleanup_iff h.sane h.plain h.alive hallowed]
    apply and_congr_right
    rintro rfl
    exact h.last_iff hallowed
  . intro c k' i hstep hi hunused
    exact hstep.comes_iff h.sane hi hunused
  . intro c k' i hstep hi hused
    exact hstep.goes_iff h.sane hi hused

-- init and its two children exit, the last of them for good
theorem run_counted_family
    : ∃ (k : Kernel), Run Step boot (family ++ [.exit, .exit]) k ∧ k.current ≠ 0
      ∧ Counted boot (family ++ [.exit, .exit]) k ∧ Call.exit.exec k = .error .cleanup := by
  obtain ⟨k, hrun, hcur⟩ := exists_run (k := boot) (l := family ++ [.exit, .exit])
    (p := fun k => decide (k.current ≠ 0)) (by decide +kernel)
  rw [decide_eq_true_eq] at hcur
  have hplain : boot.table.Plain := by
    unfold Table.Plain
    decide
  have hcounted := run_counted boot_sane hplain ⟨1, by decide⟩ hrun
  exact ⟨k, hrun, hcur, hcounted, (hcounted.shutDown .exit hcur).mpr ⟨rfl, by decide⟩⟩

end Sched
