import CS330.Sched.Lemmas.Settled

/-!
This module contains what becomes of the handlers that processes register: the history of a run says which handler
a process has for a signal, and a signal goes to this handler.
-/

namespace Sched

abbrev Handlers := Slot → Fin maxSignals → U64

namespace Handlers

-- what the process `p` registers, or hands down to the process that it creates
def record (h : Handlers) (p : Slot) : Call → Handlers
  | .signal signo handler _ => fun i s => if i = p ∧ (s.val : Int) = signo then handler else h i s
  | .clone _ _ env _ =>
    match env.newCtx with
    | some i => Function.update h i (h p)
    | none => h
  | _ => h

end Handlers

def Kernel.handlers (k : Kernel) : Handlers :=
  fun i => (k.list i).sighandlers

-- an entry into any kernel, with the history beside it
def Recorded (s : Kernel × Handlers) (c : Call) (s' : Kernel × Handlers) : Prop :=
  c.exec s.1 = .ok s'.1 ∧ s'.2 = s.2.record s.1.current c

-- `k'` has another handler for the signal `signo` of the current process, if there is such a signal
structure Contained (k : Kernel) (signo : Int) (k' : Kernel) : Prop where
  others : ∀ (i : Slot), i ≠ k.current → k'.list i = k.list i
  cur : k'.list k.current = { k.cur with sighandlers := (k'.list k.current).sighandlers }
  entries : ∀ (s : Fin maxSignals), (s.val : Int) ≠ signo
    → (k'.list k.current).sighandlers s = k.cur.sighandlers s
  rest : k' = { k with list := k'.list, cpu := { k.cpu with rax := k'.cpu.rax } }

variable {k k' : Kernel} {signo : Int} {handler rax : U64} {c : Call}

theorem Kernel.handlers_setCtx (i : Slot) (new : Context)
    : (k.setCtx i new).handlers = Function.update k.handlers i new.sighandlers := by
  funext j
  by_cases hj : j = i
  . subst hj
    simp [handlers, setCtx]
  . simp [handlers, setCtx, hj]

theorem doSignal_handlers (hok : doSignal signo handler rax k = .ok k')
    : k'.handlers = k.handlers.record k.current (.signal signo handler rax) := by
  obtain ⟨s, hs, heq⟩ := doSignal_cases hok
  have hlist : k'.handlers = (k.setCtx k.current { k.cur with
      sighandlers := Function.update k.cur.sighandlers s handler }).handlers := by
    rw [heq]
    rfl
  rw [hlist, Kernel.handlers_setCtx]
  funext i t
  simp only [Handlers.record, ← hs]
  by_cases hi : i = k.current
  . subst hi
    rw [Function.update_self]
    by_cases ht : t = s
    . subst ht
      simp
    . have hne : ¬ (t.val : Int) = s.val := fun heq => ht (Fin.ext (Int.ofNat.inj heq))
      simp only [Function.update_of_ne ht, hne, and_false, ↓reduceIte]
      rfl
  . simp only [Function.update_of_ne hi, hi, false_and, ↓reduceIte]

theorem doClone_handlers {thFunc userStack : U64} {env : CloneEnv}
    (hok : doClone thFunc userStack env rax k = .ok k')
    : k'.handlers = k.handlers.record k.current (.clone thFunc userStack env rax) := by
  obtain ⟨i, new, hnew, rfl, -, hhandlers, -⟩ := doClone_made hok
  funext j
  simp only [Handlers.record, hnew, Kernel.handlers]
  by_cases hj : j = i
  . subst hj
    rw [Function.update_self, Function.update_self, hhandlers]
    rfl
  . rw [Function.update_of_ne hj, Function.update_of_ne hj]
    rfl

theorem Recorded.handlers {s s' : Kernel × Handlers} (hrec : Recorded s c s') (hs : s.2 = s.1.handlers)
    : s'.2 = s'.1.handlers := by
  obtain ⟨hok, hhist⟩ := hrec
  rw [hhist, hs]
  cases c with
  | clone thFunc userStack env rax => exact (doClone_handlers hok).symm
  | signal signo handler rax => exact (doSignal_handlers hok).symm
  | alarm ticks rax =>
    simp only [Call.exec, doAlarm, Except.ok.injEq] at hok
    have hset : s'.1.handlers = (s.1.setCtx s.1.current { s.1.cur with
        alarmConfigTime := ticks, ticksToAlarm := ticks }).handlers := by
      rw [← hok]
      rfl
    rw [hset, Kernel.handlers_setCtx]
    exact (Function.update_eq_self s.1.current _).symm
  | _ =>
    have hsettled := Call.settled hok id
    funext i
    have hi := congrArg Context.sighandlers (congrFun hsettled i)
    exact hi.symm

theorem Recorded.run {k₀ : Kernel} {l : List Call} {s : Kernel × Handlers}
    (hrun : Run Recorded (k₀, k₀.handlers) l s)
    : s.2 = s.1.handlers :=
  hrun.inv (I := fun s => s.2 = s.1.handlers) rfl (fun _ _ _ hs hrec => hrec.handlers hs)

theorem doSignal_contained_iff
    : (∃ (k' : Kernel), doSignal signo handler rax k = .ok k' ∧ Contained k signo k')
        ↔ 0 ≤ signo ∧ signo < maxSignals := by
  constructor
  . rintro ⟨k', hok, -⟩
    obtain ⟨s, hs, -⟩ := doSignal_cases hok
    omega
  . intro hrange
    have hok : doSignal signo handler rax k = .ok { k.setCtx k.current { k.cur with
        sighandlers := Function.update k.cur.sighandlers ⟨signo.toNat, by omega⟩ handler } with
          cpu := { k.cpu with rax := rax } } := by
      rw [doSignal, dif_pos hrange]
      rfl
    refine ⟨_, hok, ?_, ?_, ?_, ?_⟩
    . intro i hi
      simp [Kernel.setCtx, hi]
    . simp [Kernel.setCtx]
    . intro s hs
      have hne : s ≠ ⟨signo.toNat, by omega⟩ := by
        intro heq
        rw [heq] at hs
        exact hs (Int.toNat_of_nonneg hrange.1)
      simp [Kernel.setCtx, hne]
    . rfl

theorem signal_contained_iff {k₀ : Kernel} {l : List Call} {h : Handlers}
    (hrun : Run Recorded (k₀, k₀.handlers) l (k, h)) (signo : Int) (handler rax : U64)
    (s : Fin maxSignals) (rsp rip : U64)
    : ((∃ (k' : Kernel), doSignal signo handler rax k = .ok k' ∧ Contained k signo k')
        ↔ 0 ≤ signo ∧ signo < maxSignals)
      ∧ (h k.current s ≠ 0
        → invokeSyncSignal s rsp rip k = some (rsp - 8, h k.current s, k.mem.store (rsp - 8) rip)
          ∧ (k.mem.store (rsp - 8) rip).load (rsp - 8) = rip) := by
  refine ⟨doSignal_contained_iff, ?_⟩
  have hcur : h k.current = k.cur.sighandlers := congrFun (Recorded.run hrun) k.current
  intro hset
  rw [hcur] at hset ⊢
  refine ⟨?_, Memory.load_store _ _ _⟩
  unfold invokeSyncSignal
  rw [if_neg]
  rintro ⟨hnull, -⟩
  exact hset hnull

-- init registers a handler for SIGALRM and finds it again
theorem signal_contained_boot
    : ∃ (k : Kernel), (∃ (h : Handlers), Run Recorded (boot, boot.handlers) [.signal 2 0x4000 0] (k, h))
        ∧ (∃ (k' : Kernel), doSignal 1 0x5000 0 k = .ok k' ∧ Contained k 1 k')
        ∧ invokeSyncSignal sigalrm 0x6000 0x3000 k = some (0x5ff8, 0x4000, k.mem.store 0x5ff8 0x3000) := by
  obtain ⟨k, hstep, hcurrent⟩ := exists_step (k := boot) (c := .signal 2 0x4000 0)
    (p := fun k => decide (k.current = 1)) (by decide +kernel)
  rw [decide_eq_true_eq] at hcurrent
  have hrec : Recorded (boot, boot.handlers) (.signal 2 0x4000 0)
      (k, boot.handlers.record boot.current (.signal 2 0x4000 0)) := ⟨hstep.2, rfl⟩
  have hhandler : boot.handlers.record boot.current (.signal 2 0x4000 0) k.current sigalrm = 0x4000 := by
    rw [hcurrent]
    decide
  have hmain := signal_contained_iff (.snoc .nil hrec) 1 0x5000 0 sigalrm 0x6000 0x3000
  rw [hhandler] at hmain
  refine ⟨k, ⟨_, .snoc .nil hrec⟩, hmain.1.mpr (by decide), (hmain.2 (by decide)).1⟩

-- The entry behind the last one is not in the array.
theorem not_contained_three
    : ¬ ∃ (k' : Kernel), doSignal 3 0x4000 0 boot = .ok k' ∧ Contained boot 3 k' := by
  rintro ⟨k', hok, -⟩
  obtain ⟨s, hs, -⟩ := doSignal_cases hok
  have hlt : s.val < 3 := s.isLt
  omega

end Sched
