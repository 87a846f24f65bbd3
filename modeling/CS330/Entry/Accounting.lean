import CS330.Entry.Lemmas
import CS330.Lib.Run
import Mathlib.Algebra.Ring.Int.Defs
import Mathlib.Order.CompletePartialOrder
import Mathlib.Order.Interval.Set.Disjoint

/-!
This module contains the books that expanding and shrinking keep: how far a segment is in use is what was asked for
less what was given back, as long as no page count wraps around when it is turned into bytes.
-/

namespace Entry

open PageTable doSyscall

-- a call with the value that it returned
abbrev Label := Call × U64

-- the calls that `ok` allows, with their results
def Step (ok : State → Call → Prop) (s : State) (l : Label) (s' : State) : Prop :=
  ok s l.1 ∧ doSyscall l.1 s = some (l.2, s')

-- the pages that `seg` gains or loses by a call, counted without bounds
def gain (seg : Segment) (l : Label) : Int :=
  if doSyscall.segment l.1.param2 = some seg ∧ l.2 ≠ 0 then
    match l.1.op with
    | .expand => l.1.param1.toNat
    | .shrink => - l.1.param1.toNat
  else
    0

def balance (seg : Segment) (ls : List Label) : Int :=
  (ls.map (gain seg)).sum

-- the addresses that a successful call is about
def Label.region (l : Label) : Set Nat :=
  Set.Ico l.2.toNat (l.2.toNat + 4096 * l.1.param1.toNat)

-- the addresses of `seg` that were handed out and not given back
def hold (seg : Segment) (held : Set Nat) (l : Label) : Set Nat :=
  if doSyscall.segment l.1.param2 = some seg ∧ l.2 ≠ 0 then
    match l.1.op with
    | .expand => held ∪ l.region
    | .shrink => held \ l.region
  else
    held

def held (seg : Segment) (ls : List Label) : Set Nat :=
  ls.foldl (hold seg) ∅

-- there is room for the pages, or there are as many pages to give back
def Satisfiable (s : State) (c : Call) : Prop :=
  ∃ (seg : Segment), doSyscall.segment c.param2 = some seg ∧
    match c.op with
    | .expand => (s.mms seg).nextFree.toNat + 4096 * c.param1.toNat ≤ (s.mms seg).stop.toNat
    | .shrink => (s.mms seg).start.toNat + 4096 * c.param1.toNat ≤ (s.mms seg).nextFree.toNat

structure Accounted (ok : State → Call → Prop) (s₀ : State) : Prop where
  returns : ∀ (ls : List Label) (s : State) (c : Call), Run (Step ok) s₀ ls s → ok s c
    → (doSyscall c s).isSome
  nextFree : ∀ (ls : List Label) (s : State) (seg : Segment), seg = .rodata ∨ seg = .data
    → Run (Step ok) s₀ ls s
    → ((s.mms seg).nextFree.toNat : Int) = (s₀.mms seg).start.toNat + 4096 * balance seg ls
  bounds : ∀ (ls : List Label) (s : State) (seg : Segment), seg = .rodata ∨ seg = .data
    → Run (Step ok) s₀ ls s
    → (s₀.mms seg).start ≤ (s.mms seg).nextFree ∧ (s.mms seg).nextFree ≤ (s₀.mms seg).stop
  expand : ∀ (ls : List Label) (s s' : State) (l : Label) (seg : Segment), Run (Step ok) s₀ ls s
    → Step ok s l s' → l.1.op = .expand → doSyscall.segment l.1.param2 = some seg → l.2 ≠ 0
    → l.2 = (s.mms seg).nextFree ∧ l.region ⊆ Set.Ico (s₀.mms seg).start.toNat (s₀.mms seg).stop.toNat
      ∧ Disjoint l.region (held seg ls)
  refuses : ∀ (ls : List Label) (s s' : State) (l : Label), Run (Step ok) s₀ ls s → Step ok s l s'
    → ¬ Satisfiable s l.1 → l.2 = 0 ∧ s' = s

namespace State

-- aligned segments of which nothing is in use
structure Fresh (s : State) : Prop where
  nextFree : ∀ (seg : Segment), seg = .rodata ∨ seg = .data → (s.mms seg).nextFree = (s.mms seg).start
  aligned : ∀ (seg : Segment), seg = .rodata ∨ seg = .data → (s.mms seg).start.toNat % 4096 = 0
  start : ∀ (seg : Segment), seg = .rodata ∨ seg = .data → (s.mms seg).start ≠ 0
  stop : ∀ (seg : Segment), seg = .rodata ∨ seg = .data → (s.mms seg).start ≤ (s.mms seg).stop

end State

-- how many bytes can be taken or given back
def room (s : State) (op : Op) (seg : Segment) : Nat :=
  match op with
  | .expand => (s.mms seg).stop.toNat - (s.mms seg).nextFree.toNat
  | .shrink => (s.mms seg).nextFree.toNat - (s.mms seg).start.toNat

-- the page count is below 2 ^ 52, or what is left of it after the shift is refused
def Exact (s : State) (c : Call) : Prop :=
  c.param1.toNat < 2 ^ 52
    ∨ ∀ (seg : Segment), doSyscall.segment c.param2 = some seg → room s c.op seg < 4096 * (c.param1.toNat % 2 ^ 52)

namespace State

structure Bounded (s : State) (seg : Segment) : Prop where
  positive : 4096 ≤ (s.mms seg).start.toNat
  lower : (s.mms seg).start.toNat ≤ (s.mms seg).nextFree.toNat
  upper : (s.mms seg).nextFree.toNat ≤ (s.mms seg).stop.toNat
  aligned : (s.mms seg).start.toNat % 4096 = 0
  nextFree : (s.mms seg).nextFree.toNat % 4096 = 0

end State

variable {s s' : State} {c : Call} {seg : Segment} {n : U64}

theorem segment_cases {param2 : U64} (h : doSyscall.segment param2 = some seg) : seg = .rodata ∨ seg = .data := by
  unfold doSyscall.segment at h
  split at h
  . rw [Option.some.injEq] at h
    exact .inl h.symm
  . split at h
    . rw [Option.some.injEq] at h
      exact .inr h.symm
    . cases h

-- how a call that can be satisfied ends
structure Served (s : State) (c : Call) (seg : Segment) (r : U64) (s' : State) : Prop where
  segment : doSyscall.segment c.param2 = some seg
  result : doSyscall c s = some (r, s')
  nonzero : r ≠ 0
  mms : ∃ (v : U64), s'.mms = Function.update s.mms seg { s.mms seg with nextFree := v }
    ∧ match c.op with
      | .expand => r = (s.mms seg).nextFree ∧ v.toNat = (s.mms seg).nextFree.toNat + 4096 * c.param1.toNat
      | .shrink => r = v ∧ v.toNat + 4096 * c.param1.toNat = (s.mms seg).nextFree.toNat

theorem expand_served (hb : s.Bounded seg) (hseg : doSyscall.segment c.param2 = some seg) (hop : c.op = .expand)
    (hfit : (s.mms seg).nextFree.toNat + 4096 * c.param1.toNat ≤ (s.mms seg).stop.toNat)
    : ∃ (s' : State), Served s c seg (s.mms seg).nextFree s' := by
  have hstop := (s.mms seg).stop.isLt
  have hshift := toNat_shiftLeft_twelve c.param1
  have hupper := hb.upper
  have hlower := hb.lower
  have hpos := hb.positive
  have hmod : c.param1.toNat % 2 ^ 52 = c.param1.toNat := by omega
  rw [hmod] at hshift
  have hroom : ¬ (s.mms seg).stop - (s.mms seg).nextFree < c.param1 <<< 12 := by
    rw [BitVec.lt_def, BitVec.toNat_sub, hshift]
    omega
  refine ⟨setNextFree s seg ((s.mms seg).nextFree + c.param1 <<< 12), ?_⟩
  constructor
  . exact hseg
  . simp only [doSyscall, hop, doSyscall.expand, hseg, hroom, ↓reduceIte]
  . intro hzero
    have hz : (0 : U64).toNat = 0 := rfl
    rw [hzero, hz] at hlower
    omega
  . refine ⟨(s.mms seg).nextFree + c.param1 <<< 12, rfl, ?_⟩
    rw [hop]
    refine ⟨rfl, ?_⟩
    rw [BitVec.toNat_add, hshift]
    omega

theorem shrink_served (hb : s.Bounded seg) (hseg : doSyscall.segment c.param2 = some seg) (hop : c.op = .shrink)
    (hfit : (s.mms seg).start.toNat + 4096 * c.param1.toNat ≤ (s.mms seg).nextFree.toNat)
    : ∃ (r : U64) (s' : State), Served s c seg r s' := by
  have hlt := (s.mms seg).nextFree.isLt
  have hshift := toNat_shiftLeft_twelve c.param1
  have hlower := hb.lower
  have hpos := hb.positive
  have hmod : c.param1.toNat % 2 ^ 52 = c.param1.toNat := by omega
  rw [hmod] at hshift
  have hroom : ¬ (s.mms seg).nextFree - (s.mms seg).start < c.param1 <<< 12 := by
    rw [BitVec.lt_def, BitVec.toNat_sub, hshift]
    omega
  have hnew : ((s.mms seg).nextFree - c.param1 <<< 12).toNat + 4096 * c.param1.toNat
      = (s.mms seg).nextFree.toNat := by
    rw [BitVec.toNat_sub, hshift]
    omega
  generalize hv : (s.mms seg).nextFree - c.param1 <<< 12 = v at hnew
  have hloop := loop_eq v (by omega) c.param1.toNat (2 ^ 52 + 1) (s.mms seg).nextFree s (by omega) (by omega)
  have hmms := unmapAll_mms (visited (s.mms seg).nextFree c.param1.toNat) s
  generalize unmapAll (visited (s.mms seg).nextFree c.param1.toNat) s = s₁ at hloop hmms
  refine ⟨v, setNextFree s₁ seg v, ?_⟩
  constructor
  . exact hseg
  . simp only [doSyscall, hop, doSyscall.shrink, hseg, hroom, ↓reduceIte, hv, hloop]
  . intro hzero
    have hz : (0 : U64).toNat = 0 := rfl
    rw [hzero, hz] at hnew
    omega
  . refine ⟨v, ?_, ?_⟩
    . simp only [setNextFree, hmms]
    . rw [hop]
      exact ⟨rfl, hnew⟩

-- the test for room, which compares with the shifted page count
theorem sub_lt_shift {a b n : U64} (hle : b.toNat ≤ a.toNat) (hfit : a.toNat < b.toNat + 4096 * n.toNat)
    (hexact : n.toNat < 2 ^ 52 ∨ a.toNat - b.toNat < 4096 * (n.toNat % 2 ^ 52))
    : a - b < n <<< 12 := by
  have ha := a.isLt
  rw [BitVec.lt_def, BitVec.toNat_sub, toNat_shiftLeft_twelve]
  cases hexact with
  | inl hsmall => omega
  | inr hless => omega

theorem refused_of_not_satisfiable (hb : ∀ (seg : Segment), seg = .rodata ∨ seg = .data → s.Bounded seg)
    (hexact : Exact s c) (hnot : ¬ Satisfiable s c)
    : doSyscall c s = some (0, s) := by
  cases hseg : doSyscall.segment c.param2 with
  | none =>
    unfold doSyscall
    cases c.op with
    | expand => simp only [doSyscall.expand, hseg]
    | shrink => simp only [doSyscall.shrink, hseg]
  | some seg =>
    have hbs := hb seg (segment_cases hseg)
    have hwrap := hexact.imp_right (fun h => h seg hseg)
    unfold doSyscall
    cases hop : c.op with
    | expand =>
      have hfit : (s.mms seg).stop.toNat < (s.mms seg).nextFree.toNat + 4096 * c.param1.toNat := by
        apply Nat.lt_of_not_le
        intro hle
        apply hnot
        refine ⟨seg, hseg, ?_⟩
        rw [hop]
        exact hle
      rw [hop] at hwrap
      have hroom := sub_lt_shift hbs.upper hfit hwrap
      simp only [doSyscall.expand, hseg, hroom, ↓reduceIte]
    | shrink =>
      have hfit : (s.mms seg).nextFree.toNat < (s.mms seg).start.toNat + 4096 * c.param1.toNat := by
        apply Nat.lt_of_not_le
        intro hle
        apply hnot
        refine ⟨seg, hseg, ?_⟩
        rw [hop]
        exact hle
      rw [hop] at hwrap
      have hroom := sub_lt_shift hbs.lower hfit hwrap
      simp only [doSyscall.shrink, hseg, hroom, ↓reduceIte]

-- the books up to `s` are right
structure Kept (s₀ : State) (ls : List Label) (s : State) (seg : Segment) : Prop where
  bounded : s.Bounded seg
  start : (s.mms seg).start = (s₀.mms seg).start
  stop : (s.mms seg).stop = (s₀.mms seg).stop
  nextFree : ((s.mms seg).nextFree.toNat : Int) = (s₀.mms seg).start.toNat + 4096 * balance seg ls
  held : held seg ls = Set.Ico (s₀.mms seg).start.toNat (s.mms seg).nextFree.toNat

theorem balance_snoc (seg : Segment) (ls : List Label) (l : Label)
    : balance seg (ls ++ [l]) = balance seg ls + gain seg l := by
  simp [balance]

theorem held_snoc (seg : Segment) (ls : List Label) (l : Label)
    : held seg (ls ++ [l]) = hold seg (held seg ls) l := by
  simp [held]

theorem Kept.other {s₀ : State} {ls : List Label} {l : Label} (h : Kept s₀ ls s seg)
    (hmms : s'.mms seg = s.mms seg) (hl : ¬ (doSyscall.segment l.1.param2 = some seg ∧ l.2 ≠ 0))
    : Kept s₀ (ls ++ [l]) s' seg := by
  constructor
  . obtain ⟨h1, h2, h3, h4, h5⟩ := h.bounded
    constructor <;> rw [hmms] <;> assumption
  . rw [hmms]
    exact h.start
  . rw [hmms]
    exact h.stop
  . rw [hmms, balance_snoc, gain, if_neg hl, Int.add_zero]
    exact h.nextFree
  . rw [hmms, held_snoc, hold, if_neg hl]
    exact h.held

-- the segment goes on to `v`
theorem Kept.moved {s₀ : State} {ls : List Label} {l : Label} {v : U64} (h : Kept s₀ ls s seg)
    (hmms : s'.mms seg = { s.mms seg with nextFree := v }) (hlower : (s.mms seg).start.toNat ≤ v.toNat)
    (hupper : v.toNat ≤ (s.mms seg).stop.toNat)
    (hgain : (v.toNat : Int) = (s.mms seg).nextFree.toNat + 4096 * gain seg l)
    (hhold : hold seg (Set.Ico (s.mms seg).start.toNat (s.mms seg).nextFree.toNat) l
      = Set.Ico (s.mms seg).start.toNat v.toNat)
    : Kept s₀ (ls ++ [l]) s' seg := by
  have hpos := h.bounded.positive
  have haligned := h.bounded.aligned
  have hnextAligned := h.bounded.nextFree
  constructor
  . constructor <;> rw [hmms] <;> dsimp only <;> omega
  . rw [hmms]
    exact h.start
  . rw [hmms]
    exact h.stop
  . rw [hmms, balance_snoc]
    have := h.nextFree
    dsimp only
    omega
  . rw [hmms, held_snoc, h.held, ← h.start, hhold]

theorem Kept.served {s₀ : State} {ls : List Label} {r : U64} (h : Kept s₀ ls s seg) (hs : Served s c seg r s')
    (hfit : Satisfiable s c)
    : Kept s₀ (ls ++ [(c, r)]) s' seg := by
  obtain ⟨v, hmms, hv⟩ := hs.mms
  obtain ⟨seg', hseg', hfit⟩ := hfit
  have heq : seg' = seg := by
    have := hseg'.symm.trans hs.segment
    rw [Option.some.injEq] at this
    exact this
  subst heq
  have hmms' : s'.mms seg' = { s.mms seg' with nextFree := v } := by
    rw [hmms, Function.update_self]
  have hcond : doSyscall.segment (c, r).1.param2 = some seg' ∧ (c, r).2 ≠ 0 := ⟨hseg', hs.nonzero⟩
  have hlower := h.bounded.lower
  have hupper := h.bounded.upper
  cases hop : c.op with
  | expand =>
    rw [hop] at hv hfit
    obtain ⟨hr, hv⟩ := hv
    simp only at hfit
    apply h.moved hmms' (by omega) (by omega)
    . rw [gain, if_pos hcond]
      simp only [hop]
      omega
    . rw [hold, if_pos hcond]
      simp only [hop, Label.region]
      rw [hr, hv, Set.Ico_union_Ico_eq_Ico hlower (by omega)]
  | shrink =>
    rw [hop] at hv hfit
    obtain ⟨hr, hv⟩ := hv
    simp only at hfit
    apply h.moved hmms' (by omega) (by omega)
    . rw [gain, if_pos hcond]
      simp only [hop]
      omega
    . rw [hold, if_pos hcond]
      simp only [hop, Label.region]
      rw [hr, hv]
      ext a
      simp only [Set.mem_sdiff, Set.mem_Ico]
      omega

-- the outcome of any call, for both segments at once
theorem Kept.step {s₀ : State} {ls : List Label} {l : Label}
    (h : ∀ (seg : Segment), seg = .rodata ∨ seg = .data → Kept s₀ ls s seg) (hstep : Step Exact s l s')
    : (∀ (seg : Segment), seg = .rodata ∨ seg = .data → Kept s₀ (ls ++ [l]) s' seg)
      ∧ (Satisfiable s l.1 → ∃ (seg : Segment), Served s l.1 seg l.2 s')
      ∧ (¬ Satisfiable s l.1 → l.2 = 0 ∧ s' = s) := by
  obtain ⟨c, r⟩ := l
  obtain ⟨hexact, hresult⟩ := hstep
  by_cases hsat : Satisfiable s c
  . have hserved : ∃ (seg : Segment), Served s c seg r s' := by
      obtain ⟨seg, hseg, hfit⟩ := hsat
      have hb := (h seg (segment_cases hseg)).bounded
      cases hop : c.op with
      | expand =>
        rw [hop] at hfit
        obtain ⟨s₁, hserved⟩ := expand_served hb hseg hop hfit
        have heq := hresult.symm.trans hserved.result
        simp only [Option.some.injEq, Prod.mk.injEq] at heq
        rw [heq.1, heq.2]
        exact ⟨seg, hserved⟩
      | shrink =>
        rw [hop] at hfit
        obtain ⟨r₁, s₁, hserved⟩ := shrink_served hb hseg hop hfit
        have heq := hresult.symm.trans hserved.result
        simp only [Option.some.injEq, Prod.mk.injEq] at heq
        rw [heq.1, heq.2]
        exact ⟨seg, hserved⟩
    refine ⟨?_, fun _ => hserved, fun hnot => absurd hsat hnot⟩
    obtain ⟨seg, hserved⟩ := hserved
    intro seg' hseg'
    by_cases heq : seg' = seg
    . subst heq
      exact (h seg' hseg').served hserved hsat
    . apply (h seg' hseg').other
      . obtain ⟨v, hmms, -⟩ := hserved.mms
        rw [hmms, Function.update_of_ne heq]
      . intro hcond
        have := hcond.1.symm.trans hserved.segment
        rw [Option.some.injEq] at this
        exact heq this
  . have hrefused := refused_of_not_satisfiable (fun seg hseg => (h seg hseg).bounded) hexact hsat
    have heq := hresult.symm.trans hrefused
    simp only [Option.some.injEq, Prod.mk.injEq] at heq
    refine ⟨?_, fun hs => absurd hs hsat, fun _ => heq⟩
    intro seg hseg
    apply (h seg hseg).other
    . rw [heq.2]
    . intro hcond
      exact hcond.2 heq.1

theorem State.Fresh.kept {s₀ : State} (h : s₀.Fresh) (seg : Segment) (hseg : seg = .rodata ∨ seg = .data)
    : Kept s₀ [] s₀ seg := by
  have hstart := h.start seg hseg
  have haligned := h.aligned seg hseg
  have hstop := h.stop seg hseg
  have hnext := h.nextFree seg hseg
  have hpos : (s₀.mms seg).start.toNat ≠ 0 := by
    intro hzero
    exact hstart (BitVec.eq_of_toNat_eq hzero)
  rw [BitVec.le_def] at hstop
  constructor
  . constructor
    . omega
    . rw [hnext]
    . rw [hnext]
      exact hstop
    . exact haligned
    . rw [hnext]
      exact haligned
  . rfl
  . rfl
  . rw [hnext]
    simp [balance]
  . rw [hnext]
    simp [held]

theorem Kept.run {s₀ : State} {ls : List Label} (h : s₀.Fresh) (hrun : Run (Step Exact) s₀ ls s)
    (seg : Segment) (hseg : seg = .rodata ∨ seg = .data)
    : Kept s₀ ls s seg := by
  induction hrun generalizing seg with
  | nil => exact h.kept seg hseg
  | snoc hrun hstep ih => exact (Kept.step ih hstep).1 seg hseg

theorem exact_accounted {s₀ : State} (h : s₀.Fresh) : Accounted Exact s₀ where
  returns := by
    intro ls s c hrun hexact
    have hkept := Kept.run h hrun
    by_cases hsat : Satisfiable s c
    . obtain ⟨seg, hseg, hfit⟩ := hsat
      have hb := (hkept seg (segment_cases hseg)).bounded
      cases hop : c.op with
      | expand =>
        rw [hop] at hfit
        obtain ⟨s₁, hserved⟩ := expand_served hb hseg hop hfit
        rw [hserved.result]
        rfl
      | shrink =>
        rw [hop] at hfit
        obtain ⟨r₁, s₁, hserved⟩ := shrink_served hb hseg hop hfit
        rw [hserved.result]
        rfl
    . rw [refused_of_not_satisfiable (fun seg hseg => (hkept seg hseg).bounded) hexact hsat]
      rfl
  nextFree := by
    intro ls s seg hseg hrun
    exact (Kept.run h hrun seg hseg).nextFree
  bounds := by
    intro ls s seg hseg hrun
    have hkept := Kept.run h hrun seg hseg
    have hb := hkept.bounded
    rw [BitVec.le_def, BitVec.le_def, ← hkept.start, ← hkept.stop]
    exact ⟨hb.lower, hb.upper⟩
  expand := by
    intro ls s s' l seg hrun hstep hop hseg hne
    have hkept := Kept.run h hrun
    have hcases := Kept.step hkept hstep
    by_cases hsat : Satisfiable s l.1
    . obtain ⟨seg', hserved⟩ := hcases.2.1 hsat
      obtain ⟨seg'', hseg'', hfit⟩ := hsat
      have heq : seg' = seg := by
        have := hserved.segment.symm.trans hseg
        rw [Option.some.injEq] at this
        exact this
      have heq' : seg'' = seg := by
        have := hseg''.symm.trans hseg
        rw [Option.some.injEq] at this
        exact this
      subst heq
      subst heq'
      have hk := hkept seg'' (segment_cases hseg)
      have hlower := hk.bounded.lower
      obtain ⟨v, -, hv⟩ := hserved.mms
      rw [hop] at hv hfit
      simp only at hfit
      refine ⟨hv.1, ?_, ?_⟩
      . rw [Label.region, hv.1, ← hk.start, ← hk.stop]
        exact Set.Ico_subset_Ico hlower hfit
      . rw [Label.region, hv.1, hk.held, Set.disjoint_right]
        intro a ha ha'
        simp only [Set.mem_Ico] at ha ha'
        omega
    . exact absurd (hcases.2.2 hsat).1 hne
  refuses := by
    intro ls s s' l hrun hstep hnot
    exact (Kept.step (Kept.run h hrun) hstep).2.2 hnot

-- the segments where `context.h` puts them
def sample : State where
  mms := fun segment =>
    match segment with
    | .code => ⟨0x100000000, 0x100008000, 0x100008000, 0x5⟩
    | .rodata => ⟨0x140000000, 0x180000000, 0x140000000, 0x1⟩
    | .data => ⟨0x180000000, 0x200000000, 0x180000000, 0x3⟩
    | .stack => ⟨0x7FF000000, 0x800000000, 0x800000000, 0x3⟩
  pgd := 0x2000
  frames := fun _ _ => 0#64
  freed := []

theorem sample_fresh : sample.Fresh := by
  constructor <;> intro seg hseg <;> cases hseg with
  | inl h => subst h; decide
  | inr h => subst h; decide

theorem exact_accounted_sample
    : Exact sample ⟨.expand, 20, mapWr⟩ ∧ Accounted Exact sample :=
  ⟨.inl (by decide), exact_accounted sample_fresh⟩

-- 2 ^ 52 pages are shifted to nothing: the call succeeds and gives no room
theorem not_accounted_sample : ¬ Accounted (fun _ _ => True) sample := by
  intro h
  have hstep : Step (fun _ _ => True) sample (⟨.expand, 0x10000000000000, mapWr⟩, 0x180000000)
      (setNextFree sample .data 0x180000000) := by
    refine ⟨trivial, ?_⟩
    simp [doSyscall, doSyscall.expand, doSyscall.segment, sample]
  have hbalance := h.nextFree _ _ .data (.inr rfl) (.snoc .nil hstep)
  revert hbalance
  decide

end Entry
