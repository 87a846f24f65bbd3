import CS330.Entry.Admission
import CS330.Lib.AddressSpace
import CS330.Lib.Unmapping

/-!
This module contains what a page fault that is answered does to the address space: one page comes in, with the
permission of its segment, and nothing changes for all others.
-/

namespace Entry

open PageTable Radix

def MmSegment.writable (m : MmSegment) : Bool :=
  m.accessFlags.getLsbD 1

-- all segments lie in the lower half of the addresses
def Below (mms : Segment → MmSegment) : Prop :=
  ∀ (seg : Segment), (mms seg).nextFree.toNat ≤ 2 ^ 47 ∧ (mms seg).stop.toNat ≤ 2 ^ 47

-- `ENDMEM >> 12`
abbrev endPfn : Nat := 0x20000

-- On the way of `va`, which `p` begins, the table that the entry of this level should lead to is not there.
def Missing (m : Tables) (root : Frame) (p : List Index) (va : U64) (top level : Nat) : Prop :=
  2 ≤ level ∧ level ≤ top ∧ reach child m root (p ++ (path va top).take (top + 1 - level)) = none

/-- The frames for the tables that are missing are not in use, and filled with zeros. -/
structure PfnEnv.Honest (env : PfnEnv) (m : Tables) (root : Frame) (used : Frame → Prop) (p : List Index) (va : U64)
    (top : Nat) : Prop where
  user_lt : env.user.toNat < endPfn
  osPt_lt : ∀ (level : Nat), Missing m root p va top level → (env.osPt level).toNat < endPfn
  fresh : ∀ (level : Nat), Missing m root p va top level → ¬ used ((env.osPt level).setWidth 64)
  zero : ∀ (level : Nat) (j : Index), Missing m root p va top level → m ((env.osPt level).setWidth 64) j = 0#64
  distinct : ∀ (level level' : Nat), Missing m root p va top level → Missing m root p va top level'
    → env.osPt level = env.osPt level' → level = level'

-- the frames in use when some of these have been taken
def PfnEnv.taken (env : PfnEnv) (m : Tables) (root : Frame) (used : Frame → Prop) (va : U64) (f : Frame) : Prop :=
  used f ∨ f = env.user.setWidth 64
    ∨ ∃ (level : Nat), Missing m root [] va 4 level ∧ f = (env.osPt level).setWidth 64

/--
The tables of the current process map the pages in `leaves`, each with the permission of the segment that it is in,
as given by `owner`. All tables are among the frames in use.
-/
structure Tree (s : State) (used : Frame → Prop) (owner : List Index → Segment) (leaves : List Index → Option Leaf)
    : Prop where
  maps : Maps s.frames (s.pgd.setWidth 64) used leaves
  flags : ∀ (q : List Index) (leaf : Leaf), leaves q = some leaf → leaf.writable = (s.mms (owner q)).writable

namespace handlePageFault

variable {env : PfnEnv} {vaddr : U64} {flags : U32} {level : Nat} {root f : Frame} {s : State} {p : List Index}
  {used used' : Frame → Prop} {leaves : List Index → Option Leaf}

theorem fill_entry {pfn : U32} (hpfn : (if level = 1 then env.user else env.osPt level) = pfn)
    (hlt : pfn.toNat < endPfn) (h : present (s.frames f (tableIndex vaddr level)) = false)
    : (fill env vaddr flags level f s).frames f (tableIndex vaddr level)
        =
      entryOf (pfn.setWidth 64) (flags.getLsbD 1) := by
  rw [fill_absent _ _ _ _ h, hpfn, setWidth_shift (Nat.lt_trans hlt (by decide)), flag_eq]
  rfl

theorem missing_here (hf : reach child s.frames root p = some f) (level : Nat)
    : Missing s.frames root p vaddr (level + 2) (level + 2)
        ↔ present (s.frames f (tableIndex vaddr (level + 2))) = false := by
  have htake : (path vaddr (level + 2)).take (level + 2 + 1 - (level + 2)) = [tableIndex vaddr (level + 2)] := by
    rw [show level + 2 + 1 - (level + 2) = 1 by omega, tableIndex_eq]
    rfl
  rw [Missing, htake, reach_snoc_of hf, child]
  cases present (s.frames f (tableIndex vaddr (level + 2))) with
  | true => simp
  | false => simp

theorem missing_next {m : Tables} {level l : Nat} (hl : l ≤ level + 1)
    : Missing m root (p ++ [tableIndex vaddr (level + 2)]) vaddr (level + 1) l
        ↔ Missing m root p vaddr (level + 2) l := by
  have htake : (path vaddr (level + 2)).take (level + 2 + 1 - l)
      = tableIndex vaddr (level + 2) :: (path vaddr (level + 1)).take (level + 1 + 1 - l) := by
    rw [show level + 2 + 1 - l = level + 1 + 1 - l + 1 by omega, tableIndex_eq]
    rfl
  rw [Missing, Missing, htake, List.append_assoc]
  constructor
  . rintro ⟨h2, _, hnone⟩
    exact ⟨h2, by omega, hnone⟩
  . rintro ⟨h2, _, hnone⟩
    exact ⟨h2, hl, hnone⟩

variable (flags) in
theorem fill_advanced (hmaps : Maps s.frames root used leaves) (hp : p.length + (level + 2) = 4)
    (hf : reach child s.frames root p = some f) (henv : env.Honest s.frames root used p vaddr (level + 2))
    : Advanced s.frames (fill env vaddr flags (level + 2) f s).frames used
        (fun g => used g ∨ (Missing s.frames root p vaddr (level + 2) (level + 2)
          ∧ g = (env.osPt (level + 2)).setWidth 64))
        p f (tableIndex vaddr (level + 2)) (flags.getLsbD 1) := by
  cases hpresent : present (s.frames f (tableIndex vaddr (level + 2))) with
  | true =>
    apply Advanced.present hpresent
    . rw [fill_present _ _ _ _ hpresent, flag_eq]
      rfl
    . intro f' j hoff
      exact fill_off _ _ _ _ hoff
    . intro f' hf'
      exact .inl hf'
  | false =>
    have hmissing : Missing s.frames root p vaddr (level + 2) (level + 2) := (missing_here hf level).mpr hpresent
    have hlt := henv.osPt_lt _ hmissing
    apply Advanced.absent ((env.osPt (level + 2)).setWidth 64)
    . constructor
      . omega
      . exact toNat_setWidth_lt (Nat.lt_trans hlt (by decide))
      . exact hpresent
      . exact fill_entry (if_neg (by omega)) hlt hpresent
      . intro _
        exact henv.fresh _ hmissing
      . intro _ j
        rw [fill_off, henv.zero _ _ hmissing]
        left
        intro heq
        apply henv.fresh _ hmissing
        rw [heq]
        exact hmaps.tables p f (by omega) hf
      . intro f' j _ hoff
        exact fill_off _ _ _ _ hoff
    . rintro f' (hold | heq)
      . exact .inl hold
      . exact .inr ⟨hmissing, heq⟩

-- what is left of the frames when one level is done
theorem honest_next (hmaps : Maps s.frames root used leaves) (hp : p.length + (level + 2) = 4)
    (hf : reach child s.frames root p = some f) (henv : env.Honest s.frames root used p vaddr (level + 2))
    : env.Honest (fill env vaddr flags (level + 2) f s).frames root
        (fun g => used g ∨ (Missing s.frames root p vaddr (level + 2) (level + 2)
          ∧ g = (env.osPt (level + 2)).setWidth 64))
        (p ++ [tableIndex vaddr (level + 2)]) vaddr (level + 1) := by
  have hback : ∀ (l : Nat), Missing (fill env vaddr flags (level + 2) f s).frames root
      (p ++ [tableIndex vaddr (level + 2)]) vaddr (level + 1) l
      → Missing s.frames root p vaddr (level + 2) l ∧ l ≤ level + 1 := by
    intro l hl
    have hle := hl.2.1
    rw [missing_next hle] at hl
    refine ⟨⟨hl.1, hl.2.1, ?_⟩, hle⟩
    apply hmaps.advance_none (by omega) hf (fill_advanced flags hmaps hp hf henv) ?_ hl.2.2
    simp only [List.length_append, List.length_take, length_path]
    omega
  constructor
  . exact henv.user_lt
  . intro l hl
    exact henv.osPt_lt l (hback l hl).1
  . rintro l hl (hold | ⟨hmissing, heq⟩)
    . exact henv.fresh l (hback l hl).1 hold
    . have := henv.distinct l (level + 2) (hback l hl).1 hmissing (setWidth_inj heq)
      have := (hback l hl).2
      omega
  . intro l j hl
    rw [fill_off, henv.zero l j (hback l hl).1]
    left
    intro heq
    apply henv.fresh l (hback l hl).1
    rw [heq]
    exact hmaps.tables p f (by omega) hf
  . intro l l' hl hl'
    exact henv.distinct l l' (hback l hl).1 (hback l' hl').1

theorem canonical_of_segment {mms : Segment → MmSegment} {error : U64} {seg : Segment} (hbelow : Below mms)
    (h : segment mms vaddr error = some seg)
    : Canonical vaddr := by
  have hdata := hbelow .data
  have hstack := hbelow .stack
  left
  revert h
  unfold segment
  split
  . nofun
  . split
    . split
      . nofun
      . next hfree =>
        intro _
        rw [BitVec.not_le, BitVec.lt_def] at hfree
        omega
    . split
      . split
        . nofun
        . next hfree =>
          intro _
          rw [not_or, BitVec.not_le, BitVec.lt_def] at hfree
          omega
      . split
        . next hstop =>
          intro _
          rw [BitVec.lt_def] at hstop
          omega
        . nofun

theorem fill_added (hp : p.length = 3) (hlt : env.user.toNat < endPfn)
    (hpresent : present (s.frames f (tableIndex vaddr 1)) = false)
    : Added s.frames (fill env vaddr flags 1 f s).frames used p f (env.user.setWidth 64) (tableIndex vaddr 1)
        (flags.getLsbD 1) := by
  constructor
  . omega
  . exact toNat_setWidth_lt (Nat.lt_trans hlt (by decide))
  . exact hpresent
  . exact fill_entry rfl hlt hpresent
  . intro hshort
    omega
  . intro hshort
    omega
  . intro f' j _ hoff
    exact fill_off _ _ _ _ hoff

-- What the loop does from a table of the given level on, which is reached by `p`.
theorem map_maps (level : Nat)
    : ∀ (p : List Index) (f : Frame) (s : State) (used : Frame → Prop),
        p ++ path vaddr (level + 1) = path vaddr 4
        → reach child s.frames root p = some f
        → Maps s.frames root used leaves
        → leaves (path vaddr 4) = none
        → (flags.getLsbD 1 = true → Along s.frames writable root p)
        → env.Honest s.frames root used p vaddr (level + 1)
        → (∀ (g : Frame), used g ∨ (∃ (l : Nat), Missing s.frames root p vaddr (level + 1) l
            ∧ g = (env.osPt l).setWidth 64) → used' g)
        → Maps (map env vaddr flags (level + 1) f s).frames root used'
            (Function.update leaves (path vaddr 4) (some ⟨env.user.setWidth 64, flags.getLsbD 1⟩)) := by
  induction level with
  | zero =>
    intro p f s used hpath hf hmaps hnew hw henv hused
    have hp : p.length = 3 := by
      have := congrArg List.length hpath
      simp only [List.length_append, length_path] at this
      omega
    have hpath' : p ++ [tableIndex vaddr 1] = path vaddr 4 := by
      rw [← hpath, tableIndex_eq]
      rfl
    have habsent : present (s.frames f (tableIndex vaddr 1)) = false := by
      have hnone := hmaps.leaf (p ++ [tableIndex vaddr 1]) (by simp [hp])
      rw [reach_snoc_of hf, hpath', hnew] at hnone
      unfold child at hnone
      split at hnone
      . cases hnone
      . next hnot => simpa using hnot
    rw [← hpath']
    exact (hmaps.place hf hp (fill_added hp henv.user_lt habsent) hw).mono (fun g hg => hused g (.inl hg))
  | succ level ih =>
    intro p f s used hpath hf hmaps hnew hw henv hused
    have hp : p.length + (level + 2) = 4 := by
      have := congrArg List.length hpath
      simp only [List.length_append, length_path] at this
      omega
    have hadv := fill_advanced flags hmaps hp hf henv
    obtain ⟨hmaps', hf', hw'⟩ := hmaps.advance (by omega) hf hw hadv
    have hpath' : p ++ [tableIndex vaddr (level + 2)] ++ path vaddr (level + 1) = path vaddr 4 := by
      rw [← hpath, tableIndex_eq, List.append_assoc]
      rfl
    rw [map_succ]
    apply ih _ _ _ _ hpath' hf' hmaps' hnew hw' (honest_next hmaps hp hf henv)
    rintro g ((hold | heq) | ⟨l, hl, heq⟩)
    . exact hused g (.inl hold)
    . exact hused g (.inr ⟨level + 2, heq⟩)
    . have hle := hl.2.1
      rw [missing_next hle] at hl
      refine hused g (.inr ⟨l, ⟨hl.1, hl.2.1, ?_⟩, heq⟩)
      apply hmaps.advance_none (by omega) hf hadv ?_ hl.2.2
      simp only [List.length_append, List.length_take, length_path]
      omega

end handlePageFault

variable {env : PfnEnv} {vaddr error : U64} {s : State} {seg : Segment} {used : Frame → Prop}
  {owner : List Index → Segment} {leaves : List Index → Option Leaf}

-- a process whose table of the highest level is empty
theorem bare_tree : Tree bare (fun f => f = 1#64) (fun _ => .data) (fun _ => none) where
  maps := Maps.empty (fun _ => by simp [bare, present]) rfl
  flags := by
    intro q leaf hleaf
    cases hleaf

theorem firstPfns_honest : firstPfns.Honest bare.frames 1#64 (fun f => f = 1#64) [] 0x180001000 4 where
  user_lt := by decide
  osPt_lt := by
    rintro level ⟨_, hlevel, _⟩
    simp only [firstPfns, endPfn, BitVec.toNat_ofNat]
    omega
  fresh := by
    rintro level ⟨_, hlevel, _⟩ heq
    have := congrArg BitVec.toNat heq
    simp only [firstPfns, BitVec.toNat_setWidth, BitVec.toNat_ofNat] at this
    omega
  zero := by
    intro _ _ _
    rfl
  distinct := by
    rintro level level' ⟨_, hlevel, _⟩ ⟨_, hlevel', _⟩ heq
    have := congrArg BitVec.toNat heq
    simp only [firstPfns, BitVec.toNat_ofNat] at this
    omega

end Entry
