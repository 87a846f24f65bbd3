import CS330.Lib.AddressSpace
import CS330.Paging.Impl

/-!
This module contains what one pass of `create_page_table_entry` does to the address space under construction, and
from it what the whole recursion adds: one page.
-/

namespace Paging

open PageTable Radix

-- What `os_pfn_alloc` is relied on for: frames that are not in use, with small numbers.
structure Honest (argPfn : U32) (allocs : List (Region × U32)) : Prop where
  nodup : (allocs.map Prod.snd).Nodup
  below : ∀ (a : Region × U32), a ∈ allocs → a.2.toNat < 2 ^ 20
  arg : ∀ (a : Region × U32), a ∈ allocs → a.2 ≠ argPfn

theorem Honest.of_append {argPfn : U32} {new old : List (Region × U32)} (h : Honest argPfn (new ++ old))
    : Honest argPfn old where
  nodup := by
    have := h.nodup
    rw [List.map_append] at this
    exact (List.nodup_append.mp this).2.1
  below := fun a ha => h.below a (List.mem_append_right new ha)
  arg := fun a ha => h.arg a (List.mem_append_right new ha)

-- the frames that were allocated for page tables
def Memory.Owned (s : Memory) (f : Frame) : Prop :=
  ∃ (pfn : U32), (Region.osPt, pfn) ∈ s.allocs ∧ f = pfn.setWidth 64

-- the permission of the segment
def MmSegment.writable (m : MmSegment) : Bool :=
  m.accessFlags.getLsbD 1

theorem Memory.set_here (s : Memory) (f : Frame) (i : Index) (e : Word) : (s.set f i e).frames f i = e :=
  update_here s.frames f i e

theorem Memory.set_off (s : Memory) {f f' : Frame} {i j : Index} (e : Word) (h : f' ≠ f ∨ j ≠ i)
    : (s.set f i e).frames f' j = s.frames f' j :=
  update_off s.frames e h

theorem Memory.clear_off (s : Memory) {f f' : Frame} (h : f' ≠ f) : (s.clear f).frames f' = s.frames f' := by
  simp [Memory.clear, h]

variable (alloc : Allocator) (ctx : Context) (segment : Segment)

theorem getIndex_eq (levelNum : Nat)
    : getIndex ctx segment levelNum = index (getIndex.va ctx segment) levelNum := by
  apply Fin.ext
  simp only [getIndex, index, BitVec.toNat_and, BitVec.toNat_ofNat]
  rw [show 0x1FF % 2 ^ 64 = 2 ^ 9 - 1 by decide, Nat.and_two_pow_sub_one_eq_mod]

namespace createPageTableEntry

-- the state before the recursive call
def advance (levelNum : Nat) (level : Frame) (s : Memory) : Memory :=
  let index := getIndex ctx segment levelNum
  let s := if s.frames level index &&& 0x1 = 0 then fill alloc ctx segment levelNum level s else s
  s.set level index (s.frames level index ||| ((ctx.mms segment).accessFlags &&& 0x2).setWidth 64)

end createPageTableEntry

open createPageTableEntry

theorem createPageTableEntry_one (level : Frame) (s : Memory)
    : createPageTableEntry alloc ctx segment 1 level s = advance alloc ctx segment 1 level s := rfl

theorem createPageTableEntry_succ (levelNum : Nat) (level : Frame) (s : Memory)
    : createPageTableEntry alloc ctx segment (levelNum + 2) level s
        =
      createPageTableEntry alloc ctx segment (levelNum + 1)
        ((advance alloc ctx segment (levelNum + 2) level s).frames level (getIndex ctx segment (levelNum + 2)) >>> 12)
        (advance alloc ctx segment (levelNum + 2) level s) := rfl

variable {ctx segment} {level : Frame} {s : Memory} {levelNum : Nat}

theorem advance_present
    (h : present (s.frames level (getIndex ctx segment levelNum)) = true)
    : (advance alloc ctx segment levelNum level s).allocs = s.allocs
      ∧ (advance alloc ctx segment levelNum level s).frames level (getIndex ctx segment levelNum)
        = grant (s.frames level (getIndex ctx segment levelNum)) (ctx.mms segment).writable
      ∧ ∀ (f' : Frame) (j : Index), f' ≠ level ∨ j ≠ getIndex ctx segment levelNum
        → (advance alloc ctx segment levelNum level s).frames f' j = s.frames f' j := by
  have hnot : ¬ (s.frames level (getIndex ctx segment levelNum) &&& 0x1 = 0) := by
    rw [and_one_iff, h]
    decide
  unfold advance
  simp only [hnot, ↓reduceIte, flag_eq]
  refine ⟨rfl, ?_, ?_⟩
  . rw [Memory.set_here]
    rfl
  . intro f' j hoff
    rw [Memory.set_off _ _ hoff]

-- the last level: the frame of the page goes into the entry
theorem advance_page (h : present (s.frames level (getIndex ctx segment 1)) = false)
    : ∃ (pfn : U32),
        (segment = .data → pfn = ctx.argPfn ∧ (advance alloc ctx segment 1 level s).allocs = s.allocs)
        ∧ (segment ≠ .data → (advance alloc ctx segment 1 level s).allocs = (.user, pfn) :: s.allocs)
        ∧ (advance alloc ctx segment 1 level s).frames level (getIndex ctx segment 1)
          = pfnEntry pfn ||| 0x5 ||| (if (ctx.mms segment).writable then 0x2#64 else 0x0#64)
        ∧ ∀ (f' : Frame) (j : Index), f' ≠ level ∨ j ≠ getIndex ctx segment 1
          → (advance alloc ctx segment 1 level s).frames f' j = s.frames f' j := by
  have hzero := (and_one_iff _).mpr h
  unfold advance fill
  simp only [hzero, ↓reduceIte, flag_eq, true_and, osPfnAlloc]
  by_cases hdata : segment = .data
  . refine ⟨ctx.argPfn, ?_, ?_, ?_, ?_⟩
    . intro _
      simp [hdata, Memory.set]
    . intro hne
      exact absurd hdata hne
    . rw [if_neg (by rw [hdata]; exact fun hne => hne rfl)]
      simp only [Memory.set_here]
      rfl
    . intro f' j hoff
      rw [if_neg (by rw [hdata]; exact fun hne => hne rfl)]
      rw [Memory.set_off _ _ hoff, Memory.set_off _ _ hoff, Memory.set_off _ _ hoff]
  . refine ⟨alloc s.allocs.length .user, ?_, ?_, ?_, ?_⟩
    . intro heq
      exact absurd heq hdata
    . intro _
      rw [if_pos hdata]
      rfl
    . rw [if_pos hdata]
      simp only [Memory.set_here]
      rfl
    . intro f' j hoff
      rw [if_pos hdata]
      rw [Memory.set_off _ _ hoff, Memory.set_off _ _ hoff, Memory.set_off _ _ hoff]

-- a level above: a new table is allocated, cleared and linked
theorem advance_table_allocs (h : present (s.frames level (getIndex ctx segment (levelNum + 2))) = false)
    : (advance alloc ctx segment (levelNum + 2) level s).allocs
        = (.osPt, alloc s.allocs.length .osPt) :: s.allocs := by
  have hzero := (and_one_iff _).mpr h
  have hlevel : ¬ (levelNum + 2 = 1) := by omega
  unfold advance fill
  simp only [hzero, ↓reduceIte, hlevel, false_and, osPfnAlloc]
  rfl

theorem advance_table (h : present (s.frames level (getIndex ctx segment (levelNum + 2))) = false)
    (hne : level ≠ (alloc s.allocs.length .osPt).setWidth 64)
    : (advance alloc ctx segment (levelNum + 2) level s).frames level (getIndex ctx segment (levelNum + 2))
        = entryOf ((alloc s.allocs.length .osPt).setWidth 64) (ctx.mms segment).writable
      ∧ (∀ (j : Index), (advance alloc ctx segment (levelNum + 2) level s).frames
        ((alloc s.allocs.length .osPt).setWidth 64) j = 0#64)
      ∧ ∀ (f' : Frame) (j : Index), f' ≠ (alloc s.allocs.length .osPt).setWidth 64
        → f' ≠ level ∨ j ≠ getIndex ctx segment (levelNum + 2)
        → (advance alloc ctx segment (levelNum + 2) level s).frames f' j = s.frames f' j := by
  have hzero := (and_one_iff _).mpr h
  have hlevel : ¬ (levelNum + 2 = 1) := by omega
  unfold advance fill
  simp only [hzero, ↓reduceIte, flag_eq, hlevel, false_and, osPfnAlloc, Memory.set_here]
  refine ⟨?_, ?_, ?_⟩
  . rw [Memory.clear_off _ hne, Memory.set_here]
    rfl
  . intro j
    rw [Memory.set_off _ _ (.inl hne.symm), Memory.set_off _ _ (.inl hne.symm)]
    simp [Memory.clear]
  . intro f' j hf' hoff
    rw [Memory.set_off _ _ hoff, Memory.set_off _ _ hoff, Memory.clear_off _ hf', Memory.set_off _ _ hoff,
      Memory.set_off _ _ hoff]

theorem advance_allocs (ctx : Context) (segment : Segment) (levelNum : Nat) (level : Frame) (s : Memory)
    : ∃ (new : List (Region × U32)), (advance alloc ctx segment levelNum level s).allocs = new ++ s.allocs := by
  unfold advance fill
  simp only [osPfnAlloc]
  split
  . split
    . exact ⟨[_], rfl⟩
    . split
      . exact ⟨[], rfl⟩
      . exact ⟨[_], rfl⟩
  . exact ⟨[], rfl⟩

theorem createPageTableEntry_allocs (ctx : Context) (segment : Segment) (levelNum : Nat) (level : Frame) (s : Memory)
    : ∃ (new : List (Region × U32)),
        (createPageTableEntry alloc ctx segment levelNum level s).allocs = new ++ s.allocs := by
  induction levelNum generalizing level s with
  | zero => exact ⟨[], rfl⟩
  | succ levelNum ih =>
    cases levelNum with
    | zero => exact advance_allocs alloc ctx segment 1 level s
    | succ levelNum =>
      rw [createPageTableEntry_succ]
      obtain ⟨new, hnew⟩ := ih
        ((advance alloc ctx segment (levelNum + 2) level s).frames level (getIndex ctx segment (levelNum + 2)) >>> 12)
        (advance alloc ctx segment (levelNum + 2) level s)
      obtain ⟨new', hnew'⟩ := advance_allocs alloc ctx segment (levelNum + 2) level s
      rw [hnew, hnew', ← List.append_assoc]
      exact ⟨new ++ new', rfl⟩

variable {root f : Frame} {leaves : List Index → Option Leaf} {p : List Index}

theorem Memory.Owned.not_fresh {pfn : U32} {region : Region} {argPfn : U32}
    (h : Honest argPfn ((region, pfn) :: s.allocs))
    : ¬ s.Owned (pfn.setWidth 64) := by
  intro howned
  obtain ⟨pfn', hmem, heq⟩ := howned
  have hnodup := h.nodup
  rw [List.map_cons, List.nodup_cons] at hnodup
  apply hnodup.1
  rw [setWidth_inj heq, List.mem_map]
  exact ⟨(.osPt, pfn'), hmem, rfl⟩

/-- No way below `root` is lost, and the frames that are allocated come in on the way `way`. -/
structure Memory.Extends (root : Frame) (way : List Index) (s s' : Memory) : Prop where
  kept : ∀ (q : List Index) (f : Frame), q.length ≤ 4 → reach child s.frames root q = some f
    → reach child s'.frames root q = some f
  placed : ∀ (a : Region × U32), a ∈ s'.allocs → a ∈ s.allocs ∨ ∃ (q : List Index), q <+: way
    ∧ reach child s'.frames root q = some (a.2.setWidth 64) ∧ a.1 = if q.length < 4 then .osPt else .user

namespace Memory.Extends

variable {s' s'' : Memory} {way way' : List Index}

theorem trans (h : s.Extends root way s') (h' : s'.Extends root way s'') (hway : way.length ≤ 4)
    : s.Extends root way s'' where
  kept := fun q f hq hf => h'.kept q f hq (h.kept q f hq hf)
  placed := by
    intro a ha
    cases h'.placed a ha with
    | inr hnew => exact .inr hnew
    | inl hold =>
      cases h.placed a hold with
      | inl hold => exact .inl hold
      | inr hnew =>
        obtain ⟨q, hq, hreach, hregion⟩ := hnew
        have hlen := hq.length_le
        exact .inr ⟨q, hq, h'.kept q _ (by omega) hreach, hregion⟩

theorem mono (h : s.Extends root way s') (hway : way <+: way') : s.Extends root way' s' where
  kept := h.kept
  placed := by
    intro a ha
    cases h.placed a ha with
    | inl hold => exact .inl hold
    | inr hnew =>
      obtain ⟨q, hq, hreach⟩ := hnew
      exact .inr ⟨q, hq.trans hway, hreach⟩

end Memory.Extends

-- an entry that becomes present keeps all ways and adds the one to it
theorem Memory.Extends.of_added {s' : Memory} {g : Frame} {i : Index} {w : Bool}
    (h : Maps s.frames root s.Owned leaves) (hf : reach child s.frames root p = some f)
    (hadd : Added s.frames s'.frames s.Owned p f g i w)
    (hallocs : ∀ (a : Region × U32), a ∈ s'.allocs → a ∈ s.allocs
      ∨ g = a.2.setWidth 64 ∧ a.1 = if p.length + 1 < 4 then .osPt else .user)
    : s.Extends root (p ++ [i]) s' where
  kept := by
    intro q t hq ht
    rw [hadd.reach_eq h hf q hq, if_neg]
    . exact ht
    . intro heq
      rw [heq, hadd.reach_before h hf] at ht
      cases ht
  placed := by
    intro a ha
    cases hallocs a ha with
    | inl hold => exact .inl hold
    | inr hnew =>
      have hshort := hadd.short
      refine .inr ⟨p ++ [i], List.prefix_refl _, ?_, ?_⟩
      . rw [hadd.reach_eq h hf _ (by simp; omega), if_pos rfl, hnew.1]
      . rw [List.length_append, List.length_singleton]
        exact hnew.2

theorem step_present (h : Maps s.frames root s.Owned leaves) (hp : p.length < 3)
    (hf : reach child s.frames root p = some f)
    (hw : (ctx.mms segment).writable = true → Along s.frames writable root p)
    (hpresent : present (s.frames f (getIndex ctx segment (levelNum + 2))) = true)
    : let s' := advance alloc ctx segment (levelNum + 2) f s
      let q := p ++ [getIndex ctx segment (levelNum + 2)]
      Maps s'.frames root s'.Owned leaves
      ∧ reach child s'.frames root q = some (s'.frames f (getIndex ctx segment (levelNum + 2)) >>> 12)
      ∧ ((ctx.mms segment).writable = true → Along s'.frames writable root q)
      ∧ s.Extends root q s' := by
  intro s' q
  obtain ⟨hallocs, hentry, hsame⟩ := advance_present alloc hpresent
  have hgrant := h.grant hp hf (ctx.mms segment).writable hentry hsame
  have howned : ∀ (f' : Frame), s.Owned f' → s'.Owned f' := by
    intro f' hf'
    simp only [Memory.Owned, s', hallocs]
    exact hf'
  obtain ⟨hmaps, hreach, halong⟩ := h.advance hp hf hw (.present hpresent hentry hsame howned)
  refine ⟨hmaps, hreach, halong, ?_, ?_⟩
  . intro r t _ ht
    rw [hgrant.2.1]
    exact ht
  . intro a ha
    simp only [s', hallocs] at ha
    exact .inl ha

theorem step_absent (h : Maps s.frames root s.Owned leaves) (hp : p.length < 3)
    (hf : reach child s.frames root p = some f)
    (hw : (ctx.mms segment).writable = true → Along s.frames writable root p)
    (habsent : present (s.frames f (getIndex ctx segment (levelNum + 2))) = false)
    (hhonest : Honest ctx.argPfn ((.osPt, alloc s.allocs.length .osPt) :: s.allocs))
    : let s' := advance alloc ctx segment (levelNum + 2) f s
      let q := p ++ [getIndex ctx segment (levelNum + 2)]
      Maps s'.frames root s'.Owned leaves
      ∧ reach child s'.frames root q = some (s'.frames f (getIndex ctx segment (levelNum + 2)) >>> 12)
      ∧ ((ctx.mms segment).writable = true → Along s'.frames writable root q)
      ∧ s.Extends root q s' := by
  intro s' q
  have hfresh := Memory.Owned.not_fresh hhonest
  have hbound := toNat_setWidth_lt (hhonest.below _ (List.mem_cons_self))
  have hne : f ≠ (alloc s.allocs.length .osPt).setWidth 64 := by
    intro heq
    apply hfresh
    rw [← heq]
    exact h.tables p f (by omega) hf
  have hallocs := advance_table_allocs alloc habsent
  obtain ⟨hentry, hempty, hsame⟩ := advance_table alloc habsent hne
  have hadd : Added s.frames s'.frames s.Owned p f ((alloc s.allocs.length .osPt).setWidth 64)
      (getIndex ctx segment (levelNum + 2)) (ctx.mms segment).writable := by
    constructor
    . omega
    . exact hbound
    . exact habsent
    . exact hentry
    . intro _
      exact hfresh
    . intro _
      exact hempty
    . intro f' j howned hoff
      apply hsame f' j _ hoff
      intro heq
      rw [heq] at howned
      exact hfresh howned
  have howned : ∀ (f' : Frame), s.Owned f' ∨ f' = (alloc s.allocs.length .osPt).setWidth 64 → s'.Owned f' := by
    intro f' hf'
    cases hf' with
    | inl howned =>
      obtain ⟨pfn, hmem, heq⟩ := howned
      refine ⟨pfn, ?_, heq⟩
      rw [hallocs]
      exact List.mem_cons_of_mem _ hmem
    | inr heq =>
      refine ⟨_, ?_, heq⟩
      rw [hallocs]
      exact List.mem_cons_self
  obtain ⟨hmaps, hreach, halong⟩ := h.advance hp hf hw (.absent _ hadd howned)
  refine ⟨hmaps, hreach, halong, ?_⟩
  apply Memory.Extends.of_added h hf hadd
  intro a ha
  simp only [s', hallocs, List.mem_cons] at ha
  cases ha with
  | inl heq =>
    subst heq
    exact .inr ⟨rfl, (if_pos (by omega)).symm⟩
  | inr hold => exact .inl hold

end Paging
