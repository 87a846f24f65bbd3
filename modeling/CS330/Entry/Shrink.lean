import CS330.Entry.Hits

/-!
This module contains when `SYSCALL_SHRINK` takes exactly the pages it is asked for out of an address space: the loop
runs over one page too many, and the indices it takes are those of the page modulo 256.
-/

namespace Entry

open PageTable Radix doSyscall

variable {s s' : State} {p : List Index} {f g : Frame} {va : Word} {seg : Segment} {nextFree n flags : U64}

/-- The addresses of the `n` pages below `nextFree`. -/
def Released (nextFree n : U64) (va : Word) : Prop :=
  nextFree.toNat - 4096 * n.toNat ≤ va.toNat ∧ va.toNat < nextFree.toNat

/-- What giving back the `n` pages below `nextFree` is meant to do. -/
structure Shrinks (s : State) (nextFree n : U64) (s' : State) : Prop where
  unmapped : ∀ (va : Word), Released nextFree n va → resolve s'.frames s'.root va = none
  freed : ∃ (new : List U32), s'.freed = new ++ s.freed ∧ new.Nodup
    ∧ ∀ (f : U32), f ∈ new ↔ ∃ (va : Word) (r : Mapping), Released nextFree n va
      ∧ resolve s.frames s.root va = some r ∧ r.frame = f.setWidth 64
  kept : ∀ (va : Word), ¬ Released nextFree n va
    → resolve s'.frames s'.root va = resolve s.frames s.root va

/-- The pages for which the indices that are taken modulo 256, and the page at `nextFree`, do no harm. -/
structure Harmless (s : State) (nextFree n : U64) : Prop where
  above : 4096 * n.toNat < nextFree.toNat
  narrow : ∀ (va : Word), Released nextFree n va → resolve s.frames s.root va ≠ none
    → path va 4 = shrink.way va 4
  alone : ∀ (pageAddr : U64) (va : Word), pageAddr.toNat % 4096 = 0
    → nextFree.toNat - 4096 * n.toNat ≤ pageAddr.toNat → pageAddr ≤ nextFree → ¬ Released nextFree n va
    → resolve s.frames s.root va ≠ none → path va 4 ≠ shrink.way pageAddr 4
  distinct : ∀ (va va' : Word) (r r' : Mapping), Released nextFree n va → Released nextFree n va'
    → resolve s.frames s.root va = some r → resolve s.frames s.root va' = some r' → r.frame = r'.frame
    → va >>> 12 = va' >>> 12

theorem resolve_eq_some {m : Tables} {root : Frame} {r : Mapping} (h : resolve m root va = some r)
    : Canonical va ∧ walk m va 4 root = some r := by
  unfold resolve at h
  split at h
  . next hcanonical => exact ⟨hcanonical, h⟩
  . cases h

theorem Hit.resolve_eq {hits : Finset (List Index)} (h : Hit s hits s') (va : Word)
    : resolve s'.frames s.root va = if path va 4 ∈ hits then none else resolve s.frames s.root va := by
  unfold resolve
  rw [h.walk_eq va]
  split
  . rfl
  . split
    . rfl
    . rfl

theorem visited_iff (haligned : nextFree.toNat % 4096 = 0) (hle : 4096 * n.toNat ≤ nextFree.toNat) (a : U64)
    : a ∈ visited nextFree n.toNat
      ↔ a.toNat % 4096 = 0 ∧ nextFree.toNat - 4096 * n.toNat ≤ a.toNat ∧ a ≤ nextFree := by
  rw [mem_visited _ _ hle, BitVec.le_def]
  constructor
  . rintro ⟨j, hj, heq⟩
    omega
  . intro h
    exact ⟨(nextFree.toNat - a.toNat) / 4096, by omega, by omega⟩

-- the page of an address
theorem exists_page (va : Word)
    : ∃ (a : U64), a.toNat = va.toNat / 4096 * 4096 ∧ a >>> 12 = va >>> 12 := by
  have ha : (BitVec.ofNat 64 (va.toNat / 4096 * 4096)).toNat = va.toNat / 4096 * 4096 := by
    rw [BitVec.toNat_ofNat]
    omega
  refine ⟨BitVec.ofNat 64 (va.toNat / 4096 * 4096), ha, ?_⟩
  apply BitVec.eq_of_toNat_eq
  simp only [BitVec.toNat_ushiftRight, ha, Nat.shiftRight_eq_div_pow]
  omega

-- the ways of the pages that the loop goes through
def ways (nextFree n : U64) : Finset (List Index) :=
  ((visited nextFree n.toNat).map (shrink.way · 4)).toFinset

theorem mem_ways {q : List Index}
    : q ∈ ways nextFree n ↔ ∃ (a : U64), a ∈ visited nextFree n.toNat ∧ shrink.way a 4 = q := by
  rw [ways, List.mem_toFinset, List.mem_map]

theorem mem_ways_of_narrow (haligned : nextFree.toNat % 4096 = 0) (hle : 4096 * n.toNat ≤ nextFree.toNat)
    (hva : Released nextFree n va) (hway : path va 4 = shrink.way va 4)
    : path va 4 ∈ ways nextFree n := by
  obtain ⟨a, ha, hpage⟩ := exists_page va
  unfold Released at hva
  rw [mem_ways]
  refine ⟨a, ?_, ?_⟩
  . rw [visited_iff haligned hle, BitVec.le_def]
    omega
  . rw [shrink.way_congr hpage, hway]

theorem way_of_mem_ways (h : path va 4 ∈ ways nextFree n) : path va 4 = shrink.way va 4 := by
  obtain ⟨a, -, ha⟩ := mem_ways.mp h
  simp only [path, shrink.way, List.cons.injEq, Fin.ext_iff, shrink.index_eq, and_true] at ha ⊢
  omega

section

variable (haligned : nextFree.toNat % 4096 = 0) (hle : 4096 * n.toNat ≤ nextFree.toNat)

include haligned hle

theorem Harmless.not_resolved (hharmless : Harmless s nextFree n) (hva : Released nextFree n va)
    (hnot : path va 4 ∉ ways nextFree n)
    : resolve s.frames s.root va = none := by
  by_contra hne
  exact hnot (mem_ways_of_narrow haligned hle hva (hharmless.narrow va hva hne))

theorem Harmless.released_of_mem (hharmless : Harmless s nextFree n) (hmem : path va 4 ∈ ways nextFree n)
    (hne : resolve s.frames s.root va ≠ none)
    : Released nextFree n va := by
  by_contra hnot
  obtain ⟨a, ha, hway⟩ := mem_ways.mp hmem
  obtain ⟨hpage, hlow, hhigh⟩ := (visited_iff haligned hle a).mp ha
  exact hharmless.alone a va hpage hlow hhigh hnot hne hway.symm

variable (h : Hit s (ways nextFree n) s')

include h

theorem Hit.shrinks_of_harmless (hharmless : Harmless s nextFree n) : Shrinks s nextFree n s' := by
  have hroot : s'.root = s.root := by unfold State.root; rw [h.pgd]
  have hmapped : ∀ (q : List Index) (f : U32), q ∈ ways nextFree n
      → reach child s.frames s.root q = some (f.setWidth 64)
      → ∃ (va : Word) (r : Mapping), path va 4 = q ∧ Released nextFree n va
        ∧ resolve s.frames s.root va = some r ∧ r.frame = f.setWidth 64 := by
    intro q f hq hreach
    obtain ⟨a, -, hway⟩ := mem_ways.mp hq
    have hlen : q.length = 4 := by rw [← hway, shrink.length_way]
    obtain ⟨va, hcanonical, hpath⟩ := exists_canonical q hlen
    rw [← hpath] at hreach hq
    cases hr : walk s.frames va 4 s.root with
    | none =>
      rw [walk_eq_none_iff, hreach] at hr
      cases hr
    | some r =>
      have htr : resolve s.frames s.root va = some r := by rw [resolve, if_pos hcanonical, hr]
      have hframe := walk_frame va 4 hr
      rw [hreach, Option.some.injEq] at hframe
      have hreleased := hharmless.released_of_mem haligned hle hq (by rw [htr]; exact Option.some_ne_none r)
      exact ⟨va, r, hpath, hreleased, htr, hframe.symm⟩
  refine ⟨?_, ?_, ?_⟩
  . intro va hva
    rw [hroot, h.resolve_eq]
    split
    . rfl
    . next hnot => exact hharmless.not_resolved haligned hle hva hnot
  . obtain ⟨new, hfreed, hcount⟩ := h.freed
    refine ⟨new, hfreed, ?_, ?_⟩
    . rw [List.nodup_iff_count_le_one]
      intro f
      rw [hcount f, Finset.card_le_one]
      intro q hq q' hq'
      rw [Finset.mem_filter] at hq hq'
      obtain ⟨va, r, hpath, hva, htr, hr⟩ := hmapped q f hq.1 hq.2
      obtain ⟨va', r', hpath', hva', htr', hr'⟩ := hmapped q' f hq'.1 hq'.2
      have hpage := hharmless.distinct va va' r r' hva hva' htr htr' (by rw [hr, hr'])
      rw [← hpath, ← hpath', path_congr hpage]
    . intro f
      rw [← List.count_pos_iff, hcount f, Finset.card_pos]
      constructor
      . rintro ⟨q, hq⟩
        rw [Finset.mem_filter] at hq
        obtain ⟨va, r, -, hva, htr, hr⟩ := hmapped q f hq.1 hq.2
        exact ⟨va, r, hva, htr, hr⟩
      . rintro ⟨va, r, hva, htr, hr⟩
        have hway := hharmless.narrow va hva (by rw [htr]; exact Option.some_ne_none r)
        refine ⟨path va 4, Finset.mem_filter.mpr ⟨mem_ways_of_narrow haligned hle hva hway, ?_⟩⟩
        rw [walk_frame va 4 (resolve_eq_some htr).2, hr]
  . intro va hva
    rw [hroot, h.resolve_eq]
    split
    . next hmem =>
      by_contra hne
      exact hva (hharmless.released_of_mem haligned hle hmem (Ne.symm hne))
    . rfl

theorem Hit.harmless_of_shrinks (hs : s.Tree) (habove : 4096 * n.toNat < nextFree.toNat)
    (hshrinks : Shrinks s nextFree n s')
    : Harmless s nextFree n := by
  have hroot : s'.root = s.root := by unfold State.root; rw [h.pgd]
  have hmem : ∀ (va : Word), Released nextFree n va → resolve s.frames s.root va ≠ none
      → path va 4 ∈ ways nextFree n := by
    intro va hva hne
    by_contra hnot
    have hgone := hshrinks.unmapped va hva
    rw [hroot, h.resolve_eq, if_neg hnot] at hgone
    exact hne hgone
  refine ⟨habove, ?_, ?_, ?_⟩
  . intro va hva hne
    exact way_of_mem_ways (hmem va hva hne)
  . intro a va hpage hlow hhigh hva hne hway
    have hkept := hshrinks.kept va hva
    have hin : path va 4 ∈ ways nextFree n :=
      mem_ways.mpr ⟨a, (visited_iff haligned hle a).mpr ⟨hpage, hlow, hhigh⟩, hway.symm⟩
    rw [hroot, h.resolve_eq, if_pos hin] at hkept
    exact hne hkept.symm
  . intro va va' r r' hva hva' htr htr' hframe
    obtain ⟨hcanonical, hwalk⟩ := resolve_eq_some htr
    obtain ⟨hcanonical', hwalk'⟩ := resolve_eq_some htr'
    apply page_eq_of_path_eq hcanonical hcanonical'
    have hreach := walk_frame va 4 hwalk
    have hreach' := walk_frame va' 4 hwalk'
    rw [← hframe] at hreach'
    -- the frame has a number of 32 bits
    have hfit : (r.frame.setWidth 32).setWidth 64 = r.frame := by
      apply setWidth_setWidth_of_lt
      exact hs.frame_of_path hreach
    obtain ⟨new, hfreed, hnodup, -⟩ := hshrinks.freed
    obtain ⟨new', hfreed', hcount⟩ := h.freed
    have hnew : new = new' := by
      rw [hfreed] at hfreed'
      exact List.append_cancel_right hfreed'
    have hone := List.nodup_iff_count_le_one.mp hnodup (r.frame.setWidth 32)
    rw [hnew, hcount, hfit, Finset.card_le_one] at hone
    apply hone
    . rw [Finset.mem_filter]
      exact ⟨hmem va hva (by rw [htr]; exact Option.some_ne_none r), hreach⟩
    . rw [Finset.mem_filter]
      exact ⟨hmem va' hva' (by rw [htr']; exact Option.some_ne_none r'), hreach'⟩

end

theorem doSyscall_shrink (hseg : segment flags = some seg) (haligned : (s.mms seg).nextFree.toNat % 4096 = 0)
    (hn : (s.mms seg).start.toNat + 4096 * n.toNat ≤ (s.mms seg).nextFree.toNat)
    : doSyscall ⟨.shrink, n, flags⟩ s
      = if 4096 * n.toNat < (s.mms seg).nextFree.toNat then
          some ((s.mms seg).nextFree - n <<< 12,
            setNextFree (unmapAll (visited (s.mms seg).nextFree n.toNat) s) seg ((s.mms seg).nextFree - n <<< 12))
        else
          none := by
  have hbytes : (n <<< 12).toNat = 4096 * n.toNat := by
    rw [toNat_shiftLeft_twelve]
    omega
  have henough : ¬ (s.mms seg).nextFree - (s.mms seg).start < n <<< 12 := by
    rw [BitVec.lt_def, BitVec.toNat_sub, hbytes]
    omega
  have hnew : ((s.mms seg).nextFree - n <<< 12).toNat = (s.mms seg).nextFree.toNat - 4096 * n.toNat := by
    rw [BitVec.toNat_sub, hbytes]
    omega
  simp only [doSyscall, doSyscall.shrink, hseg, henough, ↓reduceIte]
  by_cases habove : 4096 * n.toNat < (s.mms seg).nextFree.toNat
  . rw [loop_eq _ (by omega) n.toNat _ _ _ (by omega) (by omega), if_pos habove]
  . have hzero : (s.mms seg).nextFree - n <<< 12 = 0 := by
      apply BitVec.eq_of_toNat_eq
      rw [hnew]
      show _ = 0
      omega
    rw [hzero, loop_zero, if_neg habove]

theorem hit_unmapAll (hs : s.Tree) (nextFree n : U64)
    : Hit s (ways nextFree n) (unmapAll (visited nextFree n.toNat) s) := by
  have hall := (Hit.refl hs).unmapAll (visited nextFree n.toNat)
  rw [Finset.empty_union] at hall
  exact hall

section

variable (seg) (hs : s.Tree) (hseg : segment flags = some seg) (haligned : (s.mms seg).nextFree.toNat % 4096 = 0)
  (hn : (s.mms seg).start.toNat + 4096 * n.toNat ≤ (s.mms seg).nextFree.toNat)

include hs hseg haligned hn

theorem Shrinks.harmless {v : U64} (hcall : doSyscall ⟨.shrink, n, flags⟩ s = some (v, s'))
    (h : Shrinks s (s.mms seg).nextFree n s')
    : Harmless s (s.mms seg).nextFree n := by
  rw [doSyscall_shrink hseg haligned hn] at hcall
  split at hcall
  . next habove =>
    rw [Option.some.injEq, Prod.mk.injEq] at hcall
    rw [← hcall.2] at h
    apply (hit_unmapAll hs _ n).harmless_of_shrinks haligned (by omega) hs habove
    exact ⟨h.unmapped, h.freed, h.kept⟩
  . cases hcall

theorem Harmless.shrinks (h : Harmless s (s.mms seg).nextFree n)
    : ∃ (v : U64) (s' : State), doSyscall ⟨.shrink, n, flags⟩ s = some (v, s')
      ∧ Shrinks s (s.mms seg).nextFree n s' := by
  rw [doSyscall_shrink hseg haligned hn, if_pos h.above]
  refine ⟨_, _, rfl, ?_⟩
  have hshrinks := (hit_unmapAll hs _ n).shrinks_of_harmless haligned (by omega) h
  exact ⟨hshrinks.unmapped, hshrinks.freed, hshrinks.kept⟩

end

-- two pages in the data segment, the second one 256 pages above the first
def used (nextFree : U64) : State where
  mms := fun _ => ⟨0x180000000, 0x200000000, nextFree, 0x3⟩
  pgd := 0x2000
  frames := fun f i =>
    if f = 0x2000 ∧ i = 0 then 0x2001007
    else if f = 0x2001 ∧ i = 6 then 0x2002007
    else if f = 0x2002 ∧ i = 0 then 0x2003007
    else if f = 0x2003 ∧ i = 0 then 0x6400007
    else if f = 0x2003 ∧ i = 256 then 0x6401007
    else 0
  freed := []

theorem used_child {nextFree : U64} {i : Index} (h : child ((used nextFree).frames f i) = some g)
    : (f = 0x2000 ∧ i = 0 ∧ g = 0x2001) ∨ (f = 0x2001 ∧ i = 6 ∧ g = 0x2002)
      ∨ (f = 0x2002 ∧ i = 0 ∧ g = 0x2003) ∨ (f = 0x2003 ∧ i = 0 ∧ g = 0x6400)
      ∨ (f = 0x2003 ∧ i = 256 ∧ g = 0x6401) := by
  simp only [used] at h
  split_ifs at h <;> simp_all [child, present, frame]

theorem used_reach {nextFree : U64} (h : reach child (used nextFree).frames 0x2000 p = some f)
    : (p = [] ∧ f = 0x2000) ∨ (p = [0] ∧ f = 0x2001) ∨ (p = [0, 6] ∧ f = 0x2002)
      ∨ (p = [0, 6, 0] ∧ f = 0x2003) ∨ (p = [0, 6, 0, 0] ∧ f = 0x6400) ∨ (p = [0, 6, 0, 256] ∧ f = 0x6401) := by
  induction p using List.reverseRecOn generalizing f with
  | nil =>
    left
    cases h
    exact ⟨rfl, rfl⟩
  | append_singleton p i ih =>
    rw [reach_snoc] at h
    cases hp : reach child (used nextFree).frames 0x2000 p with
    | none =>
      rw [hp] at h
      cases h
    | some g =>
      rw [hp] at h
      have hlast := used_child h
      rcases ih hp with ⟨rfl, rfl⟩ | ⟨rfl, rfl⟩ | ⟨rfl, rfl⟩ | ⟨rfl, rfl⟩ | ⟨rfl, rfl⟩ | ⟨rfl, rfl⟩ <;>
        simp_all

theorem used_tree (nextFree : U64) : (used nextFree).Tree := by
  constructor
  . intro p q f hp hq hpf hqf
    rcases used_reach hpf with ⟨rfl, rfl⟩ | ⟨rfl, rfl⟩ | ⟨rfl, rfl⟩ | ⟨rfl, rfl⟩ | ⟨rfl, rfl⟩ | ⟨rfl, rfl⟩ <;>
      rcases used_reach hqf with ⟨rfl, h⟩ | ⟨rfl, h⟩ | ⟨rfl, h⟩ | ⟨rfl, h⟩ | ⟨rfl, h⟩ | ⟨rfl, h⟩ <;>
      simp_all
  . intro p f i _ _ hpresent
    have hchild : child ((used nextFree).frames f i) = some (frame ((used nextFree).frames f i)) := if_pos hpresent
    rcases used_child hchild with ⟨-, -, h⟩ | ⟨-, -, h⟩ | ⟨-, -, h⟩ | ⟨-, -, h⟩ | ⟨-, -, h⟩ <;> rw [h] <;> decide

theorem used_resolve {nextFree : U64} {va : Word} {r : Mapping}
    (h : resolve (used nextFree).frames 0x2000 va = some r)
    : (path va 4 = [0, 6, 0, 0] ∧ va >>> 12 = 0x180000 ∧ r.frame = 0x6400)
      ∨ (path va 4 = [0, 6, 0, 256] ∧ va >>> 12 = 0x180100 ∧ r.frame = 0x6401) := by
  obtain ⟨hcanonical, hwalk⟩ := resolve_eq_some h
  have hreach := walk_frame va 4 hwalk
  have hlen := length_path va 4
  rcases used_reach hreach with ⟨hp, hf⟩ | ⟨hp, hf⟩ | ⟨hp, hf⟩ | ⟨hp, hf⟩ | ⟨hp, hf⟩ | ⟨hp, hf⟩
  . rw [hp] at hlen
    cases hlen
  . rw [hp] at hlen
    cases hlen
  . rw [hp] at hlen
    cases hlen
  . rw [hp] at hlen
    cases hlen
  . left
    have hpath : path va 4 = path 0x180000000 4 := hp
    exact ⟨hp, page_eq_of_path_eq hcanonical (by decide) hpath, hf⟩
  . right
    have hpath : path va 4 = path 0x180100000 4 := hp
    exact ⟨hp, page_eq_of_path_eq hcanonical (by decide) hpath, hf⟩

theorem used_harmless : Harmless (used 0x180001000) 0x180001000 1 := by
  refine ⟨by decide, ?_, ?_, ?_⟩
  . intro va hva hne
    obtain ⟨r, hr⟩ := Option.ne_none_iff_exists'.mp hne
    rcases used_resolve hr with ⟨hpath, hpage, -⟩ | ⟨-, hpage, -⟩
    . have hway : shrink.way va 4 = shrink.way 0x180000000 4 := shrink.way_congr hpage 4
      rw [hway, hpath]
      rfl
    . have hnat := congrArg BitVec.toNat hpage
      simp [Released, BitVec.toNat_ushiftRight, Nat.shiftRight_eq_div_pow] at hva hnat
      omega
  . intro a va haligned hlow hhigh hva hne hway
    obtain ⟨r, hr⟩ := Option.ne_none_iff_exists'.mp hne
    rcases used_resolve hr with ⟨-, hpage, -⟩ | ⟨hpath, -, -⟩
    . have hnat := congrArg BitVec.toNat hpage
      simp [Released, BitVec.toNat_ushiftRight, Nat.shiftRight_eq_div_pow] at hva hnat
      omega
    . -- an index of 256 is never taken
      rw [hpath] at hway
      have hlast := congrArg List.getLast? hway
      simp only [shrink.way, List.getLast?_cons_cons, List.getLast?_singleton, Option.some.injEq] at hlast
      have hindex := shrink.index_eq a 1
      have hval : (256 : Index).val = 256 := rfl
      rw [← hlast, hval] at hindex
      omega
  . intro va va' r r' hva hva' hr hr' hframe
    rcases used_resolve hr with ⟨-, hpage, hf⟩ | ⟨-, hpage, hf⟩ <;>
      rcases used_resolve hr' with ⟨-, hpage', hf'⟩ | ⟨-, hpage', hf'⟩ <;>
      simp_all

end Entry
