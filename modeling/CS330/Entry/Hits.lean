import CS330.Entry.Lemmas
import CS330.Lib.Unmapping
import Mathlib.Data.Finset.Card

/-!
This module contains what is left of an address space after the loops of `SYSCALL_SHRINK`: the pages at the ends of
the ways that were taken are gone, whatever pages these are.
-/

namespace Entry

open PageTable Radix doSyscall

namespace doSyscall.shrink

-- the way that `unmap` takes
def way (pageAddr : U64) : Nat → List Index
  | 0 => []
  | level + 1 => shrink.index pageAddr (level + 1) :: way pageAddr level

theorem length_way (pageAddr : U64) (level : Nat) : (way pageAddr level).length = level := by
  induction level with
  | zero => rfl
  | succ level ih => rw [way, List.length_cons, ih]

theorem index_eq (pageAddr : U64) (level : Nat)
    : (shrink.index pageAddr level).val = (PageTable.index pageAddr level).val % 256 := by
  have hmask : (pageAddr >>> (3 + 9 * level) &&& 0x1FF#64).toNat
      = (pageAddr >>> (3 + 9 * level)).toNat % 512 := by
    rw [BitVec.toNat_and, show (0x1FF#64).toNat = 2 ^ 9 - 1 by decide, Nat.and_two_pow_sub_one_eq_mod]
  have hcomm : level * 9 + 3 = 3 + 9 * level := by omega
  simp only [shrink.index, PageTable.index, BitVec.toNat_setWidth, hmask, hcomm]

theorem way_congr {a a' : U64} (h : a >>> 12 = a' >>> 12) (level : Nat) : way a level = way a' level := by
  induction level with
  | zero => rfl
  | succ level ih =>
    have hindex : shrink.index a (level + 1) = shrink.index a' (level + 1) := by
      apply Fin.ext
      rw [index_eq, index_eq, index_congr (by omega) h]
    rw [way, way, hindex, ih]

end doSyscall.shrink

namespace State

abbrev root (s : State) : Frame := s.pgd.setWidth 64

/-- A tree of tables that fit into 32 bits, as all numbers of frames do, and none of which hangs in two places. -/
structure Tree (s : State) : Prop where
  unshared : Unshared child s.frames s.root 4
  fits : ∀ (p : List Index) (f : Frame) (i : Index), p.length < 4 → reach child s.frames s.root p = some f
    → present (s.frames f i) = true → (frame (s.frames f i)).toNat < 2 ^ 32

end State

variable {s s' : State} {p q : List Index} {f g : Frame} {va : Word}

theorem State.Tree.pfn_eq (h : s.Tree) {i : Index} (hp : p.length < 4)
    (hf : reach child s.frames s.root p = some f) (hpresent : present (s.frames f i) = true)
    : (((s.frames f i >>> 12) &&& 0xFFFFFFFFFF#64).setWidth 32).setWidth 64 = frame (s.frames f i) := by
  have hfits := h.fits p f i hp hf hpresent
  have hmask : (s.frames f i >>> 12) &&& 0xFFFFFFFFFF#64 = frame (s.frames f i) := rfl
  rw [hmask]
  apply BitVec.eq_of_toNat_eq
  simp only [BitVec.toNat_setWidth]
  omega

theorem State.Tree.frame_lt (h : s.Tree) (hp : p.length < 4) {i : Index} (hf : reach child s.frames s.root p = some f)
    (hg : child (s.frames f i) = some g)
    : g.toNat < 2 ^ 32 := by
  unfold child at hg
  split at hg
  . next hpresent =>
    rw [Option.some.injEq] at hg
    rw [← hg]
    exact h.fits p f i hp hf hpresent
  . cases hg

theorem State.Tree.frame_of_path (h : s.Tree) (hf : reach child s.frames s.root (path va 4) = some f)
    : f.toNat < 2 ^ 32 := by
  have hpath : path va 4 = [index va 4, index va 3, index va 2] ++ [index va 1] := rfl
  rw [hpath] at hf
  obtain ⟨t, ht⟩ := reach_of_prefix hf (List.prefix_append _ _)
  rw [reach_snoc_of ht] at hf
  exact h.frame_lt (p := [index va 4, index va 3, index va 2]) (Nat.lt_succ_self 3) ht hf

-- the way from a table on: it breaks off, or the last entry is cleared
theorem unmap_eq (h : s.Tree) (pageAddr : U64) (level : Nat)
    : ∀ (p : List Index) (f : Frame), p.length + (level + 1) = 4 → reach child s.frames s.root p = some f
      → (reach child s.frames s.root (p ++ shrink.way pageAddr (level + 1)) = none
          ∧ shrink.unmap pageAddr (level + 1) f s = s)
        ∨ ∃ (q : List Index) (i : Index) (t g : Frame), p ++ shrink.way pageAddr (level + 1) = q ++ [i]
          ∧ reach child s.frames s.root q = some t ∧ child (s.frames t i) = some g
          ∧ shrink.unmap pageAddr (level + 1) f s
            = { s with freed := g.setWidth 32 :: s.freed, frames := cut s.frames t i } := by
  induction level with
  | zero =>
    intro p f hp hf
    have hway : p ++ shrink.way pageAddr 1 = p ++ [shrink.index pageAddr 1] := rfl
    cases hpresent : present (s.frames f (shrink.index pageAddr 1)) with
    | false =>
      left
      refine ⟨?_, ?_⟩
      . rw [hway, reach_snoc_of hf, child, hpresent]
        rfl
      . rw [shrink.unmap]
        simp only [Nat.zero_add, (and_one_iff _).mpr hpresent, ↓reduceIte]
    | true =>
      right
      have hzero : ¬ s.frames f (shrink.index pageAddr 1) &&& 0x1 = 0 := by
        rw [and_one_iff, hpresent]
        decide
      refine ⟨p, shrink.index pageAddr 1, f, frame (s.frames f (shrink.index pageAddr 1)), hway, hf, ?_, ?_⟩
      . rw [child, if_pos hpresent]
      . rw [shrink.unmap]
        simp only [Nat.zero_add, hzero, ↓reduceIte, Nat.lt_irrefl]
        rfl
  | succ level ih =>
    intro p f hp hf
    have hway : p ++ shrink.way pageAddr (level + 2)
        = (p ++ [shrink.index pageAddr (level + 2)]) ++ shrink.way pageAddr (level + 1) := by
      rw [List.append_assoc]
      rfl
    rw [shrink.unmap]
    cases hpresent : present (s.frames f (shrink.index pageAddr (level + 2))) with
    | false =>
      left
      refine ⟨?_, ?_⟩
      . rw [hway, reach_append, reach_snoc_of hf, child, hpresent]
        rfl
      . simp only [(and_one_iff _).mpr hpresent, ↓reduceIte]
    | true =>
      have hzero : ¬ s.frames f (shrink.index pageAddr (level + 2)) &&& 0x1 = 0 := by
        rw [and_one_iff, hpresent]
        decide
      have hlevel : level + 1 + 1 > 1 := by omega
      have hnext : reach child s.frames s.root (p ++ [shrink.index pageAddr (level + 2)])
          = some (frame (s.frames f (shrink.index pageAddr (level + 2)))) := by
        rw [reach_snoc_of hf, child, if_pos hpresent]
      simp only [hzero, hlevel, ↓reduceIte]
      rw [h.pfn_eq (by omega) hf hpresent, hway]
      exact ih _ _ (by simp only [List.length_append, List.length_singleton]; omega) hnext

/-- What is left of `s` once the pages at the ends of the ways in `hits` are gone. -/
structure Hit (s : State) (hits : Finset (List Index)) (s' : State) : Prop where
  tree : s'.Tree
  mms : s'.mms = s.mms
  pgd : s'.pgd = s.pgd
  reach_eq : ∀ (q : List Index), q.length = 4
    → reach child s'.frames s.root q = if q ∈ hits then none else reach child s.frames s.root q
  walk_eq : ∀ (va : Word), walk s'.frames va 4 s.root
    = if path va 4 ∈ hits then none else walk s.frames va 4 s.root
  freed : ∃ (new : List U32), s'.freed = new ++ s.freed
    ∧ ∀ (f : U32), new.count f
      = (hits.filter (fun q => reach child s.frames s.root q = some (f.setWidth 64))).card

theorem Hit.refl (h : s.Tree) : Hit s ∅ s := by
  refine ⟨h, rfl, rfl, ?_, ?_, [], rfl, ?_⟩
  . intro q _
    rw [if_neg (Finset.notMem_empty q)]
  . intro va
    rw [if_neg (Finset.notMem_empty _)]
  . intro f
    rfl

-- a way that breaks off adds nothing to what is gone
theorem Hit.miss {hits : Finset (List Index)} (h : Hit s hits s') {q : List Index} (hq : q.length = 4)
    (hmiss : reach child s'.frames s.root q = none)
    : Hit s (insert q hits) s' := by
  obtain ⟨new, hfreed, hcount⟩ := h.freed
  have hgone : q ∉ hits → reach child s.frames s.root q = none := by
    intro hnot
    rw [h.reach_eq q hq, if_neg hnot] at hmiss
    exact hmiss
  refine ⟨h.tree, h.mms, h.pgd, ?_, ?_, new, hfreed, ?_⟩
  . intro r hr
    by_cases heq : r = q
    . rw [if_pos (Finset.mem_insert.mpr (.inl heq)), heq, hmiss]
    . simp only [h.reach_eq r hr, Finset.mem_insert, heq, false_or]
  . intro va
    by_cases heq : path va 4 = q
    . rw [if_pos (Finset.mem_insert.mpr (.inl heq)), walk_eq_none_iff, heq, hmiss]
    . simp only [h.walk_eq va, Finset.mem_insert, heq, false_or]
  . intro f
    rw [hcount f]
    congr 1
    ext r
    simp only [Finset.mem_filter, Finset.mem_insert]
    constructor
    . intro hr
      exact ⟨.inr hr.1, hr.2⟩
    . rintro ⟨heq | hr, hf⟩
      . subst heq
        refine ⟨?_, hf⟩
        by_contra hnot
        rw [hgone hnot] at hf
        cases hf
      . exact ⟨hr, hf⟩

theorem setWidth_setWidth_of_lt {g : Frame} (hg : g.toNat < 2 ^ 32) : (g.setWidth 32).setWidth 64 = g := by
  apply BitVec.eq_of_toNat_eq
  simp only [BitVec.toNat_setWidth]
  omega

theorem State.Tree.cut (h : s.Tree) (hq : q.length = 3) (hf : reach child s.frames s.root q = some f) (i : Index)
    (freed : List U32)
    : State.Tree { s with freed := freed, frames := PageTable.cut s.frames f i } := by
  constructor
  . exact unshared_cut h.unshared hq hf
  . intro p g j hp hg hpresent
    have hnot : p ≠ q ++ [i] := by
      intro heq
      rw [heq, List.length_append, hq, List.length_singleton] at hp
      omega
    have hold : reach child s.frames s.root p = some g := by
      have hcut := reach_cut h.unshared hq hf (i := i) p (by omega)
      rw [if_neg hnot] at hcut
      rw [← hcut]
      exact hg
    by_cases hhere : g = f ∧ j = i
    . obtain ⟨rfl, rfl⟩ := hhere
      simp only [cut_here] at hpresent
      cases hpresent
    . simp only [cut_off _ hhere] at hpresent ⊢
      exact h.fits p g j hp hold hpresent

-- a way that does not break off has its last entry cleared
theorem Hit.cleared {hits : Finset (List Index)} (h : Hit s hits s') {t g : Frame} {q : List Index} {i : Index}
    (hq : q.length = 3) (ht : reach child s'.frames s.root q = some t) (hg : child (s'.frames t i) = some g)
    : Hit s (insert (q ++ [i]) hits)
        { s' with freed := g.setWidth 32 :: s'.freed, frames := cut s'.frames t i } := by
  have hlen : (q ++ [i]).length = 4 := by rw [List.length_append, hq, List.length_singleton]
  have hroot : s'.root = s.root := by unfold State.root; rw [h.pgd]
  have hun := h.tree.unshared
  rw [hroot] at hun
  have hlast : reach child s'.frames s.root (q ++ [i]) = some g := by rw [reach_snoc_of ht, hg]
  have hfirst : q ++ [i] ∉ hits ∧ reach child s.frames s.root (q ++ [i]) = some g := by
    rw [h.reach_eq _ hlen] at hlast
    split at hlast
    . cases hlast
    . next hnot => exact ⟨hnot, hlast⟩
  have hfit : (g.setWidth 32).setWidth 64 = g := by
    apply setWidth_setWidth_of_lt
    exact h.tree.frame_lt (p := q) (by omega) (by rw [hroot]; exact ht) hg
  obtain ⟨new, hfreed, hcount⟩ := h.freed
  refine ⟨h.tree.cut hq (by rw [hroot]; exact ht) i _, h.mms, h.pgd, ?_, ?_, g.setWidth 32 :: new, ?_, ?_⟩
  . intro r hr
    rw [reach_cut hun hq ht r (by omega)]
    by_cases heq : r = q ++ [i]
    . rw [if_pos heq, if_pos (Finset.mem_insert.mpr (.inl heq))]
    . simp only [h.reach_eq r hr, Finset.mem_insert, heq, false_or, ↓reduceIte]
  . intro va
    rw [walk_cut hun hq ht va]
    by_cases heq : path va 4 = q ++ [i]
    . rw [if_pos heq, if_pos (Finset.mem_insert.mpr (.inl heq))]
    . simp only [h.walk_eq va, Finset.mem_insert, heq, false_or, ↓reduceIte]
  . show _ :: s'.freed = _
    rw [hfreed, List.cons_append]
  . intro f
    rw [List.count_cons, hcount f, Finset.filter_insert, hfirst.2]
    by_cases hf : g.setWidth 32 = f
    . have hgf : some g = some (f.setWidth 64) := by rw [← hf, hfit]
      rw [if_pos hgf, if_pos (beq_iff_eq.mpr hf), Finset.card_insert_of_notMem]
      intro hmem
      exact hfirst.1 (Finset.mem_filter.mp hmem).1
    . have hgf : ¬ some g = some (f.setWidth 64) := by
        intro heq
        rw [Option.some.injEq] at heq
        apply hf
        apply setWidth_inj
        rw [hfit, heq]
      rw [if_neg hgf, if_neg (by rw [beq_iff_eq]; exact hf), Nat.add_zero]

theorem Hit.step {hits : Finset (List Index)} (h : Hit s hits s') (pageAddr : U64)
    : Hit s (insert (shrink.way pageAddr 4) hits) (shrink.unmap pageAddr 4 s.root s') := by
  have hroot : s'.root = s.root := by unfold State.root; rw [h.pgd]
  rcases unmap_eq h.tree pageAddr 3 [] s'.root rfl rfl with ⟨hmiss, heq⟩ | ⟨q, i, t, g, hway, ht, hg, heq⟩
  . rw [hroot] at hmiss heq
    rw [heq]
    exact h.miss (shrink.length_way pageAddr 4) hmiss
  . rw [hroot] at ht heq
    rw [List.nil_append] at hway
    have hq : q.length = 3 := by
      have hlen := congrArg List.length hway
      rw [shrink.length_way, List.length_append, List.length_singleton] at hlen
      omega
    rw [heq, hway]
    exact h.cleared hq ht hg

theorem Hit.unmapAll {hits : Finset (List Index)} (h : Hit s hits s') (pages : List U64)
    : Hit s (hits ∪ (pages.map (shrink.way · 4)).toFinset) (unmapAll pages s') := by
  induction pages generalizing hits s' with
  | nil =>
    simp only [List.map_nil, List.toFinset_nil, Finset.union_empty]
    exact h
  | cons a pages ih =>
    have hroot : s'.root = s.root := by unfold State.root; rw [h.pgd]
    have hnext := ih (h.step a)
    rw [List.map_cons, List.toFinset_cons, Finset.union_insert, ← Finset.insert_union]
    rw [← hroot] at hnext
    exact hnext

end Entry
