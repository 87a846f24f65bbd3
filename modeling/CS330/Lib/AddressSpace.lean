import CS330.Lib.Unmapping

/-!
This module contains address spaces: four levels of page tables that map a given set of pages, each to its frame
and with its own permission to write, and the three ways to change one entry of them.
-/

namespace PageTable

open Radix

structure Leaf where
  frame : Frame
  writable : Bool

/--
The tables below `root` map exactly the pages in `leaves`. A page that can be written to is so at its last entry,
and the entries above allow it. All tables are among `owned`.
-/
structure Maps (m : Tables) (root : Frame) (owned : Frame → Prop) (leaves : List Index → Option Leaf) : Prop where
  unshared : Unshared child m root 4
  tables : ∀ (p : List Index) (f : Frame), p.length < 4 → reach child m root p = some f → owned f
  sound : ∀ (p : List Index) (f : Frame) (i : Index), p.length < 4 → reach child m root p = some f
    → present (m f i) = true → user (m f i) = true ∧ m f i >>> 12 = frame (m f i)
  leaf : ∀ (q : List Index), q.length = 4 → reach child m root q = (leaves q).map Leaf.frame
  last : ∀ (p : List Index) (i : Index) (f : Frame) (leaf : Leaf), p.length = 3
    → reach child m root p = some f → leaves (p ++ [i]) = some leaf → writable (m f i) = leaf.writable
  upper : ∀ (q : List Index) (leaf : Leaf), q.length = 4 → leaves q = some leaf → leaf.writable = true
    → Along m writable root q

variable {m m' : Tables} {root f g : Frame} {owned owned' : Frame → Prop} {leaves : List Index → Option Leaf}
  {p : List Index} {i : Index}

theorem present_of_child (h : child (m f i) = some g) : present (m f i) = true := by
  unfold child at h
  split at h
  . assumption
  . cases h

theorem snoc_of_length {n : Nat} (q : List Index) (hq : q.length = n + 1)
    : ∃ (p : List Index) (i : Index), q = p ++ [i] ∧ p.length = n := by
  induction q using List.reverseRecOn with
  | nil => cases hq
  | append_singleton p i _ =>
    refine ⟨p, i, rfl, ?_⟩
    simpa using hq

namespace Maps

theorem empty (hroot : ∀ (i : Index), present (m root i) = false) (howned : owned root)
    : Maps m root owned (fun _ => none) := by
  have hreach : ∀ (p : List Index) (f : Frame), reach child m root p = some f → p = [] ∧ f = root := by
    intro p f hf
    cases p with
    | nil =>
      simp only [reach, Option.some.injEq] at hf
      exact ⟨rfl, hf.symm⟩
    | cons i p =>
      simp only [reach, child, hroot] at hf
      cases hf
  constructor
  . intro p q f _ _ hp hq
    rw [(hreach p f hp).1, (hreach q f hq).1]
  . intro p f _ hf
    rw [(hreach p f hf).2]
    exact howned
  . intro p f i _ hf hpresent
    rw [(hreach p f hf).2, hroot] at hpresent
    cases hpresent
  . intro q hq
    cases hr : reach child m root q with
    | none => rfl
    | some f =>
      rw [(hreach q f hr).1] at hq
      cases hq
  . intro p i f leaf _ _ hleaf
    cases hleaf
  . intro q leaf _ hleaf
    cases hleaf

theorem along_user (h : Maps m root owned leaves) (p : List Index) (hp : p.length ≤ 4)
    (hf : reach child m root p = some f)
    : Along m user root p := by
  intro q s i t heq ht
  have hlen : q.length < 4 := by
    rw [heq] at hp
    simp only [List.length_append, List.length_cons] at hp
    omega
  -- the way goes on behind this entry
  have hpresent : present (m t i) = true := by
    rw [heq, reach_append, ht] at hf
    simp only [Option.bind_some, reach] at hf
    split at hf
    . next g hg => exact present_of_child hg
    . cases hf
  exact (h.sound q t i hlen ht hpresent).1

theorem shift_eq (h : Maps m root owned leaves) (hp : p.length < 4) (hf : reach child m root p = some f)
    (hg : reach child m root (p ++ [i]) = some g)
    : m f i >>> 12 = g := by
  rw [reach_snoc_of hf] at hg
  have hpresent := present_of_child hg
  rw [child, if_pos hpresent, Option.some.injEq] at hg
  rw [(h.sound p f i hp hf hpresent).2, hg]

theorem walk_eq (h : Maps m root owned leaves) (va : Word)
    : walk m va 4 root = (leaves (path va 4)).map (fun leaf => ⟨leaf.frame, leaf.writable, true⟩) := by
  have hlen : (path va 4).length = 4 := length_path va 4
  have hreach := h.leaf (path va 4) hlen
  cases hleaf : leaves (path va 4) with
  | none =>
    rw [hleaf] at hreach
    exact walk_none va 4 hreach
  | some leaf =>
    rw [hleaf] at hreach
    apply walk_some va 4 hreach
    . constructor
      . exact h.upper _ leaf hlen hleaf
      . intro halong
        obtain ⟨p, i, heq, hp⟩ := snoc_of_length (path va 4) hlen
        rw [heq] at hreach halong hleaf
        cases hf : reach child m root p with
        | none =>
          rw [reach_snoc, hf] at hreach
          cases hreach
        | some t =>
          rw [← h.last p i t leaf hp hf hleaf]
          exact ((along_snoc hf).mp halong).2
    . constructor
      . intro _
        exact h.along_user _ (by omega) hreach
      . intro _
        rfl

-- the permission to write is added to an entry that leads to another table
theorem grant (h : Maps m root owned leaves) (hp : p.length < 3) (hf : reach child m root p = some f) (w : Bool)
    (hentry : m' f i = PageTable.grant (m f i) w)
    (hsame : ∀ (f' : Frame) (j : Index), f' ≠ f ∨ j ≠ i → m' f' j = m f' j)
    : Maps m' root owned leaves
      ∧ (∀ (q : List Index), reach child m' root q = reach child m root q)
      ∧ ∀ (q : List Index), Along m writable root q → Along m' writable root q := by
  have hcases : ∀ (f' : Frame) (j : Index), m' f' j = m f' j ∨ m' f' j = PageTable.grant (m f' j) w := by
    intro f' j
    by_cases hhere : f' = f ∧ j = i
    . right
      rw [hhere.1, hhere.2]
      exact hentry
    . left
      apply hsame
      by_cases hf' : f' = f
      . right
        intro hj
        exact hhere ⟨hf', hj⟩
      . exact .inl hf'
  have hreach : ∀ (q : List Index), reach child m' root q = reach child m root q := by
    apply reach_congr
    intro f' j
    cases hcases f' j with
    | inl heq => rw [heq]
    | inr heq => rw [heq, grant_child]
  have halong : ∀ (q : List Index), Along m writable root q → Along m' writable root q := by
    intro q hq r s j t heq ht
    rw [hreach] at ht
    have hold := hq r s j t heq ht
    cases hcases t j with
    | inl heq => rw [heq, hold]
    | inr heq => rw [heq, grant_writable, hold, Bool.true_or]
  refine ⟨?_, hreach, halong⟩
  constructor
  . intro q r t hq hr hqt hrt
    rw [hreach] at hqt hrt
    exact h.unshared q r t hq hr hqt hrt
  . intro q t hq ht
    rw [hreach] at ht
    exact h.tables q t hq ht
  . intro q t j hq ht hpresent
    rw [hreach] at ht
    cases hcases t j with
    | inl heq =>
      rw [heq] at hpresent ⊢
      exact h.sound q t j hq ht hpresent
    | inr heq =>
      rw [heq, grant_present] at hpresent
      rw [heq, grant_user, grant_shift, grant_frame]
      exact h.sound q t j hq ht hpresent
  . intro q hq
    rw [hreach]
    exact h.leaf q hq
  . intro q j t leaf hq ht hleaf
    rw [hreach] at ht
    have hne : t ≠ f := by
      intro heq
      rw [heq] at ht
      have := h.unshared q p f (by omega) (by omega) ht hf
      rw [this] at hq
      omega
    rw [hsame t j (.inl hne)]
    exact h.last q j t leaf hq ht hleaf
  . intro q leaf hq hleaf hw
    exact halong q (h.upper q leaf hq hleaf hw)

end Maps

-- an entry that was not present is made to lead to the frame `g`, a new and empty table or a page
structure Added (m m' : Tables) (owned : Frame → Prop) (p : List Index) (f g : Frame) (i : Index) (w : Bool)
    : Prop where
  short : p.length < 4
  bound : g.toNat < 2 ^ 40
  before : present (m f i) = false
  entry : m' f i = entryOf g w
  fresh : p.length + 1 < 4 → ¬ owned g
  empty : p.length + 1 < 4 → ∀ (j : Index), m' g j = 0#64
  same : ∀ (f' : Frame) (j : Index), owned f' → f' ≠ f ∨ j ≠ i → m' f' j = m f' j

namespace Added

variable {w : Bool}

theorem grown (hadd : Added m m' owned p f g i w) (h : Maps m root owned leaves)
    : Grown child m m' root f g i 4 where
  before := by
    rw [child, hadd.before]
    rfl
  after := by
    rw [hadd.entry]
    exact entryOf_child w hadd.bound
  same := by
    intro q f' j hq hf' hoff
    exact hadd.same f' j (h.tables q f' hq hf') hoff

theorem child_empty (hadd : Added m m' owned p f g i w) (hlt : p.length + 1 < 4) (j : Index)
    : child (m' g j) = none := by
  rw [hadd.empty hlt j]
  rfl

theorem reach_eq (hadd : Added m m' owned p f g i w) (h : Maps m root owned leaves)
    (hf : reach child m root p = some f) (q : List Index) (hq : q.length ≤ 4)
    : reach child m' root q = if q = p ++ [i] then some g else reach child m root q := by
  apply (hadd.grown h).reach_eq h.unshared hadd.short hf
  . exact hadd.child_empty
  . exact hq

theorem unshared (hadd : Added m m' owned p f g i w) (h : Maps m root owned leaves)
    (hf : reach child m root p = some f)
    : Unshared child m' root 4 := by
  apply (hadd.grown h).unshared h.unshared hadd.short hf
  . exact hadd.child_empty
  . intro hlt q hq heq
    exact hadd.fresh hlt (h.tables q g hq heq)

theorem reach_before (hadd : Added m m' owned p f g i w) (h : Maps m root owned leaves)
    (hf : reach child m root p = some f)
    : reach child m root (p ++ [i]) = none := by
  rw [reach_snoc_of hf]
  exact (hadd.grown h).before

theorem sound (hadd : Added m m' owned p f g i w) (h : Maps m root owned leaves)
    (hf : reach child m root p = some f) (q : List Index) (t : Frame) (j : Index) (hq : q.length < 4)
    (ht : reach child m' root q = some t) (hpresent : present (m' t j) = true)
    : user (m' t j) = true ∧ m' t j >>> 12 = frame (m' t j) := by
  rw [hadd.reach_eq h hf q (by omega)] at ht
  split at ht
  . next heq =>
    rw [Option.some.injEq] at ht
    have hlt : p.length + 1 < 4 := by
      rw [heq] at hq
      simpa using hq
    rw [← ht, hadd.empty hlt j] at hpresent
    cases hpresent
  . by_cases hhere : t = f ∧ j = i
    . rw [hhere.1, hhere.2, hadd.entry]
      have hshift := entryOf_shift w hadd.bound
      refine ⟨entryOf_user g w, ?_⟩
      rw [frame_eq_shift]
      rw [hshift]
      exact hadd.bound
    . have hoff : t ≠ f ∨ j ≠ i := by
        by_cases htf : t = f
        . right
          intro hj
          exact hhere ⟨htf, hj⟩
        . exact .inl htf
      rw [hadd.same t j (h.tables q t hq ht) hoff] at hpresent ⊢
      exact h.sound q t j hq ht hpresent

-- the way to what was there before has not changed
theorem along (hadd : Added m m' owned p f g i w) (h : Maps m root owned leaves)
    (hf : reach child m root p = some f) {b : Word → Bool} {q : List Index} {t : Frame} (hq : q.length ≤ 4)
    (ht : reach child m root q = some t) (halong : Along m b root q)
    : Along m' b root q := by
  intro r s j u heq hu
  have hlen : r.length < 4 := by
    rw [heq] at hq
    simp only [List.length_append, List.length_cons] at hq
    omega
  have hprefix : ∀ (r' s' : List Index), q = r' ++ s' → reach child m root r' ≠ none := by
    intro r' s' heq' hnone
    rw [heq', reach_append, hnone] at ht
    cases ht
  have hr : r ≠ p ++ [i] := by
    intro hrp
    apply hprefix r (j :: s) heq
    rw [hrp]
    exact hadd.reach_before h hf
  rw [hadd.reach_eq h hf r (by omega), if_neg hr] at hu
  have hoff : u ≠ f ∨ j ≠ i := by
    by_cases huf : u = f
    . right
      intro hj
      rw [huf] at hu
      have hrp := h.unshared r p f hlen hadd.short hu hf
      apply hprefix (p ++ [i]) s
      . rw [heq, hrp, hj]
        simp
      . exact hadd.reach_before h hf
    . exact .inl huf
  rw [hadd.same u j (h.tables r u hlen hu) hoff]
  exact halong r s j u heq hu

end Added

namespace Maps

variable {w : Bool}

theorem reach_leaf (h : Maps m root owned leaves) {q : List Index} {leaf : Leaf} (hq : q.length = 4)
    (hleaf : leaves q = some leaf)
    : reach child m root q = some leaf.frame := by
  rw [h.leaf q hq, hleaf]
  rfl

theorem extend (h : Maps m root owned leaves) (hf : reach child m root p = some f) (hp : p.length < 3)
    (hadd : Added m m' owned p f g i w) (howned : ∀ (f' : Frame), owned f' ∨ f' = g → owned' f')
    : Maps m' root owned' leaves := by
  have hreach := hadd.reach_eq h hf
  constructor
  . exact hadd.unshared h hf
  . intro q t hq ht
    rw [hreach q (by omega)] at ht
    split at ht
    . rw [Option.some.injEq] at ht
      exact howned t (.inr ht.symm)
    . exact howned t (.inl (h.tables q t hq ht))
  . exact hadd.sound h hf
  . intro q hq
    rw [hreach q (by omega), if_neg]
    . exact h.leaf q hq
    . intro heq
      rw [heq] at hq
      simp only [List.length_append, List.length_singleton] at hq
      omega
  . intro q j t leaf hq ht hleaf
    have hbefore := h.reach_leaf (q := q ++ [j]) (by simp [hq]) hleaf
    rw [hreach q (by omega)] at ht
    split at ht
    . next heq =>
      rw [reach_snoc, heq, hadd.reach_before h hf] at hbefore
      cases hbefore
    . have hne : t ≠ f := by
        intro heq
        rw [heq] at ht
        have := h.unshared q p f (by omega) hadd.short ht hf
        rw [this] at hq
        omega
      rw [hadd.same t j (h.tables q t (by omega) ht) (.inl hne)]
      exact h.last q j t leaf hq ht hleaf
  . intro q leaf hq hleaf hw
    exact hadd.along h hf (by omega) (h.reach_leaf hq hleaf) (h.upper q leaf hq hleaf hw)

theorem mono (h : Maps m root owned leaves) (howned : ∀ (f : Frame), owned f → owned' f)
    : Maps m root owned' leaves :=
  { h with tables := fun p f hp hf => howned f (h.tables p f hp hf) }

end Maps

-- An entry on the way to a page leads to a table already, which is allowed to be written to, or to a new one.
inductive Advanced (m m' : Tables) (owned owned' : Frame → Prop) (p : List Index) (f : Frame) (i : Index) (w : Bool)
    : Prop where
  | present (hpresent : PageTable.present (m f i) = true) (hentry : m' f i = PageTable.grant (m f i) w)
      (hsame : ∀ (f' : Frame) (j : Index), f' ≠ f ∨ j ≠ i → m' f' j = m f' j)
      (howned : ∀ (f' : Frame), owned f' → owned' f')
  | absent (g : Frame) (hadd : Added m m' owned p f g i w) (howned : ∀ (f' : Frame), owned f' ∨ f' = g → owned' f')

namespace Maps

variable {w : Bool}

-- a step down towards a page, above the last level
theorem advance (h : Maps m root owned leaves) (hp : p.length < 3) (hf : reach child m root p = some f)
    (hw : w = true → Along m writable root p) (hadv : Advanced m m' owned owned' p f i w)
    : Maps m' root owned' leaves
      ∧ reach child m' root (p ++ [i]) = some (m' f i >>> 12)
      ∧ (w = true → Along m' writable root (p ++ [i])) := by
  cases hadv with
  | present hpresent hentry hsame howned =>
    have hgrant := h.grant hp hf w hentry hsame
    have hf' : reach child m' root p = some f := by
      rw [hgrant.2.1]
      exact hf
    have hsound := h.sound p f i (by omega) hf hpresent
    refine ⟨hgrant.1.mono howned, ?_, ?_⟩
    . rw [reach_snoc_of hf', hentry, grant_child, grant_shift, hsound.2, child, if_pos hpresent]
    . intro hwritable
      rw [along_snoc hf', hentry, grant_writable, hwritable, Bool.or_true]
      exact ⟨hgrant.2.2 p (hw hwritable), rfl⟩
  | absent g hadd howned =>
    have hf' : reach child m' root p = some f := by
      rw [hadd.reach_eq h hf p (by omega), if_neg]
      . exact hf
      . intro heq
        have := congrArg List.length heq
        simp at this
    refine ⟨h.extend hf hp hadd howned, ?_, ?_⟩
    . rw [reach_snoc_of hf', hadd.entry, entryOf_child _ hadd.bound, entryOf_shift _ hadd.bound]
    . intro hwritable
      rw [along_snoc hf', hadd.entry, entryOf_writable]
      exact ⟨hadd.along h hf (by omega) hf (hw hwritable), hwritable⟩

theorem advance_none (h : Maps m root owned leaves) (hp : p.length < 3) (hf : reach child m root p = some f)
    (hadv : Advanced m m' owned owned' p f i w) {q : List Index} (hq : q.length ≤ 4)
    (hnone : reach child m' root q = none)
    : reach child m root q = none := by
  cases hadv with
  | present hpresent hentry hsame howned =>
    rw [(h.grant hp hf w hentry hsame).2.1] at hnone
    exact hnone
  | absent g hadd howned =>
    rw [hadd.reach_eq h hf q hq] at hnone
    split at hnone
    . cases hnone
    . exact hnone

theorem place (h : Maps m root owned leaves) (hf : reach child m root p = some f) (hp : p.length = 3)
    (hadd : Added m m' owned p f g i w) (hw : w = true → Along m writable root p)
    : Maps m' root owned (Function.update leaves (p ++ [i]) (some ⟨g, w⟩)) := by
  have hreach := hadd.reach_eq h hf
  have hlen : (p ++ [i]).length = 4 := by simp [hp]
  constructor
  . exact hadd.unshared h hf
  . intro q t hq ht
    rw [hreach q (by omega), if_neg] at ht
    . exact h.tables q t hq ht
    . intro heq
      rw [heq] at hq
      omega
  . exact hadd.sound h hf
  . intro q hq
    rw [hreach q (by omega)]
    by_cases heq : q = p ++ [i]
    . subst heq
      simp
    . rw [if_neg heq, Function.update_of_ne heq]
      exact h.leaf q hq
  . intro q j t leaf hq ht hleaf
    rw [hreach q (by omega), if_neg] at ht
    . by_cases heq : q ++ [j] = p ++ [i]
      . have hinj := List.append_inj heq (by omega)
        have hj : j = i := by simpa using hinj.2
        rw [hinj.1, hf, Option.some.injEq] at ht
        rw [heq, Function.update_self, Option.some.injEq] at hleaf
        rw [← ht, hj, hadd.entry, entryOf_writable, ← hleaf]
      . rw [Function.update_of_ne heq] at hleaf
        have hoff : t ≠ f ∨ j ≠ i := by
          by_cases htf : t = f
          . right
            intro hj
            rw [htf] at ht
            apply heq
            rw [h.unshared q p f (by omega) hadd.short ht hf, hj]
          . exact .inl htf
        rw [hadd.same t j (h.tables q t (by omega) ht) hoff]
        exact h.last q j t leaf hq ht hleaf
    . intro heq
      rw [heq] at hq
      omega
  . intro q leaf hq hleaf hwritable
    by_cases heq : q = p ++ [i]
    . subst heq
      rw [Function.update_self, Option.some.injEq] at hleaf
      have hwtrue : w = true := by
        rw [← hleaf] at hwritable
        exact hwritable
      have hf' : reach child m' root p = some f := by
        rw [hreach p (by omega), if_neg]
        . exact hf
        . intro heq
          have := congrArg List.length heq
          simp at this
      rw [along_snoc hf', hadd.entry, entryOf_writable]
      exact ⟨hadd.along h hf (by omega) hf (hw hwtrue), hwtrue⟩
    . rw [Function.update_of_ne heq] at hleaf
      exact hadd.along h hf (by omega) (h.reach_leaf hq hleaf) (h.upper q leaf hq hleaf hwritable)

end Maps

section

-- An address space depends on its own tables only.
variable (hsame : ∀ (p : List Index) (f : Frame), p.length < 4 → reach child m root p = some f → m' f = m f)

include hsame

theorem reach_same (q : List Index) (hq : q.length ≤ 4) : reach child m' root q = reach child m root q := by
  induction q using List.reverseRecOn with
  | nil => rfl
  | append_singleton q j ih =>
    rw [List.length_append, List.length_singleton] at hq
    rw [reach_snoc, reach_snoc, ih (by omega)]
    cases hr : reach child m root q with
    | none => rfl
    | some f =>
      simp only [Option.bind_some]
      rw [hsame q f (by omega) hr]

theorem Maps.congr (h : Maps m root owned leaves) : Maps m' root owned leaves := by
  have hreach := reach_same hsame
  constructor
  . intro q r f hq hr hqf hrf
    rw [hreach q (by omega)] at hqf
    rw [hreach r (by omega)] at hrf
    exact h.unshared q r f hq hr hqf hrf
  . intro q f hq hf
    rw [hreach q (by omega)] at hf
    exact h.tables q f hq hf
  . intro q f i hq hf hpresent
    rw [hreach q (by omega)] at hf
    rw [hsame q f hq hf] at hpresent ⊢
    exact h.sound q f i hq hf hpresent
  . intro q hq
    rw [hreach q (by omega)]
    exact h.leaf q hq
  . intro q i f leaf hq hf hleaf
    rw [hreach q (by omega)] at hf
    rw [hsame q f (by omega) hf]
    exact h.last q i f leaf hq hf hleaf
  . intro q leaf hq hleaf hw r t i f heq hf
    have hlen := congrArg List.length heq
    rw [hq, List.length_append, List.length_cons] at hlen
    rw [hreach r (by omega)] at hf
    rw [hsame r f (by omega) hf]
    exact h.upper q leaf hq hleaf hw r t i f heq hf

end

-- What is left when the last entry on the way to a page is cleared.
theorem Maps.cut (h : Maps m root owned leaves) (hp : p.length = 3) (hf : reach child m root p = some f) (i : Index)
    : Maps (PageTable.cut m f i) root owned (Function.update leaves (p ++ [i]) none) := by
  have hreach : ∀ (q : List Index), q.length ≤ 4
      → reach child (PageTable.cut m f i) root q = if q = p ++ [i] then none else reach child m root q :=
    fun q hq => reach_cut h.unshared hp hf q hq
  have hbefore : ∀ (q : List Index), q.length < 4
      → reach child (PageTable.cut m f i) root q = reach child m root q := by
    intro q hq
    rw [hreach q (by omega), if_neg]
    intro heq
    rw [heq, List.length_append, List.length_singleton] at hq
    omega
  constructor
  . exact unshared_cut h.unshared hp hf
  . intro q t hq ht
    rw [hbefore q hq] at ht
    exact h.tables q t hq ht
  . intro q t j hq ht hpresent
    rw [hbefore q hq] at ht
    by_cases hhere : t = f ∧ j = i
    . rw [hhere.1, hhere.2, cut_here] at hpresent
      cases hpresent
    . rw [cut_off m hhere] at hpresent ⊢
      exact h.sound q t j hq ht hpresent
  . intro q hq
    rw [hreach q (by omega), Function.update_apply]
    split
    . rfl
    . exact h.leaf q hq
  . intro q j t leaf hq ht hleaf
    rw [hbefore q (by omega)] at ht
    by_cases heq : q ++ [j] = p ++ [i]
    . rw [heq, Function.update_self] at hleaf
      cases hleaf
    . rw [Function.update_of_ne heq] at hleaf
      rw [cut_off m, h.last q j t leaf hq ht hleaf]
      rintro ⟨rfl, rfl⟩
      exact heq (by rw [h.unshared q p t (by omega) (by omega) ht hf])
  . intro q leaf hq hleaf hw
    by_cases heq : q = p ++ [i]
    . rw [heq, Function.update_self] at hleaf
      cases hleaf
    . rw [Function.update_of_ne heq] at hleaf
      intro r s j u hr hu
      have hlen := congrArg List.length hr
      rw [hq, List.length_append, List.length_cons] at hlen
      rw [hbefore r (by omega)] at hu
      rw [cut_off m]
      . exact h.upper q leaf hq hleaf hw r s j u hr hu
      . rintro ⟨rfl, rfl⟩
        have hrp := h.unshared r p u (by omega) (by omega) hu hf
        have hs : s = [] := List.eq_nil_of_length_eq_zero (by rw [hrp] at hlen; omega)
        apply heq
        rw [hr, hrp, hs]

end PageTable
