import CS330.ObjStore.Lemmas.Route
import CS330.ObjStore.Lemmas.Tidy
import Mathlib.Data.List.Sort

/-!
This module contains which blocks are on the route of a read and where: in order, none of them too late, and
those behind a hole too early.
-/

namespace ObjStore

/-! Increasing lists of numbers that are not below `s`. -/

theorem le_of_getElem? {l : List Nat} {s k t : Nat} (hl : l.Pairwise (· < ·)) (hs : ∀ (u : Nat), u ∈ l → s ≤ u)
    (h : l[k]? = some t)
    : s + k ≤ t := by
  induction l generalizing s k with
  | nil => simp at h
  | cons a l ih =>
    obtain ⟨ha, hl⟩ := List.pairwise_cons.mp hl
    have hsa := hs a List.mem_cons_self
    cases k with
    | zero =>
      cases h
      omega
    | succ k =>
      have := ih (s := a + 1) hl (fun u hu => ha u hu) h
      omega

theorem lt_of_getElem? {l : List Nat} {s k t h : Nat} (hl : l.Pairwise (· < ·))
    (hs : ∀ (u : Nat), u ∈ l → s ≤ u) (hget : l[k]? = some t) (hh : h ∉ l) (hsh : s ≤ h) (hht : h < t)
    : s + k < t := by
  induction l generalizing s k with
  | nil => simp at hget
  | cons a l ih =>
    obtain ⟨ha, hl⟩ := List.pairwise_cons.mp hl
    have hsa := hs a List.mem_cons_self
    obtain ⟨hne, hh⟩ := not_or.mp (mt List.mem_cons.mpr hh)
    cases k with
    | zero =>
      cases hget
      omega
    | succ k =>
      have hget' : l[k]? = some t := hget
      by_cases heq : a = s
      . have := ih (s := s + 1) hl (fun u hu => by have := ha u hu; omega) hget' hh (by omega)
        omega
      . have := le_of_getElem? (s := a + 1) hl (fun u hu => ha u hu) hget'
        omega

theorem getElem?_of_mem {l : List Nat} {s k : Nat} (hl : l.Pairwise (· < ·))
    (hs : ∀ (u : Nat), u ∈ l → s ≤ u) (hmem : ∀ (u : Nat), s ≤ u → u ≤ s + k → u ∈ l)
    : l[k]? = some (s + k) := by
  induction k generalizing l s with
  | zero =>
    cases l with
    | nil => simpa using hmem s (Nat.le_refl s) (Nat.le_refl s)
    | cons a l =>
      have hsa := hs a List.mem_cons_self
      cases List.mem_cons.mp (hmem s (Nat.le_refl s) (Nat.le_refl s)) with
      | inl heq => simp [heq]
      | inr hin =>
        have := (List.pairwise_cons.mp hl).1 s hin
        omega
  | succ k ih =>
    cases l with
    | nil => simpa using hmem s (Nat.le_refl s) (by omega)
    | cons a l =>
      obtain ⟨ha, hl'⟩ := List.pairwise_cons.mp hl
      have hsa := hs a List.mem_cons_self
      have heq : s = a := by
        cases List.mem_cons.mp (hmem s (Nat.le_refl s) (by omega)) with
        | inl heq => exact heq
        | inr hin =>
          have := ha s hin
          omega
      subst heq
      have := ih (s := s + 1) hl' (fun u hu => ha u hu) (by
        intro u h1 h2
        cases List.mem_cons.mp (hmem u (by omega) (by omega)) with
        | inl heq => omega
        | inr hin => exact hin)
      rw [List.getElem?_cons_succ, this]
      congr 1
      omega

namespace View

variable {v : View} {o : Slot} {start t : Nat}

theorem mem_segment (n t₀ : Nat)
    : t ∈ v.segment o start n t₀
        ↔ t₀ ≤ t ∧ t < t₀ + n ∧ start ≤ t
          ∧ ∀ (u : Nat), start ≤ u → t₀ ≤ u → u ≤ t → v.ptr (dataRef o u) ≠ 0#32 := by
  induction n generalizing t₀ with
  | zero =>
    simp only [View.segment, List.not_mem_nil, false_iff]
    omega
  | succ n ih =>
    rw [View.segment]
    split
    . next hlt =>
      rw [ih]
      constructor
      . rintro ⟨h1, h2, h3, h4⟩
        refine ⟨by omega, by omega, h3, ?_⟩
        intro u hu _ hut
        exact h4 u hu (by omega) hut
      . rintro ⟨h1, h2, h3, h4⟩
        refine ⟨by omega, by omega, h3, ?_⟩
        intro u hu hu' hut
        exact h4 u hu (by omega) hut
    . next hlt =>
      split
      . next hnull =>
        simp only [List.not_mem_nil, false_iff]
        rintro ⟨h1, h2, h3, h4⟩
        exact h4 t₀ (by omega) (Nat.le_refl t₀) h1 hnull
      . next hne =>
        rw [List.mem_cons, ih]
        constructor
        . rintro (rfl | ⟨h1, h2, h3, h4⟩)
          . refine ⟨Nat.le_refl t, by omega, by omega, ?_⟩
            intro u _ h1 h2
            have : u = t := by omega
            rw [this]
            exact hne
          . refine ⟨by omega, by omega, h3, ?_⟩
            intro u hu hu' hut
            by_cases heq : u = t₀
            . rw [heq]
              exact hne
            . exact h4 u hu (by omega) hut
        . rintro ⟨h1, h2, h3, h4⟩
          by_cases heq : t = t₀
          . exact Or.inl heq
          . right
            refine ⟨by omega, by omega, h3, ?_⟩
            intro u hu hu' hut
            exact h4 u hu (by omega) hut

theorem pairwise_segment (n t₀ : Nat) : (v.segment o start n t₀).Pairwise (· < ·) := by
  induction n generalizing t₀ with
  | zero => exact .nil
  | succ n ih =>
    rw [View.segment]
    split
    . exact ih (t₀ + 1)
    . split
      . exact .nil
      . refine List.pairwise_cons.mpr ⟨?_, ih (t₀ + 1)⟩
        intro u hu
        exact ((mem_segment n (t₀ + 1)).mp hu).1

theorem mem_segments (k : Nat) (hk : k ≤ 4)
    : t ∈ v.segments o start ((Loop.range 4).drop k)
        ↔ ∃ (i : Fin 4), k ≤ i ∧ (∀ (j : Fin 4), k ≤ j → j ≤ i → (v.objects o).indirect j ≠ 0#32)
          ∧ t ∈ v.segment o start 1024 (4 + 1024 * i) := by
  -- the induction is on the number of pointer blocks left
  induction hd : 4 - k generalizing k with
  | zero =>
    rw [List.drop_eq_nil_of_le (by simp; omega), segments]
    simp only [List.not_mem_nil, false_iff]
    rintro ⟨i, hi, -⟩
    omega
  | succ d ih =>
    have hlt : k < 4 := by omega
    rw [Loop.drop_range k hlt, segments]
    split
    . next hnull =>
      simp only [List.not_mem_nil, false_iff]
      rintro ⟨i, hi, hall, -⟩
      exact hall ⟨k, hlt⟩ (Nat.le_refl k) hi hnull
    . next hne =>
      rw [List.mem_append, ih (k + 1) (by omega) (by omega)]
      constructor
      . rintro (hin | ⟨i, hi, hall, hin⟩)
        . refine ⟨⟨k, hlt⟩, Nat.le_refl k, ?_, hin⟩
          intro j h1 h2
          have : j = ⟨k, hlt⟩ := Fin.ext (Nat.le_antisymm h2 h1)
          rw [this]
          exact hne
        . refine ⟨i, by omega, ?_, hin⟩
          intro j h1 h2
          by_cases hj : j.val = k
          . have : j = ⟨k, hlt⟩ := Fin.ext hj
            rw [this]
            exact hne
          . exact hall j (by omega) h2
      . rintro ⟨i, hi, hall, hin⟩
        by_cases heq : i.val = k
        . left
          rw [heq] at hin
          exact hin
        . right
          exact ⟨i, by omega, fun j h1 h2 => hall j (by omega) h2, hin⟩

theorem pairwise_segments (k : Nat) (hk : k ≤ 4)
    : (v.segments o start ((Loop.range 4).drop k)).Pairwise (· < ·) := by
  induction hd : 4 - k generalizing k with
  | zero =>
    rw [List.drop_eq_nil_of_le (by simp; omega)]
    exact .nil
  | succ d ih =>
    have hlt : k < 4 := by omega
    rw [Loop.drop_range k hlt, segments]
    split
    . exact .nil
    . refine List.pairwise_append.mpr ⟨pairwise_segment _ _, ih (k + 1) (by omega) (by omega), ?_⟩
      intro t ht u hu
      have h1 := ((mem_segment _ _).mp ht).2.1
      obtain ⟨i, hi, -, hin⟩ := (mem_segments (k + 1) (by omega)).mp hu
      have h2 := ((mem_segment _ _).mp hin).1
      simp only at h1
      omega

-- the first place of the loop that gets to block `t`
def loopStart (t : Nat) : Nat :=
  if t < 4 then 0 else 4 + 1024 * ((t - 4) / 1024)

theorem pairwise_route : (v.route o start).Pairwise (· < ·) := by
  have hsegs := @pairwise_segments v o start 0 (by omega)
  refine List.pairwise_append.mpr ⟨pairwise_segment _ _, hsegs, ?_⟩
  intro t ht u hu
  have h1 := ((mem_segment _ _).mp ht).2.1
  obtain ⟨i, -, -, hin⟩ := (mem_segments 0 (by omega)).mp hu
  have h2 := ((mem_segment _ _).mp hin).1
  omega

theorem loopStart_le (t : Nat) : loopStart t ≤ t := by
  unfold loopStart
  split
  . omega
  . omega

-- A hole hides the blocks that the same loop gets to later, and no others.
theorem mem_route (htidy : (v.objects o).Tidy)
    : t ∈ v.route o start
        ↔ t < 4100 ∧ start ≤ t
          ∧ ∀ (u : Nat), start ≤ u → loopStart t ≤ u → u ≤ t → v.ptr (dataRef o u) ≠ 0#32 := by
  have hsegs := @mem_segments v o start t 0 (by omega)
  rw [List.drop_zero] at hsegs
  rw [route, List.mem_append, mem_segment, hsegs]
  constructor
  . rintro (⟨-, h2, h3, h4⟩ | ⟨i, -, -, hin⟩)
    . refine ⟨by omega, h3, ?_⟩
      intro u hu _ hut
      exact h4 u hu (by omega) hut
    . obtain ⟨h1, h2, h3, h4⟩ := (mem_segment _ _).mp hin
      refine ⟨by omega, h3, ?_⟩
      have hstart : loopStart t = 4 + 1024 * i := by
        unfold loopStart
        rw [if_neg (by omega)]
        omega
      rw [hstart]
      exact h4
  . rintro ⟨h1, h2, h3⟩
    by_cases hlt : t < 4
    . left
      have hstart : loopStart t = 0 := if_pos hlt
      rw [hstart] at h3
      exact ⟨Nat.zero_le t, by omega, h2, h3⟩
    . right
      have hstart : loopStart t = 4 + 1024 * ((t - 4) / 1024) := if_neg hlt
      have hi : (t - 4) / 1024 < 4 := by omega
      rw [hstart] at h3
      have hin : t ∈ v.segment o start 1024 (4 + 1024 * ((t - 4) / 1024)) :=
        (mem_segment _ _).mpr ⟨by omega, by omega, h2, h3⟩
      refine ⟨⟨(t - 4) / 1024, hi⟩, Nat.zero_le _, ?_, hin⟩
      intro j _ hj
      apply htidy.indirect_le _ j hj
      exact indirect_of_ptr (by omega) h1 (h3 t h2 (by omega) (Nat.le_refl t))

section Places

variable {k : Nat} (htidy : (v.objects o).Tidy)

include htidy

theorem le_of_route (h : (v.route o start)[k]? = some t) : start + k ≤ t := by
  apply le_of_getElem? pairwise_route ?_ h
  intro u hu
  exact ((mem_route htidy).mp hu).2.1

theorem lt_of_route (h : (v.route o start)[k]? = some t) (u : Nat) (hu : start ≤ u) (hut : u < t)
    (hnull : v.ptr (dataRef o u) = 0#32)
    : start + k < t := by
  apply lt_of_getElem? pairwise_route ?_ h ?_ hu hut
  . intro s hs
    exact ((mem_route htidy).mp hs).2.1
  . intro hin
    obtain ⟨-, h1, h2⟩ := (mem_route htidy).mp hin
    exact h2 u h1 (loopStart_le u) (Nat.le_refl u) hnull

theorem route_eq (hlt : start + k < 4100)
    (hpresent : ∀ (u : Nat), start ≤ u → u ≤ start + k → v.ptr (dataRef o u) ≠ 0#32)
    : (v.route o start)[k]? = some (start + k) := by
  apply getElem?_of_mem pairwise_route
  . intro u hu
    exact ((mem_route htidy).mp hu).2.1
  . intro u h1 h2
    apply (mem_route htidy).mpr
    refine ⟨by omega, h1, ?_⟩
    intro u' h3 _ h4
    exact hpresent u' h3 (by omega)

theorem route_congr {v' : View} (htidy' : (v'.objects o).Tidy)
    (hptr : ∀ (u : Nat), u < 4100 → (v'.ptr (dataRef o u) = 0#32 ↔ v.ptr (dataRef o u) = 0#32))
    : v'.route o start = v.route o start := by
  apply List.Pairwise.eq_of_mem_iff pairwise_route pairwise_route
  intro t
  rw [mem_route htidy, mem_route htidy']
  constructor
  . rintro ⟨h1, h2, h3⟩
    exact ⟨h1, h2, fun u h4 h5 h6 => mt (hptr u (by omega)).mpr (h3 u h4 h5 h6)⟩
  . rintro ⟨h1, h2, h3⟩
    exact ⟨h1, h2, fun u h4 h5 h6 => mt (hptr u (by omega)).mp (h3 u h4 h5 h6)⟩

end Places

end View

end ObjStore
