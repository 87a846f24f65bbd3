import CS330.Lib.PageTable

/-!
This module contains what is left of an address space when the last entry on the way to one page is cleared, and
which addresses a processor translates at all.
-/

namespace PageTable

open Radix

-- bits 47 to 63 are all the same
def Canonical (va : Word) : Prop :=
  va.toNat < 2 ^ 47 ∨ 2 ^ 64 - 2 ^ 47 ≤ va.toNat

instance (va : Word) : Decidable (Canonical va) :=
  inferInstanceAs (Decidable (_ ∨ _))

def resolve (m : Tables) (root : Frame) (va : Word) : Option Mapping :=
  if Canonical va then walk m va 4 root else none

def cut (m : Tables) (f : Frame) (i : Index) : Tables :=
  Function.update m f (Function.update (m f) i 0#64)

variable {m m' : Tables} {root f g : Frame} {p : List Index} {i : Index} {va va' : Word}

theorem index_congr {level : Nat} (hlevel : 1 ≤ level) (h : va >>> 12 = va' >>> 12)
    : index va level = index va' level := by
  have hnat := congrArg BitVec.toNat h
  simp only [BitVec.toNat_ushiftRight, Nat.shiftRight_eq_div_pow] at hnat
  have hsplit : ∀ (x : Nat), x / 2 ^ (level * 9 + 3) = x / 2 ^ 12 / 2 ^ (level * 9 - 9) := by
    intro x
    rw [Nat.div_div_eq_div_mul, ← Nat.pow_add]
    congr 2
    omega
  apply Fin.ext
  simp only [index, BitVec.toNat_ushiftRight, Nat.shiftRight_eq_div_pow]
  rw [hsplit, hsplit, hnat]

theorem path_congr (h : va >>> 12 = va' >>> 12) : path va 4 = path va' 4 := by
  have hindex : ∀ (level : Nat), index va (level + 1) = index va' (level + 1) := by
    intro level
    exact index_congr (Nat.le_add_left 1 level) h
  simp only [path, hindex]

theorem page_eq_of_path_eq (h : Canonical va) (h' : Canonical va') (heq : path va 4 = path va' 4)
    : va >>> 12 = va' >>> 12 := by
  rw [← BitVec.toNat_inj]
  simp only [path, index, List.cons.injEq, Fin.mk.injEq, BitVec.toNat_ushiftRight,
    Nat.shiftRight_eq_div_pow] at heq ⊢
  unfold Canonical at h h'
  omega

theorem exists_canonical (q : List Index) (hq : q.length = 4) : ∃ (va : Word), Canonical va ∧ path va 4 = q := by
  match q, hq with
  | [i4, i3, i2, i1], _ =>
    let low : Nat := 2 ^ 39 * i4 + 2 ^ 30 * i3 + 2 ^ 21 * i2 + 2 ^ 12 * i1
    let va : Word := BitVec.ofNat 64 (if low < 2 ^ 47 then low else low + (2 ^ 64 - 2 ^ 48))
    have hva : va.toNat = if low < 2 ^ 47 then low else low + (2 ^ 64 - 2 ^ 48) := by
      simp only [va, BitVec.toNat_ofNat]
      apply Nat.mod_eq_of_lt
      simp only [low]
      split
      . omega
      . omega
    refine ⟨va, ?_, ?_⟩
    . unfold Canonical
      rw [hva]
      simp only [low]
      split
      . omega
      . omega
    . simp only [path, index, List.cons.injEq, BitVec.toNat_ushiftRight, Nat.shiftRight_eq_div_pow, hva,
        Fin.ext_iff, and_true, low]
      split
      . omega
      . omega

theorem walk_eq_none_iff (va : Word) (level : Nat)
    : walk m va level f = none ↔ reach child m f (path va level) = none := by
  induction level generalizing f with
  | zero => simp [walk, path, reach]
  | succ level ih =>
    simp only [walk, path, reach]
    cases child (m f (index va (level + 1))) with
    | none => simp
    | some g => simp [ih]

theorem walk_frame (va : Word) (level : Nat) {r : Mapping} (h : walk m va level f = some r)
    : reach child m f (path va level) = some r.frame := by
  induction level generalizing f r with
  | zero =>
    cases h
    rfl
  | succ level ih =>
    simp only [walk] at h
    simp only [path, reach]
    cases hchild : child (m f (index va (level + 1))) with
    | none =>
      rw [hchild] at h
      cases h
    | some g =>
      rw [hchild] at h
      simp only [Option.map_eq_some_iff] at h
      obtain ⟨r', hr', rfl⟩ := h
      have hframe := ih hr'
      exact hframe

theorem walk_congr (va : Word) (level : Nat)
    (h : ∀ (q s : List Index) (j : Index) (t : Frame), path va level = q ++ j :: s
      → reach child m f q = some t → m' t j = m t j)
    : walk m' va level f = walk m va level f := by
  induction level generalizing f with
  | zero => rfl
  | succ level ih =>
    have hhere := h [] (path va level) (index va (level + 1)) f rfl rfl
    simp only [walk, hhere]
    cases hchild : child (m f (index va (level + 1))) with
    | none => rfl
    | some g =>
      simp only
      rw [ih]
      intro q s j t hpath hq
      apply h (index va (level + 1) :: q) s j t
      . rw [path, hpath]
        rfl
      . simp only [reach, hchild]
        exact hq

theorem cut_here (m : Tables) (f : Frame) (i : Index) : cut m f i f i = 0#64 := by
  simp [cut]

theorem cut_off (m : Tables) {f' : Frame} {j : Index} (h : ¬ (f' = f ∧ j = i)) : cut m f i f' j = m f' j := by
  unfold cut
  by_cases hf : f' = f
  . subst hf
    have hj : j ≠ i := fun hj => h ⟨rfl, hj⟩
    simp [hj]
  . simp [hf]

section Cut

variable (hun : Unshared child m root 4) (hp : p.length = 3) (hf : reach child m root p = some f)

include hun hp hf

theorem reach_cut (q : List Index) (hq : q.length ≤ 4)
    : reach child (cut m f i) root q = if q = p ++ [i] then none else reach child m root q := by
  induction q using List.reverseRecOn with
  | nil =>
    rw [if_neg]
    . rfl
    . intro heq
      simpa using congrArg List.length heq
  | append_singleton q j ih =>
    rw [List.length_append, List.length_singleton] at hq
    have hshort : q ≠ p ++ [i] := by
      intro heq
      have := congrArg List.length heq
      rw [List.length_append, List.length_singleton] at this
      omega
    rw [reach_snoc, ih (by omega), if_neg hshort, reach_snoc]
    cases hr : reach child m root q with
    | none =>
      simp only [Option.bind_none, ite_self]
    | some f' =>
      simp only [Option.bind_some]
      by_cases hhere : f' = f ∧ j = i
      . obtain ⟨rfl, rfl⟩ := hhere
        rw [hun q p f' (by omega) (by omega) hr hf, if_pos rfl, cut_here]
        rfl
      . rw [cut_off m hhere, if_neg]
        intro heq
        have hinj := List.append_inj' heq rfl
        rw [hinj.1, hf, Option.some.injEq] at hr
        have hj : j = i := by simpa using hinj.2
        exact hhere ⟨hr.symm, hj⟩

theorem unshared_cut : Unshared child (cut m f i) root 4 := by
  intro q r t hq hr hqt hrt
  have hne : ∀ (q : List Index), q.length < 4 → q ≠ p ++ [i] := by
    intro q hq heq
    rw [heq, List.length_append, List.length_singleton] at hq
    omega
  rw [reach_cut hun hp hf q (by omega), if_neg (hne q hq)] at hqt
  rw [reach_cut hun hp hf r (by omega), if_neg (hne r hr)] at hrt
  exact hun q r t hq hr hqt hrt

theorem walk_cut (va : Word)
    : walk (cut m f i) va 4 root = if path va 4 = p ++ [i] then none else walk m va 4 root := by
  by_cases heq : path va 4 = p ++ [i]
  . rw [if_pos heq, walk_eq_none_iff, reach_cut hun hp hf _ (Nat.le_of_eq (length_path va 4)), if_pos heq]
  . rw [if_neg heq]
    apply walk_congr
    intro q s j t hpath hq
    apply cut_off
    rintro ⟨rfl, rfl⟩
    have hlen := congrArg List.length hpath
    rw [length_path, List.length_append, List.length_cons] at hlen
    have hqp := hun q p t (by omega) (by omega) hq hf
    have hs : s = [] := List.eq_nil_of_length_eq_zero (by rw [hqp] at hlen; omega)
    apply heq
    rw [hpath, hqp, hs]

end Cut

end PageTable
