import CS330.Lib.Radix

/-!
This module contains the page tables of a 64 bit x86 processor: their entries, the four level walk, and which
addresses share a page.
-/

namespace PageTable

abbrev Word := BitVec 64
-- a frame of physical memory, by its number
abbrev Frame := BitVec 64
abbrev Index := Fin 512
abbrev Tables := Frame → Index → Word

def present (e : Word) : Bool := e.getLsbD 0
def writable (e : Word) : Bool := e.getLsbD 1
def user (e : Word) : Bool := e.getLsbD 2

-- bits 12 to 51
def frame (e : Word) : Frame := (e >>> 12) &&& (BitVec.ofNat 64 (2 ^ 40 - 1))

def child (e : Word) : Option Frame :=
  if present e then some (frame e) else none

def index (va : Word) (level : Nat) : Index :=
  ⟨(va >>> (level * 9 + 3)).toNat % 512, Nat.mod_lt _ (by decide)⟩

structure Mapping where
  frame : Frame
  writable : Bool
  user : Bool
  deriving DecidableEq, Repr

-- the walk from a table of the given level; access needs the permission of every entry on the way
def walk (m : Tables) (va : Word) : Nat → Frame → Option Mapping
  | 0, f => some ⟨f, true, true⟩
  | level + 1, f =>
    let e := m f (index va (level + 1))
    match child e with
    | some g => (walk m va level g).map (fun r => ⟨r.frame, writable e && r.writable, user e && r.user⟩)
    | none => none

-- the indices that a walk takes
def path (va : Word) : Nat → List Index
  | 0 => []
  | level + 1 => index va (level + 1) :: path va level

@[simp]
theorem length_path (va : Word) (level : Nat) : (path va level).length = level := by
  induction level with
  | zero => rfl
  | succ level ih => simp [path, ih]

-- every entry on the way has the bit
def Along (m : Tables) (b : Word → Bool) (f : Frame) (p : List Index) : Prop :=
  ∀ (q s : List Index) (i : Index) (g : Frame), p = q ++ i :: s → Radix.reach child m f q = some g
    → b (m g i) = true

variable {m : Tables} {b : Word → Bool} {f g : Frame} {p : List Index} {i : Index}

theorem along_nil : Along m b f [] := by
  intro q s i g heq
  simp at heq

theorem along_cons (hg : child (m f i) = some g)
    : Along m b f (i :: p) ↔ (b (m f i) = true ∧ Along m b g p) := by
  constructor
  . intro h
    constructor
    . exact h [] p i f rfl rfl
    . intro q s j t heq ht
      apply h (i :: q) s j t
      . rw [heq]
        rfl
      . simp only [Radix.reach, hg]
        exact ht
  . intro h q s j t heq ht
    cases q with
    | nil =>
      simp only [List.nil_append, List.cons.injEq] at heq
      simp only [Radix.reach, Option.some.injEq] at ht
      rw [← ht, ← heq.1]
      exact h.1
    | cons k q =>
      simp only [List.cons_append, List.cons.injEq] at heq
      rw [← heq.1] at ht
      simp only [Radix.reach, hg] at ht
      exact h.2 q s j t heq.2 ht

theorem along_snoc (hf : Radix.reach child m f p = some g)
    : Along m b f (p ++ [i]) ↔ (Along m b f p ∧ b (m g i) = true) := by
  induction p generalizing f with
  | nil =>
    simp only [Radix.reach, Option.some.injEq] at hf
    subst hf
    constructor
    . intro h
      exact ⟨along_nil, h [] [] i f rfl rfl⟩
    . intro h q s j t heq ht
      cases q with
      | nil =>
        simp only [List.nil_append, List.cons.injEq] at heq
        simp only [Radix.reach, Option.some.injEq] at ht
        rw [← ht, ← heq.1]
        exact h.2
      | cons k q => simp at heq
  | cons k p ih =>
    simp only [Radix.reach] at hf
    cases hchild : child (m f k) with
    | none =>
      simp only [hchild] at hf
      cases hf
    | some t =>
      simp only [hchild] at hf
      rw [List.cons_append, along_cons hchild, along_cons hchild, ih hf]
      constructor
      . intro h
        exact ⟨⟨h.1, h.2.1⟩, h.2.2⟩
      . intro h
        exact ⟨h.1.1, h.1.2, h.2⟩

theorem walk_none (va : Word) (level : Nat) (h : Radix.reach child m f (path va level) = none)
    : walk m va level f = none := by
  induction level generalizing f with
  | zero => cases h
  | succ level ih =>
    simp only [path, Radix.reach] at h
    simp only [walk]
    cases hchild : child (m f (index va (level + 1))) with
    | none => rfl
    | some g =>
      simp only [hchild] at h
      simp only [ih h, Option.map_none]

theorem walk_some (va : Word) (level : Nat) {w u : Bool} (h : Radix.reach child m f (path va level) = some g)
    (hw : w = true ↔ Along m writable f (path va level))
    (hu : u = true ↔ Along m user f (path va level))
    : walk m va level f = some ⟨g, w, u⟩ := by
  induction level generalizing f w u with
  | zero =>
    simp only [path, Radix.reach, Option.some.injEq] at h
    have hw' : w = true := hw.mpr along_nil
    have hu' : u = true := hu.mpr along_nil
    rw [h, hw', hu']
    rfl
  | succ level ih =>
    simp only [path, Radix.reach] at h hw hu
    simp only [walk]
    cases hchild : child (m f (index va (level + 1))) with
    | none =>
      simp only [hchild] at h
      cases h
    | some t =>
      simp only [hchild] at h
      rw [along_cons hchild] at hw hu
      classical
      have hrest := ih (w := decide (Along m writable t (path va level)))
        (u := decide (Along m user t (path va level))) h (by simp) (by simp)
      simp only [hrest, Option.map_some, Option.some.injEq, Mapping.mk.injEq, true_and]
      constructor
      . rw [Bool.eq_iff_iff, hw]
        simp
      . rw [Bool.eq_iff_iff, hu]
        simp

-- the entry for a frame with the user bit, and the write bit if wanted
def entryOf (g : Frame) (w : Bool) : Word :=
  g <<< 12 ||| 0x5#64 ||| (if w then 0x2#64 else 0x0#64)

theorem entryOf_shift {g : Frame} (w : Bool) (hg : g.toNat < 2 ^ 40) : entryOf g w >>> 12 = g := by
  have hshift : (g <<< 12) >>> 12 = g := by
    apply BitVec.eq_of_toNat_eq
    simp only [BitVec.toNat_ushiftRight, BitVec.toNat_shiftLeft, Nat.shiftLeft_eq, Nat.shiftRight_eq_div_pow]
    omega
  have hflag : (if w then 0x2#64 else 0x0#64) >>> 12 = 0#64 := by
    cases w <;> rfl
  rw [entryOf, BitVec.ushiftRight_or_distrib, BitVec.ushiftRight_or_distrib, hshift, hflag]
  simp

theorem frame_eq_shift {e : Word} (h : (e >>> 12).toNat < 2 ^ 40) : frame e = e >>> 12 := by
  apply BitVec.eq_of_toNat_eq
  rw [frame, BitVec.toNat_and, BitVec.toNat_ofNat]
  rw [show (2 ^ 40 - 1) % 2 ^ 64 = 2 ^ 40 - 1 by decide, Nat.and_two_pow_sub_one_eq_mod]
  exact Nat.mod_eq_of_lt h

@[simp]
theorem entryOf_present (g : Frame) (w : Bool) : present (entryOf g w) = true := by
  simp [present, entryOf]

@[simp]
theorem entryOf_user (g : Frame) (w : Bool) : user (entryOf g w) = true := by
  cases w <;> simp [user, entryOf]

@[simp]
theorem entryOf_writable (g : Frame) (w : Bool) : writable (entryOf g w) = w := by
  cases w <;> simp [writable, entryOf]

theorem entryOf_child {g : Frame} (w : Bool) (hg : g.toNat < 2 ^ 40) : child (entryOf g w) = some g := by
  have hshift := entryOf_shift w hg
  rw [child, if_pos (entryOf_present g w), frame_eq_shift, hshift]
  rw [hshift]
  exact hg

theorem and_one_iff (e : Word) : e &&& 0x1 = 0 ↔ present e = false := by
  have hone : (0x1 : Word) = BitVec.twoPow 64 0 := by decide
  rw [hone, BitVec.and_twoPow]
  unfold present
  cases e.getLsbD 0 <;> decide

theorem flag_eq (flags : BitVec 32)
    : (flags &&& 0x2).setWidth 64 = if flags.getLsbD 1 then 0x2#64 else 0x0#64 := by
  have htwo : (0x2 : BitVec 32) = BitVec.twoPow 32 1 := by decide
  rw [htwo, BitVec.and_twoPow]
  cases flags.getLsbD 1 <;> rfl

theorem setWidth_inj {pfn pfn' : BitVec 32} (h : pfn.setWidth 64 = pfn'.setWidth 64) : pfn = pfn' := by
  have := congrArg BitVec.toNat h
  apply BitVec.eq_of_toNat_eq
  simp only [BitVec.toNat_setWidth] at this
  omega

theorem toNat_setWidth_lt {pfn : BitVec 32} (h : pfn.toNat < 2 ^ 20) : (pfn.setWidth 64).toNat < 2 ^ 40 := by
  simp only [BitVec.toNat_setWidth]
  omega

-- nothing is lost when the number of a frame is shifted as a word of 32 bits
theorem setWidth_shift {pfn : BitVec 32} (h : pfn.toNat < 2 ^ 20)
    : (pfn <<< 12).setWidth 64 = (pfn.setWidth 64) <<< 12 := by
  apply BitVec.eq_of_toNat_eq
  simp only [BitVec.toNat_setWidth, BitVec.toNat_shiftLeft, Nat.shiftLeft_eq]
  omega

theorem update_here (m : Tables) (f : Frame) (i : Index) (e : Word)
    : Function.update m f (Function.update (m f) i e) f i = e := by
  simp

theorem update_off (m : Tables) {f f' : Frame} {i j : Index} (e : Word) (h : f' ≠ f ∨ j ≠ i)
    : Function.update m f (Function.update (m f) i e) f' j = m f' j := by
  by_cases hf : f' = f
  . subst hf
    have hj : j ≠ i := by
      cases h with
      | inl hne => exact absurd rfl hne
      | inr hj => exact hj
    simp [hj]
  . simp [hf]

-- an entry that the write bit is added to
def grant (e : Word) (w : Bool) : Word :=
  e ||| (if w then 0x2#64 else 0x0#64)

theorem grant_shift (e : Word) (w : Bool) : grant e w >>> 12 = e >>> 12 := by
  have hflag : (if w then 0x2#64 else 0x0#64) >>> 12 = 0#64 := by
    cases w <;> rfl
  rw [grant, BitVec.ushiftRight_or_distrib, hflag, BitVec.or_zero]

@[simp]
theorem grant_present (e : Word) (w : Bool) : present (grant e w) = present e := by
  cases w <;> simp [present, grant]

@[simp]
theorem grant_user (e : Word) (w : Bool) : user (grant e w) = user e := by
  cases w <;> simp [user, grant]

@[simp]
theorem grant_writable (e : Word) (w : Bool) : writable (grant e w) = (writable e || w) := by
  cases w <;> simp [writable, grant]

theorem grant_frame (e : Word) (w : Bool) : frame (grant e w) = frame e := by
  rw [frame, grant_shift, frame]

theorem grant_child (e : Word) (w : Bool) : child (grant e w) = child e := by
  rw [child, child, grant_present, grant_frame]

-- two addresses of 48 bits take the same way exactly if they are in the same page
theorem path_eq_iff {va va' : Word} (h : va.toNat < 2 ^ 48) (h' : va'.toNat < 2 ^ 48)
    : path va 4 = path va' 4 ↔ va >>> 12 = va' >>> 12 := by
  rw [← BitVec.toNat_inj]
  simp only [path, index, List.cons.injEq, Fin.mk.injEq, BitVec.toNat_ushiftRight, Nat.shiftRight_eq_div_pow]
  constructor
  . intro heq
    omega
  . intro heq
    refine ⟨?_, ?_, ?_, ?_, trivial⟩ <;> omega

end PageTable
