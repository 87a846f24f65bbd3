import CS330.Lib.Run
import Mathlib.Logic.Function.Basic

/-!
This module contains the interleavings of any number of threads that run the same program on one shared
state. The program is a relation between the shared state and the place of a thread before and after one
of its actions.
-/

-- `past` has the latest action first
structure Pool (σ κ α : Type) where
  shared : σ
  pc : Nat → κ
  past : List (Nat × α)

namespace Pool

variable {σ κ α : Type} {prog : σ → κ → α → σ → κ → Prop} {p p' p'' : Pool σ κ α} {t : Nat}

def start (s : σ) (k : κ) : Pool σ κ α where
  shared := s
  pc := fun _ => k
  past := []

def move (p : Pool σ κ α) (t : Nat) (a : α) (s : σ) (k : κ) : Pool σ κ α where
  shared := s
  pc := Function.update p.pc t k
  past := (t, a) :: p.past

def Step (prog : σ → κ → α → σ → κ → Prop) (p : Pool σ κ α) (l : Nat × α) (p' : Pool σ κ α) : Prop :=
  ∃ (s : σ) (k : κ), prog p.shared (p.pc l.1) l.2 s k ∧ p' = p.move l.1 l.2 s k

theorem Step.act {a : α} {s : σ} {k : κ} (h : prog p.shared (p.pc t) a s k)
    : Step prog p (t, a) (p.move t a s k) :=
  ⟨s, k, h, rfl⟩

-- thread `t` gets to the place `k` by itself, without a change of the shared state
structure Walks (prog : σ → κ → α → σ → κ → Prop) (t : Nat) (k : κ) (p p' : Pool σ κ α) : Prop where
  run : ∃ (ls : List (Nat × α)), Run (Step prog) p ls p' ∧ ∀ (l : Nat × α), l ∈ ls → l.1 = t
  shared_eq : p'.shared = p.shared
  pc_eq : p'.pc = Function.update p.pc t k

namespace Walks

theorem refl (h : p.pc t = k) : Walks prog t k p p where
  run := ⟨[], .nil, by simp⟩
  shared_eq := rfl
  pc_eq := by rw [← h, Function.update_eq_self]

theorem one {a : α} (h : prog p.shared (p.pc t) a p.shared k)
    : Walks prog t k p (p.move t a p.shared k) where
  run := by
    refine ⟨[(t, a)], Run.snoc .nil (Step.act h), ?_⟩
    simp
  shared_eq := rfl
  pc_eq := rfl

theorem trans {k k' : κ} (h : Walks prog t k p p') (h' : Walks prog t k' p' p'')
    : Walks prog t k' p p'' where
  run := by
    obtain ⟨ls, hrun, hls⟩ := h.run
    obtain ⟨ls', hrun', hls'⟩ := h'.run
    refine ⟨ls ++ ls', hrun.trans hrun', ?_⟩
    intro l hl
    cases List.mem_append.mp hl with
    | inl hl => exact hls l hl
    | inr hl => exact hls' l hl
  shared_eq := h'.shared_eq.trans h.shared_eq
  pc_eq := by rw [h'.pc_eq, h.pc_eq, Function.update_idem]

theorem pc_self {k : κ} (h : Walks prog t k p p') : p'.pc t = k := by
  rw [h.pc_eq, Function.update_self]

theorem pc_other {k : κ} {t' : Nat} (h : Walks prog t k p p') (ht : t' ≠ t) : p'.pc t' = p.pc t' := by
  rw [h.pc_eq, Function.update_of_ne ht]

end Walks

end Pool
