import CS330.ObjStore.Lemmas.Reach

/-!
This module contains the block ownership invariant of the object store over whole runs: in every world
reached from a blank disk, the block bitmap tells the reserved and the owned blocks from the others, and
every owned block has one owner.
-/

namespace ObjStore

open View

variable {env : Env} {w : World}

theorem reaches_blank_owned (hr : env.Reliable) (h : Reaches env blankDisk w)
    : (∀ (b : BlockNo), (w.view env).Used b
          ↔ (b.toNat < resBlocks ∨ ∃! (r : Ref), (w.view env).ptr r = b))
      ∧ (∀ (r r' : Ref), (w.view env).ptr r ≠ 0#32 → (w.view env).ptr r = (w.view env).ptr r' → r = r')
      ∧ (∀ (r : Ref), (w.view env).ptr r ≠ 0#32
          → (w.view env).Used ((w.view env).ptr r) ∧ resBlocks ≤ ((w.view env).ptr r).toNat)
      ∧ (∀ (b : BlockNo), (w.view env).Used b → resBlocks ≤ b.toNat
          → ∃ (r : Ref), (w.view env).ptr r = b) := by
  have hown := (h.ok hr own_blank).own
  refine ⟨hown.used_iff, hown.inj, ?_, ?_⟩
  . intro r hne
    exact ⟨hown.ptr_used r hne, Nat.le_of_not_lt (hown.ptr_not_reserved r hne)⟩
  . intro b hused hres
    exact hown.used_owned b hused (Nat.not_lt.mpr hres)

def steady (cached : Bool) : Env where
  cached := cached
  fails := fun _ => false
  junk := fun _ => Buf.zero blockSize

theorem steady_reliable (cached : Bool) : (steady cached).Reliable :=
  fun _ => rfl

def keyA : CStr where
  mem := fun k => if k = 0 then 97#8 else 0#8
  len := 1
  nul := rfl
  nonzero := by
    intro k hk
    have : k = 0 := by omega
    subst this
    decide

theorem keyA_short : keyA.Short :=
  ⟨by decide, by decide⟩

/-- A store that was blank and has been given its first object, `"a"`. -/
structure World.Started (env : Env) (w : World) (o : Slot) : Prop where
  step : ∃ (w₀ : World), Reaches env blankDisk w₀ ∧ Step env w₀ (.create keyA, ⟨o.id, none⟩) w
  live : (w.objects o).size ≠ 0#64
  name_eq : (w.objects o).name = keyA.chars
  direct_eq : ∀ (i : Fin 4), (w.objects o).direct i = 0#32
  blkBmp_eq : w.blkBmp = diskBmp blankDisk
  cacheInfo_eq : ∀ (i : Fin cacheLen), w.cacheInfo i = 0#32
  disk_eq : w.disk = blankDisk

theorem World.Started.reaches {o : Slot} (h : w.Started env o) : Reaches env blankDisk w := by
  obtain ⟨w₀, hreach, hstep⟩ := h.step
  exact hreach.step hstep

theorem exists_started (cached : Bool) : ∃ (w : World) (o : Slot), w.Started (steady cached) o := by
  have hr := steady_reliable cached
  obtain ⟨w₀, hmount, hmounted⟩ := objstoreInit_spec hr (World.ofDisk blankDisk)
  have hreach : Reaches (steady cached) blankDisk w₀ := ⟨w₀, [], hmount, .nil⟩
  have hobj : ∀ (o : Slot), w₀.objects o = Obj.zero := by
    intro o
    rw [hmounted.objects_eq]
    exact diskObj_blank o
  cases createObject_cases w₀ keyA keyA_short.lt with
  | inl h =>
    obtain ⟨log, -, -, hfail⟩ := h
    cases hfail with
    | inl hdup =>
      obtain ⟨o, hname⟩ := hdup
      rw [hobj o, Table.zero_name] at hname
      exact absurd hname.symm keyA_short.chars_ne_nil
    | inr hfull =>
      have := hfull ⟨0, by decide⟩
      rw [hobj] at this
      exact absurd rfl this
  | inr h =>
    obtain ⟨o, log, -, -, heq, hlog⟩ := h
    have hstep : Step (steady cached) w₀ (.create keyA, ⟨o.id, none⟩) _ :=
      ⟨keyA_short, Op.exec_create heq, fun hfull => hreach.not_exhausted hr (hlog.mp hfull)⟩
    refine ⟨_, o, ⟨w₀, hreach, hstep⟩, ?_, ?_, ?_, hmounted.blkBmp_eq, ?_, hmounted.disk_eq⟩
    . simp [createObject.fresh]
    . simp only [Function.update_self]
      exact createObject.fresh_name keyA keyA_short.lt _
    . intro i
      simp only [Function.update_self, createObject.fresh, hobj]
      rfl
    . intro i
      exact congrFun hmounted.cacheInfo_eq i

theorem reaches_blank_owned_created
    : ∃ (w : World) (o : Slot), Reaches (steady true) blankDisk w ∧ (w.objects o).size ≠ 0#64
        ∧ ∀ (b : BlockNo), (w.view (steady true)).Used b
          ↔ (b.toNat < resBlocks ∨ ∃! (r : Ref), (w.view (steady true)).ptr r = b) := by
  obtain ⟨w, o, h⟩ := exists_started true
  exact ⟨w, o, h.reaches, h.live, (reaches_blank_owned (steady_reliable true) h.reaches).1⟩

end ObjStore
