import CS330.ObjStore.Isolation
import Mathlib.Data.PEquiv

/-!
This module contains the object table as its clients think of it, a partial injective map from keys to
objects, and that every run of the store is a run of this map.
-/

namespace ObjStore

/-- The names in use and the objects they name, one object for each name and one name for each object. -/
abbrev Names := List Byte ≃. Slot

namespace Names

def Full (m : Names) : Prop :=
  ∀ (o : Slot), ∃ (k : List Byte), m k = some o

-- What a client expects of a call: the value it gets, and the names afterwards.
def Step (m : Names) (c : Op × Reply) (m' : Names) : Prop :=
  match c.1 with
  | .create key =>
    ((m key.chars ≠ none ∨ m.Full) → c.2.value = -1 ∧ m' = m)
    ∧ (¬ (m key.chars ≠ none ∨ m.Full) → ∃ (o : Slot), (∀ (k : List Byte), m k ≠ some o)
        ∧ c.2.value = o.id ∧ 2 ≤ c.2.value
        ∧ ∀ (k : List Byte), m' k = if k = key.chars then some o else m k)
  | .find key => c.2.value = (m key.chars).elim (-1) Slot.id ∧ m' = m
  | .rename key newname =>
    ((m key.chars = none ∨ m newname.chars ≠ none) → c.2.value = -1 ∧ m' = m)
    ∧ (¬ (m key.chars = none ∨ m newname.chars ≠ none) → ∃ (o : Slot), m key.chars = some o
        ∧ c.2.value = o.id
        ∧ ∀ (k : List Byte), m' k
          = if k = newname.chars then some o else if k = key.chars then none else m k)
  | .destroy key =>
    (m key.chars = none → c.2.value = -1 ∧ m' = m)
    ∧ (m key.chars ≠ none → c.2.value = 0
        ∧ ∀ (k : List Byte), m' k = if k = key.chars then none else m k)
  | .write _ _ _ _ => m' = m
  | .read _ _ _ _ => m' = m

end Names

variable {env : Env} {w w' : World} {objects objects' : Slot → Obj}

noncomputable def Table.names (h : Table objects) : Names := by
  classical
  exact {
    toFun := fun k =>
      if hk : k ≠ [] ∧ ∃ (o : Slot), (objects o).name = k then some (Classical.choose hk.2) else none
    invFun := fun o => if (objects o).name = [] then none else some (objects o).name
    inv := by
      intro k o
      constructor
      . intro hk
        by_cases hname : (objects o).name = []
        . simp [hname] at hk
        . simp only [hname, ↓reduceIte, Option.some.injEq] at hk
          subst hk
          have hex : (objects o).name ≠ [] ∧ ∃ (o' : Slot), (objects o').name = (objects o).name :=
            ⟨hname, o, rfl⟩
          have hchosen := Classical.choose_spec hex.2
          have heq := h.unique o _ hname hchosen.symm
          rw [dif_pos hex]
          exact congrArg some heq.symm
      . intro ho
        by_cases hk : k ≠ [] ∧ ∃ (o' : Slot), (objects o').name = k
        . rw [dif_pos hk, Option.some.injEq] at ho
          have hchosen := Classical.choose_spec hk.2
          rw [ho] at hchosen
          rw [hchosen, if_neg hk.1]
        . rw [dif_neg hk] at ho
          cases ho }

theorem Table.names_iff (h : Table objects) (k : List Byte) (o : Slot)
    : h.names k = some o ↔ (k ≠ [] ∧ (objects o).name = k) := by
  rw [← PEquiv.eq_some_iff]
  have hinv : h.names.symm o = if (objects o).name = [] then none else some (objects o).name := by
    unfold Table.names
    rfl
  rw [hinv]
  by_cases hname : (objects o).name = []
  . rw [if_pos hname]
    constructor
    . intro heq
      cases heq
    . rintro ⟨h1, h2⟩
      exact absurd (h2.symm.trans hname) h1
  . rw [if_neg hname, Option.some.injEq]
    constructor
    . intro heq
      exact ⟨heq ▸ hname, heq⟩
    . intro heq
      exact heq.2

theorem Table.names_none (h : Table objects) (k : List Byte) (hk : k ≠ [])
    : h.names k = none ↔ ∀ (o : Slot), (objects o).name ≠ k := by
  constructor
  . intro hnone o hname
    have := (h.names_iff k o).mpr ⟨hk, hname⟩
    rw [hnone] at this
    cases this
  . intro hall
    cases hcase : h.names k with
    | none => rfl
    | some o => exact absurd ((h.names_iff k o).mp hcase).2 (hall o)

theorem Table.full_iff (h : Table objects)
    : h.names.Full ↔ ∀ (o : Slot), (objects o).size ≠ 0#64 := by
  constructor
  . intro hfull o
    obtain ⟨k, hk⟩ := hfull o
    rw [h.names_iff] at hk
    rw [h.live_iff, hk.2]
    exact hk.1
  . intro hall o
    exact ⟨_, (h.names_iff _ o).mpr ⟨(h.live_iff o).mp (hall o), rfl⟩⟩

theorem Table.names_congr (h : Table objects) (h' : Table objects')
    (hname : ∀ (o : Slot), (objects' o).name = (objects o).name)
    : h'.names = h.names := by
  apply PEquiv.ext
  intro k
  apply Option.ext
  intro o
  rw [h'.names_iff, h.names_iff, hname o]

-- The name of one slot changes; `k` asks for another name.
theorem Table.names_update (h : Table objects) (o : Slot) (obj : Obj)
    (h' : Table (Function.update objects o obj)) (k : List Byte)
    : h'.names k
        = if k ≠ [] ∧ k = obj.name then some o else if k = (objects o).name then none else h.names k := by
  apply Option.ext
  intro o'
  rw [h'.names_iff, Function.update_apply]
  by_cases ho : o' = o
  . subst ho
    simp only [↓reduceIte]
    by_cases hk : k ≠ [] ∧ k = obj.name
    . rw [if_pos hk]
      simp [hk.1, hk.2.symm]
    . rw [if_neg hk]
      have h1 : ¬ (k ≠ [] ∧ obj.name = k) := fun h => hk ⟨h.1, h.2.symm⟩
      by_cases hold : k = (objects o').name
      . rw [if_pos hold]
        simp only [h1, reduceCtorEq]
      . have h2 : ¬ (k ≠ [] ∧ (objects o').name = k) := fun h => hold h.2.symm
        simp only [h1, hold, ↓reduceIte, h.names_iff, h2]
  . simp only [ho, ↓reduceIte]
    by_cases hk : k ≠ [] ∧ k = obj.name
    . -- no other slot has the new name
      rw [if_pos hk]
      constructor
      . intro hname
        have hne : (Function.update objects o obj o').name ≠ [] := by
          rw [Function.update_of_ne ho, hname.2]
          exact hk.1
        have := h'.unique o' o hne (by
          rw [Function.update_of_ne ho, Function.update_self, hname.2, hk.2])
        exact absurd this ho
      . intro heq
        exact absurd (Option.some.inj heq).symm ho
    . rw [if_neg hk]
      by_cases hold : k = (objects o).name
      . rw [if_pos hold]
        constructor
        . intro hname
          have := h.unique o' o (hname.2.symm ▸ hname.1) (hname.2.trans hold)
          exact absurd this ho
        . intro heq
          cases heq
      . rw [if_neg hold, h.names_iff]

theorem Effect.names {op : Op} {r : Reply} (h : Effect env w op r w') (hacc : op.Accepts w)
    (htable : Table w.objects) (htable' : Table w'.objects)
    : Names.Step htable.names (op, r) htable'.names := by
  cases h with
  | createFailed key w' hfail h =>
    have hsame : htable'.names = htable.names :=
      htable.names_congr htable' (fun o => by rw [h.objects_eq])
    refine ⟨fun _ => ⟨rfl, hsame⟩, ?_⟩
    intro hnot
    apply absurd _ hnot
    rw [htable.full_iff, ne_eq, htable.names_none _ hacc.chars_ne_nil]
    cases hfail with
    | inl hdup =>
      obtain ⟨o, hname⟩ := hdup
      exact Or.inl (fun hall => hall o hname)
    | inr hfull => exact Or.inr hfull
  | created key o w' hsize hnew h =>
    have hdead := htable.dead o hsize
    have hname := createObject.fresh_name key hacc.lt (w.objects o)
    have hunused : ∀ (k : List Byte), htable.names k ≠ some o := by
      intro k hk
      rw [htable.names_iff, hdead] at hk
      exact hk.1 hk.2.symm
    refine ⟨?_, fun _ => ⟨o, hunused, rfl, ?_, ?_⟩⟩
    . intro hfail
      cases hfail with
      | inl hdup =>
        exfalso
        apply hdup
        rw [htable.names_none _ hacc.chars_ne_nil]
        intro o' hname'
        have := hnew o' hname'
        subst this
        rw [hdead] at hname'
        exact hacc.chars_ne_nil hname'.symm
      | inr hfull =>
        obtain ⟨k, hk⟩ := hfull o
        exact absurd hk (hunused k)
    . have := o.id_ge
      simp only
      omega
    . intro k
      have htab := htable'
      rw [h.objects_eq] at htab
      have heq : htable'.names = htab.names :=
        htab.names_congr htable' (fun o => by rw [h.objects_eq])
      rw [heq, htable.names_update o _ htab, hname, hdead]
      by_cases hk : k = key.chars
      . simp [hk, hacc.chars_ne_nil]
      . by_cases hnil : k = []
        . have hnone : htable.names k = none := by
            cases hcase : htable.names k with
            | none => rfl
            | some o' => exact absurd hnil ((htable.names_iff k o').mp hcase).1
          rw [if_neg (fun h => h.1 hnil), if_pos hnil, if_neg hk, hnone]
        . simp [hk, hnil]
  | found key =>
    refine ⟨?_, rfl⟩
    simp only [findObjectId]
    congr 1
    apply Option.ext
    intro o
    rw [htable.findObject_iff key hacc, htable.names_iff]
    simp [hacc.chars_ne_nil]
  | renameFailed key newname w' hfail h =>
    have hsame : htable'.names = htable.names :=
      htable.names_congr htable' (fun o => by rw [h.objects_eq])
    refine ⟨fun _ => ⟨rfl, hsame⟩, ?_⟩
    intro hnot
    apply absurd _ hnot
    rw [ne_eq, htable.names_none _ hacc.1.chars_ne_nil, htable.names_none _ hacc.2.chars_ne_nil]
    cases hfail with
    | inl hdup =>
      obtain ⟨o, hname⟩ := hdup
      exact Or.inr (fun hall => hall o hname)
    | inr hnone => exact Or.inl hnone
  | renamed key newname o w' hname hnew h =>
    have hname' := renameObject.renamed_name newname hacc.2.lt (w.objects o)
    have hold : htable.names key.chars = some o :=
      (htable.names_iff _ o).mpr ⟨hacc.1.chars_ne_nil, hname⟩
    have hfree : htable.names newname.chars = none := by
      rw [htable.names_none _ hacc.2.chars_ne_nil]
      exact hnew
    refine ⟨?_, fun _ => ⟨o, hold, rfl, ?_⟩⟩
    . intro hfail
      cases hfail with
      | inl hnone =>
        rw [hold] at hnone
        cases hnone
      | inr hsome => exact absurd hfree hsome
    . intro k
      have htab := htable'
      rw [h.objects_eq] at htab
      have heq : htable'.names = htab.names :=
        htab.names_congr htable' (fun o => by rw [h.objects_eq])
      rw [heq, htable.names_update o _ htab, hname', hname]
      by_cases hk : k = newname.chars
      . simp [hk, hacc.2.chars_ne_nil]
      . simp [hk]
  | destroyFailed key hfail =>
    have hnone : htable.names key.chars = none := by
      rw [htable.names_none _ hacc.chars_ne_nil]
      intro o hname
      have hfind := (htable.findObject_iff key hacc o).mpr hname
      cases hfail with
      | inl hfail =>
        rw [hfind] at hfail
        cases hfail
      | inr hfail =>
        obtain ⟨o', hfind', hsize⟩ := hfail
        rw [hfind] at hfind'
        cases hfind'
        rw [htable.dead o hsize] at hname
        exact hacc.chars_ne_nil hname.symm
    refine ⟨fun _ => ⟨rfl, rfl⟩, ?_⟩
    intro hsome
    exact absurd hnone hsome
  | destroyed key o w' hfind hsize h =>
    have hname := findObject_some key hacc.lt o hfind
    have hold : htable.names key.chars = some o :=
      (htable.names_iff _ o).mpr ⟨hacc.chars_ne_nil, hname⟩
    refine ⟨?_, fun _ => ⟨rfl, ?_⟩⟩
    . intro hnone
      rw [hold] at hnone
      cases hnone
    . intro k
      have htab := htable'
      rw [h.objects_eq] at htab
      have heq : htable'.names = htab.names :=
        htab.names_congr htable' (fun o => by rw [h.objects_eq])
      rw [heq, htable.names_update o _ htab, Table.zero_name, hname]
      have : ¬ (k ≠ [] ∧ k = []) := fun h => h.1 h.2
      simp only [this, ↓reduceIte]
  | writeFailed objid buf size offset => exact rfl
  | written o buf size offset hmax hfit w' v hprog hview _ _ =>
    obtain ⟨hother, hname, -⟩ := Effect.written_objects hprog hview
    apply htable.names_congr htable'
    intro o'
    by_cases ho : o' = o
    . rw [ho]
      exact hname
    . rw [hother o' ho]
  | read objid buf size offset r buf' w' h =>
    exact htable.names_congr htable' (fun o => by rw [h.objects_eq])

/-- The names stand for the object table: those of the live objects, and no others. -/
def Names.Describes (m : Names) (w : World) : Prop :=
  ∀ (k : List Byte) (o : Slot), m k = some o ↔ ((w.objects o).size ≠ 0#64 ∧ (w.objects o).name = k)

theorem Table.describes (h : Table w.objects) : h.names.Describes w := by
  intro k o
  rw [h.names_iff]
  constructor
  . rintro ⟨h1, h2⟩
    refine ⟨?_, h2⟩
    rw [h.live_iff, h2]
    exact h1
  . rintro ⟨h1, h2⟩
    refine ⟨?_, h2⟩
    rw [← h2]
    exact (h.live_iff o).mp h1

/--
Whatever calls are made on a store that was blank, their replies are those of a partial injective map
that starts empty, and at every time the live objects are those of the map.
-/
theorem run_names (hr : env.Reliable) {w₀ : World} {calls : List (Op × Reply)}
    (hmount : objstoreInit env (World.ofDisk blankDisk) = .ok (0, w₀))
    (hrun : Run (Step env) w₀ calls w)
    : ∃ (m : Names), Run Names.Step ⊥ calls m ∧ m.Describes w
        ∧ ∀ (o o' : Slot), (w.objects o).size ≠ 0#64 → (w.objects o').size ≠ 0#64
          → (w.objects o).name = (w.objects o').name → o = o' := by
  obtain ⟨w₀', hmount', hmounted⟩ := objstoreInit_spec hr (World.ofDisk blankDisk)
  rw [hmount] at hmount'
  cases hmount'
  -- the relation that the steps keep
  let R (u : World) (m : Names) : Prop := u.Ok env ∧ ∃ (h : Table u.objects), m = h.names
  have hinit : R w₀ ⊥ := by
    have htable : Table w₀.objects := by
      rw [hmounted.objects_eq]
      exact table_blank
    refine ⟨hmounted.ok (by rw [hmounted.view_eq]; exact own_blank), htable, ?_⟩
    apply PEquiv.ext
    intro k
    have hnone : htable.names k = none := by
      cases hcase : htable.names k with
      | none => rfl
      | some o =>
        rw [htable.names_iff, hmounted.objects_eq] at hcase
        have hzero : diskObj (World.ofDisk blankDisk).disk o = Obj.zero := diskObj_blank o
        rw [hzero, Table.zero_name] at hcase
        exact absurd hcase.2.symm hcase.1
    rw [hnone]
    rfl
  have hsim : ∀ (u : World) (c : Op × Reply) (u' : World) (m : Names), R u m → Step env u c u'
      → ∃ (m' : Names), Names.Step m c m' ∧ R u' m' := by
    rintro u ⟨op, r⟩ u' m ⟨hok, htable, rfl⟩ hstep
    have heff := Step.effect hr hok hstep
    have htable' := heff.table hstep.1 htable
    exact ⟨htable'.names, heff.names hstep.1 htable htable', Step.ok hr hok hstep, htable', rfl⟩
  obtain ⟨m, hrun', -, htable, rfl⟩ := Run.sim hsim hinit hrun
  refine ⟨htable.names, hrun', htable.describes, ?_⟩
  intro o o' hlive _ hname
  exact htable.unique o o' ((htable.live_iff o).mp hlive) hname

theorem run_names_created
    : ∃ (w : World) (o : Slot) (calls : List (Op × Reply)) (m : Names), Reaches (steady true) blankDisk w
        ∧ Run Names.Step ⊥ calls m ∧ m.Describes w ∧ m keyA.chars = some o := by
  obtain ⟨w, o, hstarted⟩ := exists_started true
  obtain ⟨w₀, calls, hmount, hrun⟩ := hstarted.reaches
  obtain ⟨m, hm, hdescribes, -⟩ := run_names (steady_reliable true) hmount hrun
  exact ⟨w, o, calls, m, hstarted.reaches, hm, hdescribes,
    (hdescribes _ o).mpr ⟨hstarted.live, hstarted.name_eq⟩⟩

end ObjStore
