import CS330.ObjStore.Lemmas.Frame
import CS330.ObjStore.Isolation

/-!
This module contains what concurrent calls of `create_object`, `rename_object` and `destroy_object` do to
the names of the store. Names get lost exactly where a `destroy_object` clears a slot that another call
has filled or renamed since the slot was looked up.
-/

namespace ObjStore

theorem Obj.name_eq_nil {obj : Obj} (h : obj.key ⟨0, by decide⟩ = 0#8) : obj.name = [] := by
  have := Buf.cstr_eq_iff obj.key (fun _ => 0#8) 0 (by decide) rfl (by omega)
  apply this.mpr
  intro k hk
  have hk : k = 0 := by omega
  subst hk
  exact h

namespace destroyObject

abbrev Clients := Pool World Pc Act

namespace Act

def Updates : Act → Slot → Prop
  | .created _ r, o => r = o.id
  | .renamed _ _ r, o => r = o.id
  | _, _ => False

def named : Act → Option (CStr × Int)
  | .created key r => some (key, r)
  | .renamed _ newname r => some (newname, r)
  | _ => none

def source : Act → Option CStr
  | .renamed key _ _ => some key
  | .missed key => some key
  | .found key _ => some key
  | _ => none

def Short : Act → Prop
  | .created key _ => key.Short
  | .renamed key newname _ => key.Short ∧ newname.Short
  | .missed key => key.Short
  | .found key _ => key.Short
  | _ => True

def isLookup : Act → Bool
  | .found _ _ => true
  | _ => false

end Act

def sinceLookup (t : Nat) (past : List (Nat × Act)) : List (Nat × Act) :=
  past.takeWhile (fun l => !(l.1 == t && l.2.isLookup))

-- The slot has not been given a new key since thread `t` looked it up.
def Untouched (past : List (Nat × Act)) (t : Nat) (o : Slot) : Prop :=
  ∀ (l : Nat × Act), l ∈ sinceLookup t past → ¬ l.2.Updates o

def CarefulStep (env : Env) (p : Clients) (l : Nat × Act) (p' : Clients) : Prop :=
  Pool.Step (Client env) p l p' ∧ l.2.Short
    ∧ ∀ (key : CStr) (o : Slot), p.pc l.1 = .clearSize key o ∨ p.pc l.1 = .clearKey key o
      → Untouched p.past l.1 o

def NotSource (past : List (Nat × Act)) (key : CStr) : Prop :=
  ∀ (l : Nat × Act) (key' : CStr), l ∈ past → l.2.source = some key' → key'.chars ≠ key.chars

structure Kept (w : World) (past : List (Nat × Act)) : Prop where
  found : ∀ (l : Nat × Act) (key : CStr) (r : Int), l ∈ past → l.2.named = some (key, r) → r ≠ -1
    → NotSource past key → findObjectId key w = r
  keyed : ∀ (o : Slot), (w.objects o).size ≠ 0#64 → (w.objects o).key ⟨0, by decide⟩ ≠ 0#8

variable {past : List (Nat × Act)} {p p' : Clients} {t t' : Nat} {a : Act} {o : Slot} {key : CStr}

theorem sinceLookup_cons (h : ¬ (t' = t ∧ a.isLookup = true))
    : sinceLookup t ((t', a) :: past) = (t', a) :: sinceLookup t past := by
  unfold sinceLookup
  rw [List.takeWhile_cons_of_pos]
  simpa [imp_iff_not_or] using h

theorem untouched_cons (h : ¬ (t' = t ∧ a.isLookup = true))
    : Untouched ((t', a) :: past) t o ↔ (¬ a.Updates o ∧ Untouched past t o) := by
  unfold Untouched
  rw [sinceLookup_cons h]
  simp only [List.mem_cons, forall_eq_or_imp]

-- the slot that the client has looked up and not cleared yet
def Pc.Holds : Pc → CStr → Slot → Prop
  | .release key o, key', o' => key = key' ∧ o = o'
  | .clearSize key o, key', o' => key = key' ∧ o = o'
  | .clearKey key o, key', o' => key = key' ∧ o = o'
  | _, _, _ => False

-- a client that can only go on by clearing a slot that it has lost
def Doomed (p : Clients) : Prop :=
  ∃ (t : Nat) (key : CStr) (o : Slot),
    (p.pc t = .clearSize key o ∨ p.pc t = .clearKey key o) ∧ ¬ Untouched p.past t o

theorem Doomed.step {l : Nat × Act} (h : Doomed p) (hstep : CarefulStep env p l p') : Doomed p' := by
  obtain ⟨t, key, o, hpc, htouched⟩ := h
  obtain ⟨⟨w', k, -, rfl⟩, -, hcare⟩ := hstep
  have ht : t ≠ l.1 := by
    rintro rfl
    exact htouched (hcare key o hpc)
  refine ⟨t, key, o, ?_, ?_⟩
  . simp only [Pool.move, Function.update_of_ne ht]
    exact hpc
  . simp only [Pool.move]
    rw [untouched_cons (fun h => ht h.1.symm)]
    intro h
    exact htouched h.2

structure Sound (p : Clients) : Prop where
  short : ∀ (l : Nat × Act), l ∈ p.past → l.2.Short
  half : ∀ (o : Slot), (p.shared.objects o).size = 0#64 → (p.shared.objects o).name ≠ []
    → ∃ (t : Nat) (key : CStr), p.pc t = .clearKey key o
  live : ∀ (o : Slot), (p.shared.objects o).size ≠ 0#64 → (p.shared.objects o).name ≠ []
  unique : ∀ (o o' : Slot), (p.shared.objects o).name ≠ []
    → (p.shared.objects o).name = (p.shared.objects o').name → o = o'
  zero : ∀ (t : Nat) (key : CStr) (o : Slot), p.pc t = .clearKey key o → Untouched p.past t o
    → (p.shared.objects o).size = 0#64
  own : ∀ (t : Nat) (key : CStr) (o : Slot), (p.pc t).Holds key o → Untouched p.past t o
    → (p.shared.objects o).name = [] ∨ (p.shared.objects o).name = key.chars
  source : ∀ (t : Nat) (key : CStr) (o : Slot), (p.pc t).Holds key o
    → ∃ (l : Nat × Act), l ∈ p.past ∧ l.2.source = some key
  kept : ∀ (l : Nat × Act) (key : CStr) (r : Int), l ∈ p.past → l.2.named = some (key, r) → r ≠ -1
    → NotSource p.past key → ∃ (o : Slot), r = o.id ∧ (p.shared.objects o).name = key.chars

variable {k : Pc}

theorem NotSource.of_cons {l : Nat × Act} (h : NotSource (l :: past) key) : NotSource past key := by
  intro l' key' hl' hsource
  exact h l' key' (List.mem_cons_of_mem _ hl') hsource

theorem Act.Short.named (ha : a.Short) {r : Int} (h : a.named = some (key, r)) : key.Short := by
  cases a with
  | created key' r' =>
    cases h
    exact ha
  | renamed key' newname r' =>
    cases h
    exact ha.2
  | _ => cases h

theorem Act.updates_of_named (h : a.named = some (key, o.id)) : a.Updates o := by
  cases a with
  | created key' r' =>
    cases h
    rfl
  | renamed key' newname r' =>
    cases h
    rfl
  | _ => cases h

namespace Sound

theorem short_cons (h : Sound p) (ha : a.Short) : ∀ (l : Nat × Act), l ∈ (t, a) :: p.past → l.2.Short := by
  intro l hl
  cases List.mem_cons.mp hl with
  | inl heq =>
    rw [heq]
    exact ha
  | inr hl => exact h.short l hl

-- what a client held before its action, it has looked up
theorem source_cons (h : Sound p) (t : Nat) (a : Act)
    (hk : ∀ (key : CStr) (o : Slot), k.Holds key o → (p.pc t).Holds key o ∨ a.source = some key)
    (t' : Nat) (key : CStr) (o : Slot) (hheld : (Function.update p.pc t k t').Holds key o)
    : ∃ (l : Nat × Act), l ∈ (t, a) :: p.past ∧ l.2.source = some key := by
  have hold : (p.pc t').Holds key o → ∃ (l : Nat × Act), l ∈ (t, a) :: p.past ∧ l.2.source = some key := by
    intro hheld
    obtain ⟨l, hl, hsource⟩ := h.source t' key o hheld
    exact ⟨l, List.mem_cons_of_mem _ hl, hsource⟩
  by_cases ht : t' = t
  . subst ht
    rw [Function.update_self] at hheld
    cases hk key o hheld with
    | inl hheld => exact hold hheld
    | inr hsource => exact ⟨(t', a), List.mem_cons_self, hsource⟩
  . rw [Function.update_of_ne ht] at hheld
    exact hold hheld

theorem quiet (h : Sound p) (hw : p.shared.SameNames w') (ha : a.Short)
    (hnamed : ∀ (key : CStr) (r : Int), a.named = some (key, r) → r = -1)
    (hfrom : ∀ (key : CStr) (o : Slot), p.pc t ≠ .clearKey key o)
    (hto : ∀ (key : CStr) (o : Slot), k ≠ .clearKey key o)
    (hk : ∀ (key : CStr) (o : Slot), k.Holds key o
      → (a.isLookup = false ∧ (p.pc t).Holds key o)
        ∨ (a.source = some key ∧ (p.shared.objects o).name = key.chars))
    : Sound (p.move t a w' k) where
  short := h.short_cons ha
  half := by
    intro o hsize hname
    simp only [Pool.move] at hsize hname ⊢
    rw [(hw o).1] at hsize
    rw [hw.name_eq] at hname
    obtain ⟨t', key, hpc⟩ := h.half o hsize hname
    have ht : t' ≠ t := by
      rintro rfl
      exact hfrom key o hpc
    exact ⟨t', key, by rw [Function.update_of_ne ht, hpc]⟩
  live := by
    intro o hsize
    simp only [Pool.move] at hsize ⊢
    rw [(hw o).1] at hsize
    rw [hw.name_eq]
    exact h.live o hsize
  unique := by
    intro o o' hname heq
    simp only [Pool.move, hw.name_eq] at hname heq
    exact h.unique o o' hname heq
  zero := by
    intro t' key o hpc huntouched
    simp only [Pool.move] at hpc huntouched ⊢
    have ht : t' ≠ t := by
      rintro rfl
      rw [Function.update_self] at hpc
      exact hto key o hpc
    rw [Function.update_of_ne ht] at hpc
    rw [untouched_cons (fun h => ht h.1.symm)] at huntouched
    rw [(hw o).1]
    exact h.zero t' key o hpc huntouched.2
  own := by
    intro t' key o hheld huntouched
    simp only [Pool.move] at hheld huntouched ⊢
    rw [hw.name_eq]
    by_cases ht : t' = t
    . subst ht
      rw [Function.update_self] at hheld
      cases hk key o hheld with
      | inl hold =>
        rw [untouched_cons (by simp [hold.1])] at huntouched
        exact h.own t' key o hold.2 huntouched.2
      | inr hnew => exact Or.inr hnew.2
    . rw [Function.update_of_ne ht] at hheld
      rw [untouched_cons (fun h => ht h.1.symm)] at huntouched
      exact h.own t' key o hheld huntouched.2
  source := by
    apply h.source_cons t a
    intro key o hheld
    cases hk key o hheld with
    | inl hold => exact Or.inl hold.2
    | inr hnew => exact Or.inr hnew.1
  kept := by
    intro l key r hl hl' hr hsource
    simp only [Pool.move] at hl hsource ⊢
    cases List.mem_cons.mp hl with
    | inl heq =>
      rw [heq] at hl'
      exact absurd (hnamed key r hl') hr
    | inr hl =>
      obtain ⟨o, hid, hname⟩ := h.kept l key r hl hl' hr hsource.of_cons
      exact ⟨o, hid, by rw [hw.name_eq, hname]⟩

-- a slot that no client is about to clear gets a new name
theorem update (h : Sound p) (hsafe : ¬ Doomed (p.move t a w' .idle)) (hidle : p.pc t = .idle)
    (ha : a.Short) (hlook : a.isLookup = false) (hnamed : a.named = some (key, o.id)) {obj : Obj}
    (hobj : w'.objects = Function.update p.shared.objects o obj) (hname : obj.name = key.chars)
    (hold : ((p.shared.objects o).size = 0#64 ∧ obj.size ≠ 0#64)
      ∨ ∃ (key₀ : CStr), key₀.Short ∧ a.source = some key₀ ∧ (p.shared.objects o).name = key₀.chars
        ∧ obj.size = (p.shared.objects o).size)
    (hnew : ∀ (o' : Slot), o' ≠ o → (p.shared.objects o').name ≠ key.chars)
    : Sound (p.move t a w' .idle) := by
  have hfree : ∀ (t' : Nat) (key' : CStr), p.pc t' ≠ .clearKey key' o := by
    intro t' key' hpc
    apply hsafe
    have ht : t' ≠ t := by
      rintro rfl
      rw [hidle] at hpc
      cases hpc
    refine ⟨t', key', o, Or.inr ?_, ?_⟩
    . simp only [Pool.move, Function.update_of_ne ht]
      exact hpc
    . simp only [Pool.move]
      rw [untouched_cons (by simp [hlook])]
      intro h
      exact h.1 (Act.updates_of_named hnamed)
  -- so the slot was empty, or it is the one that is renamed
  have hempty : (p.shared.objects o).size = 0#64 → (p.shared.objects o).name = [] := by
    intro hsize
    apply Classical.byContradiction
    intro hne
    obtain ⟨t', key', hpc⟩ := h.half o hsize hne
    exact hfree t' key' hpc
  have hsize : obj.size ≠ 0#64 := by
    cases hold with
    | inl hdead => exact hdead.2
    | inr hren =>
      obtain ⟨key₀, hshort, -, hname₀, heq⟩ := hren
      rw [heq]
      intro hdead
      apply hshort.chars_ne_nil
      rw [← hname₀, hempty hdead]
  have hlost : ∀ (key' : CStr), key'.Short → NotSource ((t, a) :: p.past) key'
      → (p.shared.objects o).name ≠ key'.chars := by
    intro key' hshort hsource heq
    cases hold with
    | inl hdead =>
      apply hshort.chars_ne_nil
      rw [← heq, hempty hdead.1]
    | inr hren =>
      obtain ⟨key₀, -, hkey₀, hname₀, -⟩ := hren
      exact hsource (t, a) key₀ List.mem_cons_self hkey₀ (hname₀.symm.trans heq)
  have hself : w'.objects o = obj := by rw [hobj, Function.update_self]
  have hother : ∀ (o' : Slot), o' ≠ o → w'.objects o' = p.shared.objects o' := by
    intro o' ho
    rw [hobj, Function.update_of_ne ho]
  have hshort := ha.named hnamed
  -- what is left untouched is another slot
  have hslot : ∀ (t' : Nat) (o' : Slot), Untouched ((t, a) :: p.past) t' o'
      → o' ≠ o ∧ Untouched p.past t' o' := by
    intro t' o' huntouched
    rw [untouched_cons (by simp [hlook])] at huntouched
    refine ⟨?_, huntouched.2⟩
    rintro rfl
    exact huntouched.1 (Act.updates_of_named hnamed)
  have hpc : ∀ (t' : Nat) (k : Pc), Function.update p.pc t Pc.idle t' = k → k ≠ .idle → p.pc t' = k := by
    intro t' k hk hne
    have ht : t' ≠ t := by
      rintro rfl
      rw [Function.update_self] at hk
      exact hne hk.symm
    rwa [Function.update_of_ne ht] at hk
  refine ⟨h.short_cons ha, ?_, ?_, ?_, ?_, ?_, ?_, ?_⟩
  . intro o' hdead hne
    simp only [Pool.move] at hdead hne ⊢
    by_cases ho : o' = o
    . rw [ho, hself] at hdead
      exact absurd hdead hsize
    . rw [hother o' ho] at hdead hne
      obtain ⟨t', key', hpc'⟩ := h.half o' hdead hne
      have ht : t' ≠ t := by
        rintro rfl
        rw [hidle] at hpc'
        cases hpc'
      exact ⟨t', key', by rw [Function.update_of_ne ht, hpc']⟩
  . intro o' hlive
    simp only [Pool.move] at hlive ⊢
    by_cases ho : o' = o
    . rw [ho, hself, hname]
      exact hshort.chars_ne_nil
    . rw [hother o' ho] at hlive ⊢
      exact h.live o' hlive
  . intro o₁ o₂ hne heq
    simp only [Pool.move] at hne heq
    by_cases h1 : o₁ = o
    . by_cases h2 : o₂ = o
      . rw [h1, h2]
      . rw [h1, hself, hother o₂ h2, hname] at heq
        exact absurd heq.symm (hnew o₂ h2)
    . rw [hother o₁ h1] at hne heq
      by_cases h2 : o₂ = o
      . rw [h2, hself, hname] at heq
        exact absurd heq (hnew o₁ h1)
      . rw [hother o₂ h2] at heq
        exact h.unique o₁ o₂ hne heq
  . intro t' key' o' hk huntouched
    simp only [Pool.move] at hk huntouched ⊢
    obtain ⟨ho, huntouched⟩ := hslot t' o' huntouched
    rw [hother o' ho]
    exact h.zero t' key' o' (hpc t' _ hk (by simp)) huntouched
  . intro t' key' o' hheld huntouched
    simp only [Pool.move] at hheld huntouched ⊢
    obtain ⟨ho, huntouched⟩ := hslot t' o' huntouched
    rw [hother o' ho]
    rw [← hpc t' _ rfl (by rintro heq; rw [heq] at hheld; exact hheld)] at hheld
    exact h.own t' key' o' hheld huntouched
  . apply h.source_cons t a
    intro key' o' hheld
    exact absurd hheld (by simp [Pc.Holds])
  . intro l key' r hl hl' hr hsource
    simp only [Pool.move] at hl hsource ⊢
    cases List.mem_cons.mp hl with
    | inl heq =>
      rw [heq, hnamed] at hl'
      cases hl'
      exact ⟨o, rfl, by rw [hself, hname]⟩
    | inr hl =>
      obtain ⟨o', hid, hname'⟩ := h.kept l key' r hl hl' hr hsource.of_cons
      have ho : o' ≠ o := by
        rintro rfl
        exact hlost key' ((h.short l hl).named hl') hsource hname'
      exact ⟨o', hid, by rw [hother o' ho, hname']⟩

theorem clearSize (h : Sound p) (hpc : p.pc t = .clearSize key o)
    : Sound (p.move t .sizeCleared (p.shared.setObj o { p.shared.objects o with size := 0#64 })
        (.clearKey key o)) := by
  have hname : ∀ (o' : Slot),
      ((p.shared.setObj o { p.shared.objects o with size := 0#64 }).objects o').name
        = (p.shared.objects o').name := by
    intro o'
    by_cases ho : o' = o
    . subst ho
      simp only [World.setObj, Function.update_self]
      rfl
    . simp only [World.setObj, Function.update_of_ne ho]
  have hself : ((p.shared.setObj o { p.shared.objects o with size := 0#64 }).objects o).size = 0#64 := by
    simp only [World.setObj, Function.update_self]
  have hother : ∀ (o' : Slot), o' ≠ o
      → ((p.shared.setObj o { p.shared.objects o with size := 0#64 }).objects o').size
        = (p.shared.objects o').size := by
    intro o' ho
    simp only [World.setObj, Function.update_of_ne ho]
  refine ⟨h.short_cons trivial, ?_, ?_, ?_, ?_, ?_, ?_, ?_⟩
  . intro o' hdead hne
    simp only [Pool.move, hname] at hdead hne ⊢
    by_cases ho : o' = o
    . rw [ho]
      exact ⟨t, key, by rw [Function.update_self]⟩
    . rw [hother o' ho] at hdead
      obtain ⟨t', key', hpc'⟩ := h.half o' hdead hne
      have ht : t' ≠ t := by
        rintro rfl
        rw [hpc] at hpc'
        cases hpc'
      exact ⟨t', key', by rw [Function.update_of_ne ht, hpc']⟩
  . intro o' hlive
    simp only [Pool.move, hname] at hlive ⊢
    by_cases ho : o' = o
    . rw [ho] at hlive
      exact absurd hself hlive
    . rw [hother o' ho] at hlive
      exact h.live o' hlive
  . intro o₁ o₂ hne heq
    simp only [Pool.move, hname] at hne heq
    exact h.unique o₁ o₂ hne heq
  . intro t' key' o' hk huntouched
    simp only [Pool.move] at hk huntouched ⊢
    by_cases ho : o' = o
    . rw [ho]
      exact hself
    . have ht : t' ≠ t := by
        rintro rfl
        rw [Function.update_self] at hk
        cases hk
        exact ho rfl
      rw [Function.update_of_ne ht] at hk
      rw [untouched_cons (by simp [Act.isLookup])] at huntouched
      rw [hother o' ho]
      exact h.zero t' key' o' hk huntouched.2
  . intro t' key' o' hheld huntouched
    simp only [Pool.move, hname] at hheld huntouched ⊢
    rw [untouched_cons (by simp [Act.isLookup])] at huntouched
    have hheld' : (p.pc t').Holds key' o' := by
      by_cases ht : t' = t
      . subst ht
        rw [Function.update_self] at hheld
        rw [hpc]
        exact hheld
      . rwa [Function.update_of_ne ht] at hheld
    exact h.own t' key' o' hheld' huntouched.2
  . apply h.source_cons t .sizeCleared
    intro key' o' hheld
    rw [hpc]
    exact Or.inl hheld
  . intro l key' r hl hl' hr hsource
    simp only [Pool.move, hname] at hl hsource ⊢
    cases List.mem_cons.mp hl with
    | inl heq =>
      rw [heq] at hl'
      cases hl'
    | inr hl => exact h.kept l key' r hl hl' hr hsource.of_cons

-- a client that still owns its slot clears the key
theorem clearKey (h : Sound p) (hpc : p.pc t = .clearKey key o) (huntouched : Untouched p.past t o)
    : Sound (p.move t .keyCleared (p.shared.setObj o { p.shared.objects o with key := Buf.zero keySize })
        (.markDirty key o)) := by
  have hdead := h.zero t key o hpc huntouched
  have hheld : (p.pc t).Holds key o := by
    rw [hpc]
    exact ⟨rfl, rfl⟩
  have hold := h.own t key o hheld huntouched
  have hself : ((p.shared.setObj o { p.shared.objects o with key := Buf.zero keySize }).objects o).name
      = [] := by
    simp only [World.setObj, Function.update_self]
    rfl
  have hsize : ∀ (o' : Slot),
      ((p.shared.setObj o { p.shared.objects o with key := Buf.zero keySize }).objects o').size
        = (p.shared.objects o').size := by
    intro o'
    by_cases ho : o' = o
    . subst ho
      simp only [World.setObj, Function.update_self]
    . simp only [World.setObj, Function.update_of_ne ho]
  have hother : ∀ (o' : Slot), o' ≠ o
      → ((p.shared.setObj o { p.shared.objects o with key := Buf.zero keySize }).objects o').name
        = (p.shared.objects o').name := by
    intro o' ho
    simp only [World.setObj, Function.update_of_ne ho]
  have hpc' : ∀ (t' : Nat) (k : Pc), Function.update p.pc t (.markDirty key o) t' = k
      → k ≠ .markDirty key o → t' ≠ t ∧ p.pc t' = k := by
    intro t' k hk hne
    have ht : t' ≠ t := by
      rintro rfl
      rw [Function.update_self] at hk
      exact hne hk.symm
    rw [Function.update_of_ne ht] at hk
    exact ⟨ht, hk⟩
  refine ⟨h.short_cons trivial, ?_, ?_, ?_, ?_, ?_, ?_, ?_⟩
  . intro o' hdead' hne
    simp only [Pool.move, hsize] at hdead' hne ⊢
    have ho : o' ≠ o := by
      rintro rfl
      exact hne hself
    rw [hother o' ho] at hne
    obtain ⟨t', key', hk⟩ := h.half o' hdead' hne
    have ht : t' ≠ t := by
      rintro rfl
      rw [hpc] at hk
      cases hk
      exact ho rfl
    exact ⟨t', key', by rw [Function.update_of_ne ht, hk]⟩
  . intro o' hlive
    simp only [Pool.move, hsize] at hlive ⊢
    have ho : o' ≠ o := by
      rintro rfl
      exact hlive hdead
    rw [hother o' ho]
    exact h.live o' hlive
  . intro o₁ o₂ hne heq
    simp only [Pool.move] at hne heq
    have h1 : o₁ ≠ o := by
      rintro rfl
      exact hne hself
    rw [hother o₁ h1] at hne heq
    have h2 : o₂ ≠ o := by
      rintro rfl
      exact hne (heq.trans hself)
    rw [hother o₂ h2] at heq
    exact h.unique o₁ o₂ hne heq
  . intro t' key' o' hk hun
    simp only [Pool.move, hsize] at hk hun ⊢
    rw [untouched_cons (by simp [Act.isLookup])] at hun
    exact h.zero t' key' o' (hpc' t' _ hk (by simp)).2 hun.2
  . intro t' key' o' hk hun
    simp only [Pool.move] at hk hun ⊢
    rw [untouched_cons (by simp [Act.isLookup])] at hun
    by_cases ho : o' = o
    . rw [ho]
      exact Or.inl hself
    . rw [hother o' ho]
      rw [← (hpc' t' _ rfl (by rintro heq; rw [heq] at hk; exact hk)).2] at hk
      exact h.own t' key' o' hk hun.2
  . apply h.source_cons t .keyCleared
    intro key' o' hk
    exact absurd hk (by simp [Pc.Holds])
  . intro l key' r hl hl' hr hsource
    simp only [Pool.move] at hl hsource ⊢
    cases List.mem_cons.mp hl with
    | inl heq =>
      rw [heq] at hl'
      cases hl'
    | inr hl =>
      obtain ⟨o', hid, hname⟩ := h.kept l key' r hl hl' hr hsource.of_cons
      -- the only key that goes is the source key of the call
      have ho : o' ≠ o := by
        rintro rfl
        have hshort := (h.short l hl).named hl'
        cases hold with
        | inl hnil => exact hshort.chars_ne_nil (hname.symm.trans hnil)
        | inr hown =>
          obtain ⟨l₀, hl₀, hsource₀⟩ := h.source t key o' hheld
          exact hsource.of_cons l₀ key hl₀ hsource₀ (hown.symm.trans hname)
      exact ⟨o', hid, by rw [hother o' ho, hname]⟩

end Sound

theorem Sound.step {l : Nat × Act} (h : Sound p) (hstep : CarefulStep env p l p')
    (hsafe : ¬ Doomed p')
    : Sound p' := by
  obtain ⟨t, a⟩ := l
  obtain ⟨⟨w', k, hact, rfl⟩, hshort, hcare⟩ := hstep
  simp only at hact hshort hcare hsafe ⊢
  generalize hpc : p.pc t = k₀ at hact hcare
  generalize hw : p.shared = w at hact
  have hquiet : ∀ (key : CStr) (o : Slot), Pc.idle.Holds key o
      → (a.isLookup = false ∧ (p.pc t).Holds key o)
        ∨ (a.source = some key ∧ (p.shared.objects o).name = key.chars) := by
    intro key o hheld
    exact absurd hheld (by simp [Pc.Holds])
  cases hact with
  | create w' key r heq =>
    subst hw
    cases createObject_cases p.shared key hshort.lt with
    | inl hfail =>
      obtain ⟨log, heq', -, -⟩ := hfail
      rw [heq] at heq'
      cases heq'
      refine h.quiet (.of_objects rfl) hshort ?_ (by simp [hpc]) (by simp) hquiet
      intro key' r' hnamed
      cases hnamed
      rfl
    | inr hgood =>
      obtain ⟨o, log, hdead, hnew, heq', -⟩ := hgood
      rw [heq] at heq'
      cases heq'
      refine h.update hsafe hpc hshort rfl rfl rfl (createObject.fresh_name key hshort.lt _)
        (Or.inl ⟨hdead, ?_⟩) ?_
      . simp [createObject.fresh]
      . intro o' ho hname
        exact ho (hnew o' hname)
  | rename key newname =>
    subst hw
    cases renameObject_cases p.shared key newname hshort.1.lt hshort.2.lt with
    | inl hfail =>
      obtain ⟨log, heq, -, -⟩ := hfail
      rw [heq] at hshort hsafe hquiet ⊢
      refine h.quiet (.of_objects rfl) hshort ?_ (by simp [hpc]) (by simp) hquiet
      intro key' r' hnamed
      cases hnamed
      rfl
    | inr hgood =>
      obtain ⟨o, log, hname, hnew, heq, -⟩ := hgood
      rw [heq] at hshort hsafe ⊢
      refine h.update hsafe hpc hshort rfl rfl rfl (renameObject.renamed_name newname hshort.2.lt _)
        (Or.inr ⟨key, hshort.1, rfl, hname, rfl⟩) ?_
      intro o' _ hname'
      exact hnew o' hname'
  | miss key hmiss =>
    subst hw
    exact h.quiet (.of_objects rfl) hshort (by simp [Act.named]) (by simp [hpc]) (by simp) hquiet
  | find key o hfind hsize =>
    subst hw
    refine h.quiet (.of_objects rfl) hshort (by simp [Act.named]) (by simp [hpc]) (by simp) ?_
    rintro key' o' ⟨rfl, rfl⟩
    exact Or.inr ⟨rfl, findObject_some key hshort.lt o hfind⟩
  | fail w' key o r heq =>
    subst hw
    have hsame := release_sameNames env o p.shared
    rw [heq] at hsame
    exact h.quiet hsame hshort (by simp [Act.named]) (by simp [hpc]) (by simp) hquiet
  | release w' key o heq =>
    subst hw
    have hsame := release_sameNames env o p.shared
    rw [heq] at hsame
    refine h.quiet hsame hshort (by simp [Act.named]) (by simp [hpc]) (by simp) ?_
    intro key' o' hheld
    rw [hpc]
    exact Or.inl ⟨rfl, hheld⟩
  | clearSize key o =>
    subst hw
    exact h.clearSize hpc
  | clearKey key o =>
    subst hw
    exact h.clearKey hpc (hcare key o (Or.inr rfl))
  | markDirty key o =>
    subst hw
    exact h.quiet (.of_objects rfl) hshort (by simp [Act.named]) (by simp [hpc]) (by simp) hquiet

theorem Sound.start (htable : Table w.objects) : Sound (Pool.start w .idle) where
  short := by
    intro l hl
    cases hl
  half := by
    intro o hsize hname
    exact absurd (htable.dead o hsize) hname
  live := by
    intro o hsize
    exact (htable.live o hsize).1
  unique := htable.unique
  zero := by
    intro t key o hpc
    cases hpc
  own := by
    intro t key o hheld
    exact absurd hheld (by simp [Pc.Holds, Pool.start])
  source := by
    intro t key o hheld
    exact absurd hheld (by simp [Pc.Holds, Pool.start])
  kept := by
    intro l key r hl
    cases hl

theorem Sound.keeps (h : Sound p) : Kept p.shared p.past where
  found := by
    intro l key r hl hnamed hr hsource
    obtain ⟨o, rfl, hname⟩ := h.kept l key r hl hnamed hr hsource
    have hshort := (h.short l hl).named hnamed
    unfold findObjectId
    cases hfind : findObject key p.shared with
    | none =>
      rw [findObject_none key hshort.lt] at hfind
      exact absurd hname (hfind o)
    | some o' =>
      have hname' := findObject_some key hshort.lt o' hfind
      have hne : (p.shared.objects o').name ≠ [] := by
        rw [hname']
        exact hshort.chars_ne_nil
      rw [h.unique o' o hne (hname'.trans hname.symm)]
      rfl
  keyed := by
    intro o hsize hkey
    exact h.live o hsize (Obj.name_eq_nil hkey)

/--
Any number of clients in any order: when all calls have returned, every key that was given to an object
and that no call took as its source key is found under the id that was returned, and no live slot is left
without a key, provided that the keys fit and that `destroy_object` clears only slots that no other call
has filled or renamed since they were looked up.
-/
theorem careful_kept (env : Env) (w : World) (htable : Table w.objects) (ls : List (Nat × Act))
    (p : Clients) (h : Run (CarefulStep env) (Pool.start w .idle) ls p) (hidle : ∀ (t : Nat), p.pc t = .idle)
    : Kept p.shared p.past := by
  have hboth : Sound p ∨ Doomed p := by
    apply Run.inv (I := fun p => Sound p ∨ Doomed p) (Or.inl (Sound.start htable)) _ h
    intro q l q' hq hstep
    by_cases hdoom : Doomed q'
    . exact Or.inr hdoom
    . cases hq with
      | inl hsound => exact Or.inl (hsound.step hstep hdoom)
      | inr hq => exact absurd (hq.step hstep) hdoom
  cases hboth with
  | inl hsound => exact hsound.keeps
  | inr hdoom =>
    obtain ⟨t, key, o, hpc, -⟩ := hdoom
    rw [hidle t] at hpc
    cases hpc with
    | inl hpc => cases hpc
    | inr hpc => cases hpc

/-! One client alone is the `destroy_object` of a single thread. -/

theorem finish_eq (env : Env) (w : World) (o : Slot) (hsize : (w.objects o).size ≠ 0#64)
    : finish env w (some o) = (release env o w).bind (fun flow =>
        match flow with
        | .ret r w => .ok (r, w)
        | .next w | .stop w =>
          .ok (0, markObjDirty o (w.setObj o { w.objects o with size := 0#64, key := Buf.zero keySize }))) := by
  unfold finish release
  simp only
  rw [if_neg hsize]
  cases Loop.run (direct o) (Loop.range 4) w with
  | error e => rfl
  | ok flow =>
    have hrest : ∀ (u : World), (do
        match ← Loop.run (indirect env o) (Loop.range 4) u with
        | .ret r w => return (r, w)
        | .next w | .stop w =>
          let w := w.setObj o { w.objects o with size := 0#64, key := Buf.zero keySize }
          let w := markObjDirty o w
          return (0, w)) = (Loop.run (indirect env o) (Loop.range 4) u).bind (fun flow =>
        match flow with
        | .ret r w => Except.ok (r, w)
        | .next w | .stop w =>
          .ok (0, markObjDirty o (w.setObj o { w.objects o with size := 0#64, key := Buf.zero keySize }))) := by
      intro u
      cases Loop.run (indirect env o) (Loop.range 4) u with
      | error e => rfl
      | ok flow =>
        cases flow with
        | next v => rfl
        | stop v => rfl
        | ret r v => rfl
    cases flow with
    | next u => exact hrest u
    | stop u => exact hrest u
    | ret r u => rfl

theorem release_ne_stop (env : Env) (o : Slot) (w w' : World) : release env o w ≠ .ok (.stop w') := by
  unfold release
  cases Loop.run (direct o) (Loop.range 4) w with
  | error e => simp [bind, Except.bind]
  | ok flow =>
    cases flow with
    | next u => exact Loop.run_ne_stop _ _ u w'
    | stop u => exact Loop.run_ne_stop _ _ u w'
    | ret r u => simp [bind, Except.bind, pure, Except.pure]

theorem client_alone (env : Env) (key : CStr) (r : Int) (w' : World) (t : Nat) (p : Clients)
    (heq : destroyObject env key p.shared = .ok (r, w')) (hp : p.pc t = .idle)
    : ∃ (ls : List (Nat × Act)) (p' : Clients), Run (Pool.Step (Client env)) p ls p'
        ∧ (∀ (l : Nat × Act), l ∈ ls → l.1 = t) ∧ p'.shared = w' ∧ p'.pc t = .idle := by
  unfold destroyObject at heq
  have hmiss : ∀ (hfail : findObject key p.shared = none
      ∨ ∃ (o : Slot), findObject key p.shared = some o ∧ (p.shared.objects o).size = 0#64),
      ∃ (ls : List (Nat × Act)) (p' : Clients), Run (Pool.Step (Client env)) p ls p'
        ∧ (∀ (l : Nat × Act), l ∈ ls → l.1 = t) ∧ p'.shared = p.shared ∧ p'.pc t = .idle := by
    intro hfail
    have hact : Client env p.shared (p.pc t) (.missed key) p.shared .idle := by
      rw [hp]
      exact .miss p.shared key hfail
    refine ⟨_, _, Run.snoc .nil (Pool.Step.act hact), by simp, rfl, ?_⟩
    simp [Pool.move]
  cases hfind : findObject key p.shared with
  | none =>
    rw [hfind] at heq
    cases heq
    exact hmiss (Or.inl hfind)
  | some o =>
    rw [hfind] at heq
    by_cases hsize : (p.shared.objects o).size = 0#64
    . rw [finish, if_pos hsize] at heq
      cases heq
      exact hmiss (Or.inr ⟨o, hfind, hsize⟩)
    . rw [finish_eq env p.shared o hsize] at heq
      let p₁ := p.move t (.found key o) p.shared (.release key o)
      have h1 : Client env p.shared (p.pc t) (.found key o) p.shared (.release key o) := by
        rw [hp]
        exact .find p.shared key o hfind hsize
      have hpc1 : p₁.pc t = .release key o := by simp [p₁, Pool.move]
      cases hrelease : release env o p.shared with
      | error e =>
        rw [hrelease] at heq
        cases heq
      | ok flow =>
        rw [hrelease] at heq
        cases flow with
        | stop u => exact absurd hrelease (release_ne_stop env o p.shared u)
        | ret r' u =>
          cases heq
          have h2 : Client env p₁.shared (p₁.pc t) .failed w' .idle := by
            rw [hpc1]
            exact .fail p.shared w' key o r hrelease
          refine ⟨_, _, (Run.snoc .nil (Pool.Step.act h1)).snoc (Pool.Step.act h2), by simp, rfl, ?_⟩
          simp [Pool.move]
        | next u =>
          cases heq
          let u₁ : World := u.setObj o { u.objects o with size := 0#64 }
          let u₂ : World := u₁.setObj o { u₁.objects o with key := Buf.zero keySize }
          let p₂ := p₁.move t .released u (.clearSize key o)
          let p₃ := p₂.move t .sizeCleared u₁ (.clearKey key o)
          let p₄ := p₃.move t .keyCleared u₂ (.markDirty key o)
          have hpc2 : p₂.pc t = .clearSize key o := by simp [p₂, Pool.move]
          have hpc3 : p₃.pc t = .clearKey key o := by simp [p₃, Pool.move]
          have hpc4 : p₄.pc t = .markDirty key o := by simp [p₄, Pool.move]
          have h2 : Client env p₁.shared (p₁.pc t) .released u (.clearSize key o) := by
            rw [hpc1]
            exact .release p.shared u key o hrelease
          have h3 : Client env p₂.shared (p₂.pc t) .sizeCleared u₁ (.clearKey key o) := by
            rw [hpc2]
            exact .clearSize u key o
          have h4 : Client env p₃.shared (p₃.pc t) .keyCleared u₂ (.markDirty key o) := by
            rw [hpc3]
            exact .clearKey u₁ key o
          have h5 : Client env p₄.shared (p₄.pc t) .marked (markObjDirty o u₂) .idle := by
            rw [hpc4]
            exact .markDirty u₂ key o
          refine ⟨_, _, ((((Run.snoc .nil (Pool.Step.act h1)).snoc (Pool.Step.act h2)).snoc
            (Pool.Step.act h3)).snoc (Pool.Step.act h4)).snoc (Pool.Step.act h5), by simp, ?_, ?_⟩
          . simp [Pool.move, u₂, u₁, World.setObj]
          . simp [Pool.move]

/-! Two clients on a store that was just mounted from a blank disk. -/

theorem release_empty (env : Env) (o : Slot) (w : World) (hdirect : ∀ (i : Fin 4), (w.objects o).direct i = 0#32)
    (hindirect : ∀ (i : Fin 4), (w.objects o).indirect i = 0#32)
    : release env o w = .ok (.next w) := by
  have h1 : Loop.run (direct o) (Loop.range 4) w = .ok (.next w) := by
    apply Loop.run_inv (P := fun _ u => u = w) (Q := fun res => res = .ok (.next w)) _ _ w rfl
    . rintro i u rfl
      simp only [direct, hdirect, ne_eq, not_true_eq_false, ↓reduceIte]
      rfl
    . rintro u rfl
      rfl
  have h2 : Loop.run (indirect env o) (Loop.range 4) w = .ok (.next w) := by
    apply Loop.run_inv (P := fun _ u => u = w) (Q := fun res => res = .ok (.next w)) _ _ w rfl
    . rintro i u rfl
      simp only [indirect, hindirect, ne_eq, not_true_eq_false, ↓reduceIte]
      rfl
    . rintro u rfl
      rfl
  unfold release
  rw [h1]
  exact h2

-- client 1 creates `"a"`, client 0 looks it up in order to destroy it
theorem exists_lookedUp (w₀ : World) (hblank : ∀ (o : Slot), w₀.objects o = Obj.zero)
    : ∃ (o : Slot) (w : World), createObject keyA w₀ = .ok (o.id, w)
        ∧ w.objects = Function.update w₀.objects o (createObject.fresh keyA Obj.zero)
        ∧ findObject keyA w = some o := by
  have hnone : ∀ (o : Slot), (w₀.objects o).name ≠ keyA.chars := by
    intro o hname
    rw [hblank o, Table.zero_name] at hname
    exact keyA_short.chars_ne_nil hname.symm
  cases createObject_cases w₀ keyA keyA_short.lt with
  | inl h =>
    obtain ⟨log, -, -, hfail⟩ := h
    cases hfail with
    | inl hdup =>
      obtain ⟨o, hname⟩ := hdup
      exact absurd hname (hnone o)
    | inr hfull =>
      have := hfull ⟨0, by decide⟩
      rw [hblank] at this
      exact absurd rfl this
  | inr h =>
    obtain ⟨o, log, -, -, heq, -⟩ := h
    rw [hblank o] at heq
    refine ⟨o, _, heq, rfl, ?_⟩
    cases hfind : findObject keyA { w₀ with
      objects := Function.update w₀.objects o (createObject.fresh keyA Obj.zero)
      objBmp := w₀.objBmp.set o
      log := log } with
    | none =>
      rw [findObject_none keyA keyA_short.lt] at hfind
      apply absurd _ (hfind o)
      simp only [Function.update_self]
      exact createObject.fresh_name keyA keyA_short.lt _
    | some o' =>
      have hname := findObject_some keyA keyA_short.lt o' hfind
      by_cases ho : o' = o
      . rw [ho]
      . simp only [Function.update_of_ne ho] at hname
        exact absurd hname (hnone o')

theorem exists_blank (env : Env) (hr : env.Reliable)
    : ∃ (w₀ : World), objstoreInit env (World.ofDisk blankDisk) = .ok (0, w₀)
        ∧ (∀ (o : Slot), w₀.objects o = Obj.zero) ∧ Table w₀.objects := by
  obtain ⟨w₀, hinit, hmounted⟩ := objstoreInit_spec hr (World.ofDisk blankDisk)
  refine ⟨w₀, hinit, ?_, ?_⟩
  . intro o
    rw [hmounted.objects_eq]
    exact diskObj_blank o
  . rw [hmounted.objects_eq]
    exact table_blank

theorem keyA_ne_keyB : keyA.chars ≠ keyB.chars := by
  decide

theorem careful_kept_blank
    : ∃ (w₀ : World) (ls : List (Nat × Act)) (p : Clients) (o : Slot), Table w₀.objects
        ∧ Run (CarefulStep (steady true)) (Pool.start w₀ .idle) ls p ∧ (∀ (t : Nat), p.pc t = .idle)
        ∧ (1, Act.created keyA o.id) ∈ p.past ∧ findObjectId keyA p.shared = o.id := by
  obtain ⟨w₀, -, hblank, htable⟩ := exists_blank (steady true) (steady_reliable true)
  obtain ⟨o, w, hcreate, -, -⟩ := exists_lookedUp w₀ hblank
  let p₀ : Clients := Pool.start w₀ .idle
  have hstep : CarefulStep (steady true) p₀ (1, .created keyA o.id) (p₀.move 1 (.created keyA o.id) w .idle) := by
    refine ⟨Pool.Step.act (.create w₀ w keyA o.id hcreate), keyA_short, ?_⟩
    rintro key o' (hpc | hpc)
    . cases hpc
    . cases hpc
  have hrun : Run (CarefulStep (steady true)) p₀ ([] ++ [(1, .created keyA o.id)]) _ := .snoc .nil hstep
  have hidle : ∀ (t : Nat), (p₀.move 1 (.created keyA o.id) w .idle).pc t = .idle := by
    intro t
    exact congrFun (Function.update_eq_self 1 (fun _ => Pc.idle)) t
  have hkept := careful_kept (steady true) w₀ htable _ _ hrun hidle
  refine ⟨w₀, _, _, o, htable, hrun, hidle, List.mem_cons_self, ?_⟩
  refine hkept.found (1, .created keyA o.id) keyA o.id List.mem_cons_self rfl ?_ ?_
  . unfold Slot.id
    omega
  . intro l key' hl hsource
    cases List.mem_cons.mp hl with
    | inl heq =>
      rw [heq] at hsource
      cases hsource
    | inr hl => cases hl

/--
Client 0 looks up `"a"` in order to destroy it, client 1 renames it to `"b"`, client 0 goes on: `"b"` is
gone though nobody asked for it.
-/
theorem not_kept_race
    : ∃ (w₀ : World) (ls : List (Nat × Act)) (p : Clients),
        objstoreInit (steady true) (World.ofDisk blankDisk) = .ok (0, w₀)
        ∧ Run (Pool.Step (Client (steady true))) (Pool.start w₀ .idle) ls p ∧ (∀ (t : Nat), p.pc t = .idle)
        ∧ ¬ Kept p.shared p.past := by
  obtain ⟨w₀, hinit, hblank, -⟩ := exists_blank (steady true) (steady_reliable true)
  obtain ⟨o, w₁, hcreate, hobj, hfind⟩ := exists_lookedUp w₀ hblank
  have hlive : (w₁.objects o).size ≠ 0#64 := by
    rw [hobj, Function.update_self]
    simp [createObject.fresh]
  have hself : (w₁.objects o).name = keyA.chars := findObject_some keyA keyA_short.lt o hfind
  have hother : ∀ (o' : Slot), o' ≠ o → (w₁.objects o').name = [] := by
    intro o' ho
    rw [hobj, Function.update_of_ne ho, hblank]
    exact Table.zero_name
  -- the rename hits the slot that client 0 has looked up
  have hrename : ∃ (w₂ : World), renameObject keyA keyB w₁ = (o.id, w₂)
      ∧ w₂.objects = Function.update w₁.objects o (renameObject.renamed keyB (w₁.objects o)) := by
    cases renameObject_cases w₁ keyA keyB keyA_short.lt keyB_short.lt with
    | inl h =>
      obtain ⟨log, -, -, hfail⟩ := h
      cases hfail with
      | inl hdup =>
        obtain ⟨o', hname⟩ := hdup
        by_cases ho : o' = o
        . rw [ho, hself] at hname
          exact absurd hname keyA_ne_keyB
        . rw [hother o' ho] at hname
          exact absurd hname.symm keyB_short.chars_ne_nil
      | inr hnone => exact absurd hself (hnone o)
    | inr h =>
      obtain ⟨o', log, hname, -, heq, -⟩ := h
      have ho : o' = o := by
        apply Classical.byContradiction
        intro ho
        rw [hother o' ho] at hname
        exact keyA_short.chars_ne_nil hname.symm
      subst ho
      exact ⟨_, heq, rfl⟩
  obtain ⟨w₂, hrename, hobj₂⟩ := hrename
  have hrelease : release (steady true) o w₂ = .ok (.next w₂) := by
    apply release_empty
    . intro i
      rw [hobj₂, Function.update_self, hobj, Function.update_self]
      rfl
    . intro i
      rw [hobj₂, Function.update_self, hobj, Function.update_self]
      rfl
  let w₃ : World := w₂.setObj o { w₂.objects o with size := 0#64 }
  let w₄ : World := w₃.setObj o { w₃.objects o with key := Buf.zero keySize }
  let p₀ : Clients := Pool.start w₀ .idle
  let p₁ := p₀.move 1 (.created keyA o.id) w₁ .idle
  let p₂ := p₁.move 0 (.found keyA o) w₁ (.release keyA o)
  let p₃ := p₂.move 1 (.renamed keyA keyB o.id) w₂ .idle
  let p₄ := p₃.move 0 .released w₂ (.clearSize keyA o)
  let p₅ := p₄.move 0 .sizeCleared w₃ (.clearKey keyA o)
  let p₆ := p₅.move 0 .keyCleared w₄ (.markDirty keyA o)
  let p₇ := p₆.move 0 .marked (markObjDirty o w₄) .idle
  have h1 : Client (steady true) p₀.shared (p₀.pc 1) (.created keyA o.id) w₁ .idle :=
    .create w₀ w₁ keyA o.id hcreate
  have h2 : Client (steady true) p₁.shared (p₁.pc 0) (.found keyA o) w₁ (.release keyA o) :=
    .find w₁ keyA o hfind hlive
  have h3 : Client (steady true) p₂.shared (p₂.pc 1) (.renamed keyA keyB o.id) w₂ .idle := by
    have := @Client.rename (steady true) w₁ keyA keyB
    rw [hrename] at this
    exact this
  have h4 : Client (steady true) p₃.shared (p₃.pc 0) .released w₂ (.clearSize keyA o) :=
    .release w₂ w₂ keyA o hrelease
  have h5 : Client (steady true) p₄.shared (p₄.pc 0) .sizeCleared w₃ (.clearKey keyA o) :=
    .clearSize w₂ keyA o
  have h6 : Client (steady true) p₅.shared (p₅.pc 0) .keyCleared w₄ (.markDirty keyA o) :=
    .clearKey w₃ keyA o
  have h7 : Client (steady true) p₆.shared (p₆.pc 0) .marked (markObjDirty o w₄) .idle :=
    .markDirty w₄ keyA o
  have hrun : Run (Pool.Step (Client (steady true))) p₀ _ p₇ :=
    ((((((Run.snoc .nil (Pool.Step.act h1)).snoc (Pool.Step.act h2)).snoc (Pool.Step.act h3)).snoc
      (Pool.Step.act h4)).snoc (Pool.Step.act h5)).snoc (Pool.Step.act h6)).snoc (Pool.Step.act h7)
  refine ⟨w₀, _, p₇, hinit, hrun, ?_, ?_⟩
  . intro t
    by_cases ht : t = 0
    . subst ht
      rfl
    . by_cases ht1 : t = 1
      . subst ht1
        rfl
      . simp [p₇, p₆, p₅, p₄, p₃, p₂, p₁, p₀, Pool.move, Pool.start, ht, ht1]
  . intro hkept
    have hid : findObjectId keyB (markObjDirty o w₄) = o.id := by
      refine hkept.found (1, .renamed keyA keyB o.id) keyB o.id ?_ rfl ?_ ?_
      . simp [p₇, p₆, p₅, p₄, p₃, Pool.move]
      . unfold Slot.id
        omega
      . intro l key hl hsource
        have hkey : key = keyA := by
          simp only [p₇, p₆, p₅, p₄, p₃, p₂, p₁, p₀, Pool.move, Pool.start, List.mem_cons,
            List.not_mem_nil, or_false] at hl
          rcases hl with rfl | rfl | rfl | rfl | rfl | rfl | rfl
          all_goals cases hsource
          . rfl
          . rfl
        rw [hkey]
        exact keyA_ne_keyB
    have hempty : ∀ (o' : Slot), ((markObjDirty o w₄).objects o').name = [] := by
      intro o'
      by_cases ho : o' = o
      . subst ho
        simp only [markObjDirty, w₄, World.setObj, World.lock, World.unlock, World.emit,
          Function.update_self]
        rfl
      . simp only [markObjDirty, w₄, w₃, World.setObj, World.lock, World.unlock, World.emit,
          Function.update_of_ne ho, hobj₂]
        exact hother o' ho
    have hnone : findObject keyB (markObjDirty o w₄) = none := by
      rw [findObject_none keyB keyB_short.lt]
      intro o' hname
      rw [hempty o'] at hname
      exact keyB_short.chars_ne_nil hname.symm
    unfold findObjectId at hid
    rw [hnone] at hid
    unfold Slot.id at hid
    simp only [Option.elim] at hid
    omega

end destroyObject

end ObjStore
