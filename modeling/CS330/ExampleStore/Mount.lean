import CS330.ExampleStore.Contents

/-!
This module contains what an unmount and a mount of the small store do to its objects.
-/

namespace ExampleStore

open ObjStore (Block CStr Mem Env Fault blockSize)

variable {env : Env} {w w' : World} {s : Items} {item : Item} {i j : Slot}

structure OnDisk (w : World) (i : Slot) (item : Item) : Prop where
  shows : (w.obj i).Shows i item
  starts : Starts (w.disk (i + 2)) item.data

theorem OnDisk.congr (h : OnDisk w i item) (halike : Alike w w' i) : OnDisk w' i item where
  shows := by
    rw [halike.obj]
    exact h.shows
  starts := by
    rw [halike.disk]
    exact h.starts

namespace Item

variable {cached : Bool}

theorem remounted_length : (item.remounted cached).data.length = item.data.length := by
  unfold remounted
  simp only
  split
  . exact List.length_replicate
  . rfl

theorem remounted_nil (h : item.data = []) : (item.remounted cached).data = [] := by
  rw [← List.length_eq_zero_iff, remounted_length, h]
  rfl

theorem remounted_lost (hc : cached = true) (hrenamed : item.renamed = true) (htouched : item.touched = false)
    : (item.remounted cached).data = List.replicate item.data.length 0#8 := by
  simp only [remounted, hc, hrenamed, htouched, and_self, ↓reduceIte]

theorem remounted_kept (h : ¬ (cached = true ∧ item.renamed = true ∧ item.touched = false))
    : (item.remounted cached).data = item.data := by
  simp only [remounted, h, ↓reduceIte]

end Item

theorem Object.Shows.remounted {obj : Object} (h : obj.Shows i item) (cached : Bool)
    : obj.Shows i (item.remounted cached) where
  id := h.id
  key := h.key
  nul := h.nul
  size := by
    rw [Item.remounted_length]
    exact h.size
  fits := by
    rw [Item.remounted_length]
    exact h.fits
  dead := fun hdead => Item.remounted_nil (h.dead hdead)

namespace objstoreDestroy

variable (hr : env.Reliable) (h : Holds env w i item)

theorem body_idle (hidle : env.cached = false ∨ (w.obj i).id = 0#64 ∨ (w.obj i).dirty = 0#32) : body env w i = w := by
  unfold body objSync
  obtain hc | hid | hdirty := hidle
  . simp only [hc, Bool.false_eq_true, ↓reduceIte, ite_self]
  . simp only [hid, ne_eq, not_true_eq_false, ↓reduceIte]
  . have hdirty' : (w.table.objs i.index).dirty = 0#32 := hdirty
    simp only [hdirty', ↓reduceIte, ite_self]

include hr

theorem body_dirty (hc : env.cached = true) (hid : (w.obj i).id ≠ 0#64) (hdirty : (w.obj i).dirty ≠ 0#32)
    (hnat : (w.obj i).id.toNat = i + 2)
    : body env w i
        =
      { w with disk := Function.update w.disk (i + 2) (w.cache (i + 2)) }.request.setObj i.index
        { w.obj i with dirty := 0#32 } := by
  have hdirty' : (w.table.objs i.index).dirty ≠ 0#32 := hdirty
  have hnat' : (w.table.objs i.index).id.toNat = i + 2 := hnat
  unfold body objSync
  simp only [hid, hc, hdirty', hnat', ne_eq, not_false_eq_true, ↓reduceIte, writeBlock_eq hr]
  rfl

include h

theorem body_outside : Outside w (body env w i) i := by
  by_cases hidle : env.cached = false ∨ (w.obj i).id = 0#64 ∨ (w.obj i).dirty = 0#32
  . rw [body_idle hidle]
    exact Outside.refl w i
  . rw [not_or, not_or, Bool.not_eq_false] at hidle
    obtain ⟨hc, hid, hdirty⟩ := hidle
    rw [body_dirty hr hc hid hdirty (h.shows.toNat_id (h.shows.id_ne_iff.mp hid))]
    exact (Outside.setDisk w i _).trans ((Outside.request _ i).trans (Outside.setObj _ i _))

theorem body_starts (hne : item.data ≠ [])
    : Starts ((body env w i).disk (i + 2)) (item.remounted env.cached).data := by
  have hlive : item.live = true := by
    rw [← Bool.not_eq_false]
    exact fun hdead => hne (h.shows.dead hdead)
  have hid := h.shows.id_ne_iff.mpr hlive
  have hstarts := h.starts
  unfold World.block at hstarts
  cases hc : env.cached with
  | false =>
    rw [body_idle (.inl hc), Item.remounted_kept (by simp)]
    rw [hc, if_neg (by simp)] at hstarts
    exact hstarts
  | true =>
    have hline := h.line hc hne
    cases htouched : item.touched with
    | true =>
      -- the line is the newest copy, unless the disk has it as well
      rw [if_pos ⟨hc, hline.loaded.mpr htouched⟩] at hstarts
      rw [Item.remounted_kept (by simp [htouched])]
      by_cases hdirty : (w.obj i).dirty = 0#32
      . rw [body_idle (.inr (.inr hdirty))]
        exact hline.clean htouched hdirty
      . rw [body_dirty hr hc hid hdirty (h.shows.toNat_id hlive)]
        simp only [World.setObj, World.request, Function.update_self]
        exact hstarts
    | false =>
      have hunloaded : ¬ (w.obj i).Loaded := by
        rw [hline.loaded, htouched]
        simp
      rw [if_neg (fun hand => hunloaded hand.2)] at hstarts
      cases hrenamed : item.renamed with
      | true =>
        have hdirty := (hline.waiting htouched).mpr hrenamed
        rw [body_dirty hr hc hid hdirty (h.shows.toNat_id hlive), Item.remounted_lost rfl hrenamed htouched]
        simp only [World.setObj, World.request, Function.update_self, hline.empty htouched]
        exact starts_zero _
      | false =>
        have hdirty : (w.obj i).dirty = 0#32 := by
          by_contra hdirty
          rw [(hline.waiting htouched).mp hdirty] at hrenamed
          cases hrenamed
        rw [body_idle (.inr (.inr hdirty)), Item.remounted_kept (by simp [hrenamed])]
        exact hstarts

theorem body_onDisk : OnDisk (body env w i) i (item.remounted env.cached) where
  shows := by
    apply Object.Shows.remounted
    by_cases hidle : env.cached = false ∨ (w.obj i).id = 0#64 ∨ (w.obj i).dirty = 0#32
    . rw [body_idle hidle]
      exact h.shows
    . rw [not_or, not_or, Bool.not_eq_false] at hidle
      obtain ⟨hc, hid, hdirty⟩ := hidle
      rw [body_dirty hr hc hid hdirty (h.shows.toNat_id (h.shows.id_ne_iff.mp hid)), World.obj_setObj]
      obtain ⟨h1, h2, h3, h4, h5, h6⟩ := h.shows
      exact ⟨h1, h2, h3, h4, h5, h6⟩
  starts := by
    by_cases hdata : item.data = []
    . rw [Item.remounted_nil hdata]
      exact starts_nil _
    . exact body_starts hr h hdata

end objstoreDestroy

-- the objects below `k` have been written back
structure Syncing (env : Env) (s : Items) (k : Nat) (u : World) : Prop where
  done : ∀ (i : Slot), i.val < k → OnDisk u i ((s i).remounted env.cached)
  todo : ∀ (i : Slot), k ≤ i.val → Holds env u i (s i)
  unused : ∀ (n : Fin pageObjs), maxObjs ≤ n.val → (u.table.objs n).id = 0#64

theorem Syncing.step (hr : env.Reliable) (h : Syncing env s i w)
    : Syncing env s (i + 1) (objstoreDestroy.body env w i) := by
  have hi := h.todo i (Nat.le_refl _)
  have hout := objstoreDestroy.body_outside hr hi
  constructor
  . intro j hj
    by_cases heq : j = i
    . rw [heq]
      exact objstoreDestroy.body_onDisk hr hi
    . have hne := Fin.val_ne_of_ne heq
      exact (h.done j (by omega)).congr (hout.alike j heq)
  . intro j hj
    have hne : j ≠ i := by
      rintro rfl
      exact absurd hj (Nat.not_succ_le_self _)
    exact (h.todo j (by omega)).congr (hout.alike j hne)
  . intro n hn
    rw [hout.rest n hn]
    exact h.unused n hn

theorem Represents.unmount (hr : env.Reliable) (h : Represents env w s)
    : ∃ (w₁ : World), objstoreDestroy env w = (0, w₁) ∧ Table.decode (w₁.disk 0) = w₁.table
        ∧ (∀ (i : Slot), OnDisk w₁ i ((s i).remounted env.cached))
        ∧ ∀ (n : Fin pageObjs), maxObjs ≤ n.val → (w₁.table.objs n).id = 0#64 := by
  have hinit : Syncing env s 0 w := ⟨fun _ hi => absurd hi (Nat.not_lt_zero _), fun i _ => h.holds i, h.unused⟩
  obtain ⟨hdone, -, hunused⟩ := Loop.foldl_range_inv (fun i u hu => Syncing.step hr hu) w hinit
  unfold objstoreDestroy
  generalize (Loop.range maxObjs).foldl (objstoreDestroy.body env) w = w₀ at *
  let w₁ : World := { w₀ with disk := Function.update w₀.disk 0 w₀.table.encode }.request
  have hdestroy : writeBlock env 0 w₀.table.encode w₀ = (true, w₁) := writeBlock_eq hr _ _ _
  simp only [hdestroy]
  refine ⟨w₁, rfl, ?_, ?_, hunused⟩
  . simp only [w₁, World.request, Function.update_self]
    exact Table.decode_encode _
  . intro i
    apply (hdone i i.isLt).congr
    refine ⟨rfl, rfl, ?_⟩
    simp [w₁, World.request]

namespace objstoreInit

-- an object as the mount leaves it
def fresh (env : Env) (obj : Object) : Object :=
  if env.cached = true ∧ obj.id ≠ 0#64 then { obj with cacheIndex := -1#32, dirty := 0#32 } else obj

theorem body_self (t : Table) (i : Slot) : (body env t i).objs i.index = fresh env (t.objs i.index) := by
  unfold body fresh initObjectCached
  by_cases hid : (t.objs i.index).id = 0#64
  . simp only [hid, ne_eq, not_true_eq_false, and_false, ↓reduceIte]
  . cases hc : env.cached with
    | true => simp only [hid, ne_eq, not_false_eq_true, and_self, ↓reduceIte, Table.setObj_self]
    | false => simp only [Bool.false_eq_true, false_and, ↓reduceIte, ite_self]

theorem body_other (t : Table) (i : Slot) {n : Fin pageObjs} (hn : n ≠ i.index) : (body env t i).objs n = t.objs n := by
  unfold body initObjectCached
  split
  . split
    . exact Table.setObj_ne _ _ hn
    . rfl
  . rfl

-- the objects below `k` are as the mount leaves them
structure Starting (env : Env) (t : Table) (k : Nat) (u : Table) : Prop where
  done : ∀ (i : Slot), i.val < k → u.objs i.index = fresh env (t.objs i.index)
  todo : ∀ (n : Fin pageObjs), k ≤ n.val → u.objs n = t.objs n

theorem Starting.step {t u : Table} (h : Starting env t i u) : Starting env t (i + 1) (body env u i) where
  done := by
    intro j hj
    by_cases heq : j = i
    . rw [heq, body_self, h.todo i.index (Nat.le_refl _)]
    . have hne := Fin.val_ne_of_ne heq
      rw [body_other u i (Slot.index_inj.not.mpr heq)]
      exact h.done j (by omega)
  todo := by
    intro n hn
    have hne : n ≠ i.index := by
      rintro rfl
      exact absurd hn (Nat.not_succ_le_self _)
    rw [body_other u i hne]
    exact h.todo n (by omega)

theorem foldl_body (env : Env) (t : Table)
    : Starting env t maxObjs ((Loop.range maxObjs).foldl (body env) t) :=
  Loop.foldl_range_inv (fun _ _ hu => Starting.step hu) t ⟨fun _ hi => absurd hi (Nat.not_lt_zero _), fun _ _ => rfl⟩

theorem fresh_shows {obj : Object} (h : obj.Shows i item) : (fresh env obj).Shows i item := by
  obtain ⟨h1, h2, h3, h4, h5, h6⟩ := h
  unfold fresh
  split
  . exact ⟨h1, h2, h3, h4, h5, h6⟩
  . exact ⟨h1, h2, h3, h4, h5, h6⟩

end objstoreInit

theorem objstoreInit.fresh_unread {obj : Object} (h : obj.Shows i item) (hc : env.cached = true) (hne : item.data ≠ [])
    : ¬ (fresh env obj).Loaded ∧ (fresh env obj).dirty = 0#32 := by
  have hid : obj.id ≠ 0#64 := by
    rw [h.id_ne_iff, ← Bool.not_eq_false]
    exact fun hdead => hne (h.dead hdead)
  simp only [fresh, hc, hid, ne_eq, not_false_eq_true, and_self, ↓reduceIte, and_true]
  show ¬ ¬ (-1#32).toInt < 0
  decide

theorem mount (hr : env.Reliable) {disk : Nat → Block} {t : Table} (ht : Table.decode (disk 0) = t)
    (hshows : ∀ (i : Slot), (t.objs i.index).Shows i (s i)) (hstarts : ∀ (i : Slot), Starts (disk (i + 2)) (s i).data)
    (hmarks : ∀ (i : Slot), (s i).renamed = false ∧ (s i).touched = false)
    (hunused : ∀ (n : Fin pageObjs), maxObjs ≤ n.val → (t.objs n).id = 0#64)
    : ∃ (w' : World), objstoreInit env (World.ofDisk disk) = (0, w') ∧ Represents env w' s := by
  obtain ⟨hdone, htodo⟩ := objstoreInit.foldl_body env t
  unfold objstoreInit
  simp only [malloc4k_eq hr, readBlock_eq hr]
  rw [show (World.ofDisk disk).request.disk 0 = disk 0 from rfl, ht]
  generalize (Loop.range maxObjs).foldl (objstoreInit.body env) t = t' at *
  let w' : World := { (World.ofDisk disk).request.request with table := t' }
  have hobj : ∀ (i : Slot), w'.obj i = objstoreInit.fresh env (t.objs i.index) := fun i => hdone i i.isLt
  refine ⟨w', rfl, ?_, ?_⟩
  . intro i
    constructor
    . rw [hobj]
      exact objstoreInit.fresh_shows (hshows i)
    . by_cases hdata : (s i).data = []
      . rw [hdata]
        exact starts_nil _
      . have hunread : ¬ (env.cached = true ∧ (w'.obj i).Loaded) := by
          rintro ⟨hc, hloaded⟩
          rw [hobj] at hloaded
          exact (objstoreInit.fresh_unread (hshows i) hc hdata).1 hloaded
        unfold World.block
        rw [if_neg hunread]
        exact hstarts i
    . intro hc hne
      obtain ⟨hunread, hclean⟩ := objstoreInit.fresh_unread (hshows i) hc hne
      obtain ⟨hrenamed, htouched⟩ := hmarks i
      constructor
      . rw [hobj, htouched]
        simp [hunread]
      . rw [hobj, hrenamed]
        simp [hclean]
      . intro _
        rfl
      . rw [htouched]
        intro hfalse
        cases hfalse
  . intro n hn
    show (t'.objs n).id = 0#64
    rw [htodo n hn]
    exact hunused n hn

theorem Represents.remount (hr : env.Reliable) (h : Represents env w s)
    : ∃ (w₁ w' : World), objstoreDestroy env w = (0, w₁) ∧ objstoreInit env (World.ofDisk w₁.disk) = (0, w')
        ∧ Represents env w' (s.remounted env.cached) := by
  obtain ⟨w₁, hdestroy, ht, hondisk, hunused⟩ := h.unmount hr
  obtain ⟨w', hinit, hrep⟩ := mount hr ht (fun i => (hondisk i).shows) (fun i => (hondisk i).starts)
    (fun _ => ⟨rfl, rfl⟩) hunused
  exact ⟨w₁, w', hdestroy, hinit, hrep⟩

def blankDisk : Nat → Block :=
  fun _ => Buf.zero blockSize

theorem Represents.blank (hr : env.Reliable)
    : ∃ (w' : World), objstoreInit env (World.ofDisk blankDisk) = (0, w') ∧ Represents env w' Items.empty := by
  have ht : Table.decode (blankDisk 0) = Table.zero := Table.decode_zero
  apply mount hr ht
  . intro i
    refine ⟨rfl, rfl, ⟨⟨0, by decide⟩, rfl⟩, rfl, Nat.zero_le _, fun _ => rfl⟩
  . intro i
    exact starts_nil _
  . intro i
    exact ⟨rfl, rfl⟩
  . intro n _
    rfl

end ExampleStore
