import CS330.ExampleStore.Lemmas
import CS330.ExampleStore.Run

/-!
This module contains what the table, the cache and the disk of the small store say of the places that a caller
sees, and that reads and writes of an object keep it so.
-/

namespace ExampleStore

open ObjStore (Block CStr Mem Env Fault blockSize)

variable {env : Env} {w w' : World} {s : Items} {item : Item} {i j : Slot}

-- what is said of an object by the table
structure Object.Shows (obj : Object) (i : Slot) (item : Item) : Prop where
  id : obj.id = if item.live then BitVec.ofNat 64 (i + 2) else 0#64
  key : obj.key.cstr = item.key
  nul : ∃ (k : Fin keySize), obj.key k = 0#8
  size : obj.size = BitVec.ofNat 64 item.data.length
  fits : item.data.length ≤ blockSize
  dead : item.live = false → item.data = []

def Object.Loaded (obj : Object) : Prop :=
  ¬ obj.cacheIndex.toInt < 0

instance (obj : Object) : Decidable obj.Loaded :=
  inferInstanceAs (Decidable (¬ _))

def World.block (env : Env) (w : World) (i : Slot) : Block :=
  if env.cached = true ∧ (w.obj i).Loaded then w.cache (i + 2) else w.disk (i + 2)

def Starts (b : Block) (data : List Byte) : Prop :=
  ∀ (k : Nat), k < data.length → data[k]? = some (b.get k)

-- what the cache and its marks have to do with the disk
structure Line (w : World) (i : Slot) (item : Item) : Prop where
  loaded : (w.obj i).Loaded ↔ item.touched = true
  waiting : item.touched = false → ((w.obj i).dirty ≠ 0#32 ↔ item.renamed = true)
  empty : item.touched = false → w.cache (i + 2) = Buf.zero blockSize
  clean : item.touched = true → (w.obj i).dirty = 0#32 → Starts (w.disk (i + 2)) item.data

structure Holds (env : Env) (w : World) (i : Slot) (item : Item) : Prop where
  shows : (w.obj i).Shows i item
  starts : Starts (w.block env i) item.data
  line : env.cached = true → item.data ≠ [] → Line w i item

structure Represents (env : Env) (w : World) (s : Items) : Prop where
  holds : ∀ (i : Slot), Holds env w i (s i)
  unused : ∀ (j : Fin pageObjs), maxObjs ≤ j.val → (w.table.objs j).id = 0#64

-- the two worlds look the same to an object
structure Alike (w w' : World) (i : Slot) : Prop where
  obj : w'.obj i = w.obj i
  cache : w'.cache (i + 2) = w.cache (i + 2)
  disk : w'.disk (i + 2) = w.disk (i + 2)

-- nothing but the object itself may have changed
structure Outside (w w' : World) (i : Slot) : Prop where
  alike : ∀ (j : Slot), j ≠ i → Alike w w' j
  rest : ∀ (n : Fin pageObjs), maxObjs ≤ n.val → (w'.table.objs n).id = (w.table.objs n).id

theorem starts_nil (b : Block) : Starts b [] := by
  intro k hk
  cases hk

theorem starts_copy (b : Block) (buf : Mem) {size : Nat} (hsize : size ≤ blockSize)
    : Starts (b.copy 0 buf size) ((List.range size).map buf) := by
  intro k hk
  rw [List.length_map, List.length_range] at hk
  rw [Buf.get_lt _ _ (by omega), Buf.copy_in _ _ _ _ _ ⟨by omega, by simpa using hk⟩]
  simp [hk]

theorem starts_zero (n : Nat) : Starts (Buf.zero blockSize) (List.replicate n 0#8) := by
  intro k hk
  rw [List.length_replicate] at hk
  simp [hk]

theorem Holds.congr (h : Holds env w i item) (halike : Alike w w' i) : Holds env w' i item where
  shows := by
    rw [halike.obj]
    exact h.shows
  starts := by
    unfold World.block
    rw [halike.obj, halike.cache, halike.disk]
    exact h.starts
  line := by
    intro hc hne
    obtain ⟨hloaded, hwaiting, hempty, hclean⟩ := h.line hc hne
    constructor
    . rw [halike.obj]
      exact hloaded
    . rw [halike.obj]
      exact hwaiting
    . rw [halike.cache]
      exact hempty
    . rw [halike.obj, halike.disk]
      exact hclean

namespace Outside

theorem refl (w : World) (i : Slot) : Outside w w i where
  alike := fun _ _ => ⟨rfl, rfl, rfl⟩
  rest := fun _ _ => rfl

theorem trans {w₁ w₂ w₃ : World} (h : Outside w₁ w₂ i) (h' : Outside w₂ w₃ i) : Outside w₁ w₃ i where
  alike := by
    intro j hj
    obtain ⟨hobj, hcache, hdisk⟩ := h.alike j hj
    obtain ⟨hobj', hcache', hdisk'⟩ := h'.alike j hj
    exact ⟨hobj'.trans hobj, hcache'.trans hcache, hdisk'.trans hdisk⟩
  rest := fun n hn => (h'.rest n hn).trans (h.rest n hn)

theorem setObj (w : World) (i : Slot) (obj : Object) : Outside w (w.setObj i.index obj) i where
  alike := by
    intro j hj
    refine ⟨Table.setObj_ne _ _ ?_, rfl, rfl⟩
    rw [Ne, Slot.index_inj]
    exact hj
  rest := by
    intro n hn
    have hne : n ≠ i.index := by
      rintro rfl
      exact absurd i.isLt (Nat.not_lt.mpr hn)
    rw [World.setObj, Table.setObj_ne _ _ hne]

theorem setCache (w : World) (i : Slot) (b : Block)
    : Outside w { w with cache := Function.update w.cache (i + 2) b } i where
  alike := by
    intro j hj
    refine ⟨rfl, Function.update_of_ne ?_ _ _, rfl⟩
    intro heq
    exact hj (Fin.ext (by omega))
  rest := fun _ _ => rfl

theorem setDisk (w : World) (i : Slot) (b : Block)
    : Outside w { w with disk := Function.update w.disk (i + 2) b } i where
  alike := by
    intro j hj
    refine ⟨rfl, rfl, Function.update_of_ne ?_ _ _⟩
    intro heq
    exact hj (Fin.ext (by omega))
  rest := fun _ _ => rfl

theorem request (w : World) (i : Slot) : Outside w w.request i where
  alike := fun _ _ => ⟨rfl, rfl, rfl⟩
  rest := fun _ _ => rfl

end Outside

theorem Represents.update (h : Represents env w s) (hi : Holds env w' i item) (hout : Outside w w' i)
    : Represents env w' (Function.update s i item) where
  holds := by
    intro j
    by_cases hj : j = i
    . rw [hj, Function.update_self]
      exact hi
    . rw [Function.update_of_ne hj]
      exact (h.holds j).congr (hout.alike j hj)
  unused := by
    intro n hn
    rw [hout.rest n hn]
    exact h.unused n hn

theorem objAt_id (i : Slot) : objAt i.id = some i.index := by
  have hi : i.val < 16 := i.isLt
  have h : 2 ≤ i.id ∧ i.id < pageObjs + 2 := by
    simp only [Slot.id, pageObjs]
    omega
  rw [objAt, dif_pos h]
  simp [Slot.index, Slot.id, Fin.ext_iff]

namespace Object.Shows

variable {obj : Object}

theorem toNat_id (h : obj.Shows i item) (hlive : item.live = true) : obj.id.toNat = i + 2 := by
  have hi : i.val < 16 := i.isLt
  rw [h.id, hlive, if_pos rfl, BitVec.toNat_ofNat]
  omega

theorem toInt_id (h : obj.Shows i item) (hlive : item.live = true) : obj.id.toInt = i.id := by
  have hi : i.val < 16 := i.isLt
  have hnat := h.toNat_id hlive
  rw [BitVec.toInt_eq_toNat_of_lt (by omega), hnat]
  simp [Slot.id]

theorem id_ne_iff (h : obj.Shows i item) : obj.id ≠ 0#64 ↔ item.live = true := by
  cases hlive : item.live with
  | false =>
    rw [h.id, hlive]
    simp
  | true =>
    have hnat := h.toNat_id hlive
    simp only [iff_true]
    intro hzero
    rw [hzero] at hnat
    simp at hnat

theorem written {obj' : Object} {size : Nat} (h : obj.Shows i item) (hlive : item.live = true) (buf : Mem)
    (hfits : size ≤ blockSize) (hid : obj'.id = obj.id) (hkey : obj'.key = obj.key)
    (hsize : obj'.size = BitVec.ofNat 64 size)
    : obj'.Shows i { item with data := (List.range size).map buf, touched := true } where
  id := hid.trans h.id
  key := by
    rw [hkey]
    exact h.key
  nul := by
    rw [hkey]
    exact h.nul
  size := by
    rw [hsize, List.length_map, List.length_range]
  fits := by
    rw [List.length_map, List.length_range]
    exact hfits
  dead := by
    intro hdead
    rw [hlive] at hdead
    cases hdead

end Object.Shows

namespace Items

theorem find_some {k : List Byte} (h : s.find k = some i) : (s i).live = true ∧ (s i).key = k := by
  obtain ⟨hi, -⟩ := (Loop.find?_range _ i).mp h
  simpa [hasKey] using hi

theorem handle_some {objid : Int} (h : s.handle objid = some i) : (s i).live = true ∧ i.id = objid := by
  obtain ⟨hi, -⟩ := (Loop.find?_range _ i).mp h
  simpa using hi

theorem handle_id (h : (s i).live = true) : s.handle i.id = some i := by
  apply (Loop.find?_range _ i).mpr
  constructor
  . simp [h]
  . intro j hj
    have hne : Slot.id j ≠ i.id := by
      unfold Slot.id
      omega
    simp [hne]

end Items

namespace Represents

theorem hasKey_eq (h : Represents env w s) (key : CStr) : w.table.hasKey key = s.hasKey key.chars := by
  funext i
  have hshows := (h.holds i).shows
  have hkey : key.strcmp (w.obj i).key.get = decide ((s i).key = key.chars) := by
    rw [Bool.eq_iff_iff, ← cstr_eq_iff _ hshows.nul, hshows.key, decide_eq_true_iff]
  have hid : decide ((w.obj i).id ≠ 0#64) = (s i).live := by
    rw [Bool.eq_iff_iff, decide_eq_true_iff]
    exact hshows.id_ne_iff
  unfold Table.hasKey Items.hasKey
  rw [← hid, ← hkey]
  rfl

theorem findObject_eq (h : Represents env w s) (key : CStr) : findObject key w = s.find key.chars := by
  unfold findObject Items.find
  rw [h.hasKey_eq]

theorem findObjectId_eq (h : Represents env w s) (key : CStr)
    : findObjectId key w = (s.find key.chars).elim (-1) Slot.id := by
  unfold findObjectId
  rw [h.findObject_eq]
  cases hfind : s.find key.chars with
  | none => rfl
  | some i => exact (h.holds i).shows.toInt_id (Items.find_some hfind).1

-- what an id is compared with
theorem objAt_some (h : Represents env w s) {objid : Int} {n : Fin pageObjs} (hn : objAt objid = some n)
    : (w.table.objs n).id.toInt = objid ∧ (∃ (i : Slot), n = i.index ∧ s.handle objid = some i)
      ∨ (w.table.objs n).id.toInt ≠ objid ∧ s.handle objid = none := by
  unfold objAt at hn
  split at hn
  . next hrange =>
    obtain rfl := Option.some.inj hn
    cases hhandle : s.handle objid with
    | some i =>
      obtain ⟨hlive, rfl⟩ := Items.handle_some hhandle
      have hindex := objAt_id i
      rw [objAt, dif_pos hrange] at hindex
      rw [Option.some.inj hindex]
      exact .inl ⟨(h.holds i).shows.toInt_id hlive, i, rfl, rfl⟩
    | none =>
      refine .inr ⟨?_, rfl⟩
      intro hid
      by_cases hlt : (objid - 2).toNat < maxObjs
      . let i : Slot := ⟨(objid - 2).toNat, hlt⟩
        have hi : i.id = objid := by
          simp only [i, Slot.id]
          omega
        have hne : (w.obj i).id ≠ 0#64 := by
          intro hzero
          have hzero' : (w.table.objs ⟨(objid - 2).toNat, by omega⟩).id = 0#64 := hzero
          rw [hzero'] at hid
          simp at hid
          omega
        have hsome := Items.handle_id ((h.holds i).shows.id_ne_iff.mp hne)
        rw [hi, hhandle] at hsome
        cases hsome
      . have hzero := h.unused ⟨(objid - 2).toNat, by omega⟩ (Nat.le_of_not_lt hlt)
        rw [hzero] at hid
        simp at hid
        omega
  . cases hn

end Represents

@[simp]
theorem World.obj_setObj (w : World) (i : Slot) (obj : Object) : (w.setObj i.index obj).obj i = obj := by
  simp [World.setObj, World.obj]

theorem Holds.uncached (hc : env.cached = false) (hshows : (w.obj i).Shows i item)
    (hstarts : Starts (w.disk (i + 2)) item.data)
    : Holds env w i item where
  shows := hshows
  starts := by
    unfold World.block
    rw [hc, if_neg (by simp)]
    exact hstarts
  line := by
    rw [hc]
    intro hcached
    cases hcached

-- The mark says nothing about an object without contents.
theorem Holds.touched (h : Holds env w i item) (hloaded : env.cached = true → (w.obj i).Loaded)
    : Holds env w i { item with touched := true } where
  shows := ⟨h.shows.id, h.shows.key, h.shows.nul, h.shows.size, h.shows.fits, h.shows.dead⟩
  starts := h.starts
  line := by
    intro hc hne
    have hline := h.line hc hne
    rw [← hline.loaded.mp (hloaded hc)]
    exact hline

namespace Represents

variable (hr : env.Reliable) (h : Represents env w s) (hlive : (s i).live = true)

include hr h hlive

theorem load (hc : env.cached = true)
    : ∃ (w' : World), load env i.index w = (true, w') ∧ (w'.obj i).Loaded
        ∧ Represents env w' (Function.update s i { s i with touched := true }) := by
  have hi := h.holds i
  have hid : (w.table.objs i.index).id.toNat = i + 2 := hi.shows.toNat_id hlive
  by_cases hneg : (w.table.objs i.index).cacheIndex.toInt < 0
  . let w₁ : World := { w.request with cache := Function.update w.cache (i + 2) (w.disk (i + 2)) }
    let obj : Object := { w.obj i with cacheIndex := (w.obj i).id.setWidth 32 }
    have hload : ExampleStore.load env i.index w = (true, w₁.setObj i.index obj) := by
      simp only [ExampleStore.load, hneg, ↓reduceIte, readBlock_eq hr, hid]
      rfl
    have hloaded : obj.Loaded := by
      have hlt : i.val < 16 := i.isLt
      have hnat : (obj.cacheIndex).toNat = i + 2 := by
        simp only [obj, BitVec.toNat_setWidth]
        rw [show (w.obj i).id.toNat = i + 2 from hid]
        omega
      unfold Object.Loaded
      rw [BitVec.toInt_eq_toNat_of_lt (by omega), hnat]
      omega
    have hunloaded : ¬ (w.obj i).Loaded := fun hl => hl hneg
    have hstarts : Starts (w.disk (i + 2)) (s i).data := by
      have hstarts := hi.starts
      unfold World.block at hstarts
      rw [if_neg (fun hand => hunloaded hand.2)] at hstarts
      exact hstarts
    refine ⟨_, hload, by rw [World.obj_setObj]; exact hloaded, h.update ?_ ?_⟩
    . constructor
      . rw [World.obj_setObj]
        obtain ⟨h1, h2, h3, h4, h5, h6⟩ := hi.shows
        exact ⟨h1, h2, h3, h4, h5, h6⟩
      . unfold World.block
        rw [World.obj_setObj, if_pos ⟨hc, hloaded⟩]
        simp only [World.setObj, w₁, Function.update_self]
        exact hstarts
      . intro _ _
        constructor
        . rw [World.obj_setObj]
          simp [hloaded]
        . intro hfalse
          cases hfalse
        . intro hfalse
          cases hfalse
        . intro _ _
          exact hstarts
    . exact (Outside.request w i).trans ((Outside.setCache w.request i _).trans (Outside.setObj _ i obj))
  . have hload : ExampleStore.load env i.index w = (true, w) := by
      simp only [ExampleStore.load, hneg, ↓reduceIte]
    exact ⟨w, hload, hneg, h.update (hi.touched (fun _ => hneg)) (Outside.refl w i)⟩

theorem read (buf : Mem) {size : Nat} (hsize : size ≤ blockSize)
    : ∃ (buf' : Mem) (w' : World), findReadCached env i.index buf size w = .ok (true, buf', w')
        ∧ Represents env w' (Function.update s i { s i with touched := true })
        ∧ ∀ (k : Nat), k < size → k < (s i).data.length → (s i).data[k]? = some (buf' k) := by
  have hi := h.holds i
  have hid : (w.table.objs i.index).id.toNat = i + 2 := hi.shows.toNat_id hlive
  cases hc : env.cached with
  | true =>
    obtain ⟨w', hload, hloaded, hrep⟩ := h.load hr hlive hc
    have hread : findReadCached env i.index buf size w
        = .ok (true, copied buf (fun k => (w'.cache (i + 2 + k / blockSize)).get (k % blockSize)) size, w') := by
      simp only [findReadCached, hc, ↓reduceIte, hload, hid]
    refine ⟨_, w', hread, hrep, ?_⟩
    intro k hk hlen
    have hstarts := (hrep.holds i).starts
    rw [Function.update_self] at hstarts
    unfold World.block at hstarts
    rw [if_pos ⟨hc, hloaded⟩] at hstarts
    rw [hstarts k hlen]
    have hlt : k < blockSize := by omega
    simp only [copied, hk, ↓reduceIte, Nat.div_eq_of_lt hlt, Nat.mod_eq_of_lt hlt, Nat.add_zero]
  | false =>
    have hread : findReadCached env i.index buf size w
        = .ok (true, copied buf (w.disk (i + 2)).get size, w.request.request) := by
      simp only [findReadCached, hc, Bool.false_eq_true, ↓reduceIte, malloc4k_eq hr, readBlock_eq hr, hsize, hid]
      rfl
    refine ⟨_, _, hread, ?_, ?_⟩
    . apply h.update _ ((Outside.request w i).trans (Outside.request _ i))
      have hi' : Holds env w.request.request i (s i) := hi.congr ⟨rfl, rfl, rfl⟩
      apply hi'.touched
      rw [hc]
      intro hcached
      cases hcached
    . intro k hk hlen
      have hstarts := hi.starts
      unfold World.block at hstarts
      rw [hc, if_neg (by simp)] at hstarts
      rw [hstarts k hlen]
      simp only [copied, hk, ↓reduceIte]

theorem write (buf : Mem) {size : Nat} (hsize : size ≤ blockSize)
    : ∃ (w' : World), findWriteCached env i.index buf size w = (true, w')
        ∧ Represents env (w'.setObj i.index { w'.table.objs i.index with size := BitVec.ofNat 64 size })
          (Function.update s i { s i with data := (List.range size).map buf, touched := true }) := by
  have hi := h.holds i
  have hid : (w.table.objs i.index).id.toNat = i + 2 := hi.shows.toNat_id hlive
  cases hc : env.cached with
  | true =>
    obtain ⟨w₁, hload, hloaded, hrep⟩ := h.load hr hlive hc
    let line : Block := (w₁.cache (i + 2)).copy 0 buf size
    let w₂ : World := { w₁ with cache := Function.update w₁.cache (i + 2) line }
    let w₃ : World := w₂.setObj i.index { w₁.obj i with dirty := 1#32 }
    have hwrite : findWriteCached env i.index buf size w = (true, w₃) := by
      simp only [findWriteCached, hc, ↓reduceIte, hload, hid]
      rfl
    let obj : Object := { w₃.obj i with size := BitVec.ofNat 64 size }
    have hshows : obj.Shows i { s i with data := (List.range size).map buf, touched := true } := by
      have hshows := (hrep.holds i).shows
      rw [Function.update_self] at hshows
      apply hshows.written hlive buf hsize
      . simp only [obj, w₃, World.obj_setObj]
      . simp only [obj, w₃, World.obj_setObj]
      . rfl
    have hloaded' : obj.Loaded := by
      unfold Object.Loaded
      simp only [obj, w₃, World.obj_setObj]
      exact hloaded
    have hout : Outside w₁ (w₃.setObj i.index obj) i :=
      (Outside.setCache w₁ i line).trans ((Outside.setObj w₂ i _).trans (Outside.setObj w₃ i obj))
    refine ⟨w₃, hwrite, ?_⟩
    rw [← Function.update_idem (f := s) (a := i) { s i with touched := true }]
    apply hrep.update _ hout
    constructor
    . rw [World.obj_setObj]
      exact hshows
    . unfold World.block
      rw [World.obj_setObj, if_pos ⟨hc, hloaded'⟩]
      simp only [World.setObj, w₃, w₂, Function.update_self]
      exact starts_copy _ _ hsize
    . intro _ _
      constructor
      . rw [World.obj_setObj]
        simp [hloaded']
      . intro hfalse
        cases hfalse
      . intro hfalse
        cases hfalse
      . intro _ hdirty
        simp only [World.obj_setObj, obj, w₃] at hdirty
        cases hdirty
  | false =>
    let line : Block := (Buf.zero blockSize).copy 0 buf size
    let w₁ : World := { w.request with disk := Function.update w.disk (i + 2) line }.request
    have hwrite : findWriteCached env i.index buf size w = (true, w₁) := by
      simp only [findWriteCached, hc, Bool.false_eq_true, ↓reduceIte, malloc4k_eq hr, writeBlock_eq hr, hid]
      rfl
    refine ⟨w₁, hwrite, h.update (Holds.uncached hc ?_ ?_) ?_⟩
    . rw [World.obj_setObj]
      exact hi.shows.written hlive buf hsize rfl rfl rfl
    . simp only [World.setObj, w₁, World.request, Function.update_self]
      exact starts_copy _ _ hsize
    . exact (Outside.request w i).trans ((Outside.setDisk w.request i line).trans
        ((Outside.request _ i).trans (Outside.setObj w₁ i _)))

end Represents

end ExampleStore
