import CS330.ExampleStore.Mount
import CS330.ExampleStore.Names
import CS330.ObjStore.Isolation

/-!
This module contains that the small store keeps what its callers put there, with and without the cache, and which
objects the cached build loses: those that are renamed without being read or written before the unmount.
-/

namespace ExampleStore

open ObjStore (Block CStr Mem Env Fault blockSize steady steady_reliable keyA keyB)

variable {env : Env} {w w' : World} {s s' : Items} {i j : Slot}

theorem objAt_isSome {objid : Int} (hlo : 2 ≤ objid) (hhi : objid < pageObjs + 2)
    : ∃ (n : Fin pageObjs), objAt objid = some n := by
  unfold objAt
  rw [dif_pos ⟨hlo, hhi⟩]
  exact ⟨_, rfl⟩

theorem Items.handle_lt {objid : Int} (hlt : objid < 2) : s.handle objid = none := by
  cases hhandle : s.handle objid with
  | none => rfl
  | some i =>
    obtain ⟨-, hid⟩ := handle_some hhandle
    simp only [Slot.id] at hid
    omega

namespace fillupSizeDetails

theorem toInt_eq_iff (id : BitVec 64) {n : Nat} (hn : n < pageObjs + 2) : id.toInt = (n : Int) ↔ id.toNat = n := by
  have hlt := id.isLt
  simp only [pageObjs] at hn
  rw [BitVec.toInt_eq_toNat_cond]
  split
  . omega
  . omega

-- the number of blocks, rounded up
theorem blocks_eq {n : Nat} (hn : n ≤ blockSize)
    : (if ((BitVec.ofNat 64 n).sshiftRight 9) <<< 9 ≠ BitVec.ofNat 64 n then
        (BitVec.ofNat 64 n).sshiftRight 9 + 1
      else
        (BitVec.ofNat 64 n).sshiftRight 9)
      = BitVec.ofNat 64 ((n + 511) / 512) := by
  simp only [blockSize] at hn
  have hnat : (BitVec.ofNat 64 n).toNat = n := by
    rw [BitVec.toNat_ofNat]
    omega
  have hshift : (BitVec.ofNat 64 n).sshiftRight 9 = BitVec.ofNat 64 (n / 512) := by
    have hmsb : (BitVec.ofNat 64 n).msb = false := by
      rw [BitVec.msb_eq_false_iff_two_mul_lt, hnat]
      omega
    rw [BitVec.sshiftRight_eq_of_msb_false hmsb]
    apply BitVec.eq_of_toNat_eq
    rw [BitVec.toNat_ushiftRight, hnat, BitVec.toNat_ofNat, Nat.shiftRight_eq_div_pow]
    omega
  have hback : (BitVec.ofNat 64 (n / 512)) <<< 9 ≠ BitVec.ofNat 64 n ↔ n % 512 ≠ 0 := by
    rw [Ne, ← BitVec.toNat_inj, BitVec.toNat_shiftLeft, hnat, BitVec.toNat_ofNat, Nat.shiftLeft_eq]
    omega
  rw [hshift]
  simp only [hback]
  apply BitVec.eq_of_toNat_eq
  split
  . rw [BitVec.toNat_add, show (1 : BitVec 64).toNat = 1 from rfl]
    simp only [BitVec.toNat_ofNat]
    omega
  . simp only [BitVec.toNat_ofNat]
    omega

end fillupSizeDetails

namespace Represents

theorem details_eq (h : Represents env w s) {stIno : Nat} (hlt : stIno < pageObjs + 2)
    : fillupSizeDetails stIno w = .ok (s.details stIno) := by
  unfold fillupSizeDetails Items.details
  by_cases hreserved : stIno < 2
  . rw [if_pos hreserved, Items.handle_lt (by omega)]
    rfl
  . have hlo : (2 : Int) ≤ stIno := by omega
    have hhi : (stIno : Int) < pageObjs + 2 := by omega
    obtain ⟨n, hn⟩ := objAt_isSome hlo hhi
    rw [if_neg hreserved, hn]
    have hiff := fillupSizeDetails.toInt_eq_iff (w.table.objs n).id hlt
    obtain ⟨hid, i, rfl, hhandle⟩ | ⟨hid, hhandle⟩ := h.objAt_some hn
    . obtain ⟨-, -, -, hsize, hfits, -⟩ := (h.holds i).shows
      have hsize' : (w.table.objs i.index).size = BitVec.ofNat 64 (s i).data.length := hsize
      simp only [hiff.mp hid, hsize', hhandle, Option.map_some, ne_eq, not_true_eq_false, ↓reduceIte]
      rw [← fillupSizeDetails.blocks_eq hfits]
      split
      . rfl
      . rfl
    . have hid' : (w.table.objs n).id.toNat ≠ stIno := fun heq => hid (hiff.mpr heq)
      simp only [hid', hhandle, Option.map_none, ne_eq, not_false_eq_true, ↓reduceIte]

theorem write_spec (hr : env.Reliable) (h : Represents env w s) {objid : Int} (hlo : 2 ≤ objid)
    (hhi : objid < pageObjs + 2) (buf : Mem) (size offset : Nat)
    : ∃ (w' : World), objstoreWrite env objid buf size offset w
          = .ok ((s.write objid ((List.range size).map buf)).1, w')
        ∧ Represents env w' (s.write objid ((List.range size).map buf)).2 := by
  obtain ⟨n, hn⟩ := objAt_isSome hlo hhi
  unfold objstoreWrite Items.write
  rw [hn]
  simp only [List.length_map, List.length_range]
  obtain ⟨hid, i, rfl, hhandle⟩ | ⟨hid, hhandle⟩ := h.objAt_some hn
  . simp only [hid, hhandle, ne_eq, not_true_eq_false, ↓reduceIte]
    by_cases hlong : blockSize < size
    . simp only [hlong, ↓reduceIte]
      exact ⟨w, rfl, h⟩
    . obtain ⟨w', hwrite, hrep⟩ := h.write hr (Items.handle_some hhandle).1 buf (Nat.not_lt.mp hlong)
      simp only [hlong, ↓reduceIte, hwrite]
      exact ⟨_, rfl, hrep⟩
  . simp only [hid, hhandle, ne_eq, not_false_eq_true, ↓reduceIte]
    exact ⟨w, rfl, h⟩

theorem read_spec (hr : env.Reliable) (h : Represents env w s) {objid : Int} (hhi : objid < pageObjs + 2) (buf : Mem)
    {size : Nat} (hsize : size ≤ blockSize) (offset : Nat)
    : ∃ (r : Int) (buf' : Mem) (w' : World) (s' : Items),
        objstoreRead env objid buf size offset w = .ok (r, buf', w')
        ∧ s.Reads objid size ⟨r, some buf', none⟩ s' ∧ Represents env w' s' := by
  unfold objstoreRead Items.Reads
  by_cases hlo : objid < 2
  . rw [if_pos hlo, Items.handle_lt hlo]
    exact ⟨_, _, _, s, rfl, ⟨rfl, rfl⟩, h⟩
  . obtain ⟨n, hn⟩ := objAt_isSome (Int.not_lt.mp hlo) hhi
    rw [if_neg hlo, hn]
    obtain ⟨hid, i, rfl, hhandle⟩ | ⟨hid, hhandle⟩ := h.objAt_some hn
    . obtain ⟨buf', w', hread, hrep, hbuf⟩ := h.read hr (Items.handle_some hhandle).1 buf hsize
      simp only [hid, hhandle, ne_eq, not_true_eq_false, ↓reduceIte, hread, bind, Except.bind, pure, Except.pure]
      exact ⟨_, _, _, _, rfl, ⟨rfl, rfl, buf', rfl, hbuf⟩, hrep⟩
    . simp only [hid, hhandle, ne_eq, not_false_eq_true, ↓reduceIte]
      exact ⟨_, _, _, s, rfl, ⟨rfl, rfl⟩, h⟩

theorem exec (hr : env.Reliable) (h : Represents env w s) {c : Call} (hacc : c.Accepts)
    : ∃ (r : Reply) (w' : World) (s' : Items), c.exec env w = .ok (r, w') ∧ s.Step (c, r) s'
        ∧ Represents env w' s' := by
  cases c with
  | find key => exact ⟨_, _, s, rfl, ⟨rfl, h.findObjectId_eq key⟩, h⟩
  | create key =>
    obtain ⟨w', hcreate, hrep⟩ := h.create hacc
    simp only [Call.exec, hcreate, bind, Except.bind, pure, Except.pure]
    exact ⟨_, _, _, rfl, rfl, hrep⟩
  | destroy key =>
    obtain ⟨hvalue, hrep⟩ := h.destroy key
    exact ⟨_, _, _, rfl, Prod.ext hvalue rfl, hrep⟩
  | rename key newname =>
    obtain ⟨w', hrename, hrep⟩ := h.rename key newname
    simp only [Call.exec, hrename, bind, Except.bind, pure, Except.pure]
    exact ⟨_, _, _, rfl, rfl, hrep⟩
  | write objid buf size offset =>
    obtain ⟨w', hwrite, hrep⟩ := h.write_spec hr hacc.1 hacc.2 buf size offset
    simp only [Call.exec, hwrite, bind, Except.bind, pure, Except.pure]
    exact ⟨_, _, _, rfl, rfl, hrep⟩
  | read objid buf size offset =>
    obtain ⟨r, buf', w', s', hread, hreads, hrep⟩ := h.read_spec hr hacc.1 buf hacc.2 offset
    simp only [Call.exec, hread, bind, Except.bind, pure, Except.pure]
    exact ⟨_, _, s', rfl, hreads, hrep⟩
  | stat stIno =>
    simp only [Call.exec, h.details_eq hacc, bind, Except.bind, pure, Except.pure]
    exact ⟨_, _, s, rfl, ⟨rfl, rfl, rfl⟩, h⟩

end Represents

-- no object with contents would be written back without having been read first
def World.Synced (w : World) : Prop :=
  ∀ (i : Slot), (w.obj i).id ≠ 0#64 → (w.obj i).size ≠ 0#64 → (w.obj i).dirty ≠ 0#32 → (w.obj i).Loaded

def SyncedServes (env : Env) (w : World) (turn : Turn) (w' : World) : Prop :=
  Serves env w turn w' ∧ (turn = .remount → w.Synced)

theorem Represents.synced (h : Represents env w s) (hsynced : w.Synced)
    : s.remounted env.cached = s.remounted false := by
  funext i
  have hi := h.holds i
  have hkept : (s i).data = [] ∨ ¬ (env.cached = true ∧ (s i).renamed = true ∧ (s i).touched = false) := by
    by_cases hdata : (s i).data = []
    . exact .inl hdata
    . right
      rintro ⟨hc, hrenamed, htouched⟩
      have hline := hi.line hc hdata
      have hid : (w.obj i).id ≠ 0#64 := by
        rw [hi.shows.id_ne_iff, ← Bool.not_eq_false]
        exact fun hdead => hdata (hi.shows.dead hdead)
      have hsize : (w.obj i).size ≠ 0#64 := by
        have hfits := hi.shows.fits
        have hpos := List.length_pos_iff.mpr hdata
        simp only [blockSize] at hfits
        rw [hi.shows.size, Ne, ← BitVec.toNat_inj, BitVec.toNat_ofNat, BitVec.toNat_ofNat]
        omega
      have hloaded := hsynced i hid hsize ((hline.waiting htouched).mpr hrenamed)
      rw [hline.loaded, htouched] at hloaded
      cases hloaded
  have hdata : ((s i).remounted env.cached).data = ((s i).remounted false).data := by
    obtain hnil | hkept := hkept
    . rw [Item.remounted_nil hnil, Item.remounted_nil hnil]
    . rw [Item.remounted_kept hkept, Item.remounted_kept (by simp)]
  exact congrArg (fun data => { s i with data := data, renamed := false, touched := false }) hdata

theorem Represents.turn (hr : env.Reliable) (h : Represents env w s) {turn : Turn} (hserves : Serves env w turn w')
    : ∃ (s' : Items), s.Turn env.cached turn s' ∧ Represents env w' s' := by
  cases turn with
  | call c r =>
    obtain ⟨hacc, hexec⟩ := hserves
    obtain ⟨r', u, s', heq, hstep, hrep⟩ := h.exec hr hacc
    rw [hexec] at heq
    cases heq
    exact ⟨s', hstep, hrep⟩
  | remount =>
    obtain ⟨w₁, hdestroy, hinit⟩ := hserves
    obtain ⟨u₁, u, hdestroy', hinit', hrep⟩ := h.remount hr
    rw [hdestroy] at hdestroy'
    cases hdestroy'
    rw [hinit] at hinit'
    cases hinit'
    exact ⟨_, rfl, hrep⟩

theorem Represents.turn_synced (hr : env.Reliable) (h : Represents env w s) {turn : Turn}
    (hserves : SyncedServes env w turn w')
    : ∃ (s' : Items), s.Turn false turn s' ∧ Represents env w' s' := by
  obtain ⟨s', hturn, hrep⟩ := h.turn hr hserves.1
  cases turn with
  | call c r => exact ⟨s', hturn, hrep⟩
  | remount =>
    refine ⟨s', ?_, hrep⟩
    rw [show s' = s.remounted env.cached from hturn]
    exact h.synced (hserves.2 rfl)

theorem run_contents (hr : env.Reliable) {w₀ : World} {turns : List Turn}
    (hinit : objstoreInit env (World.ofDisk blankDisk) = (0, w₀)) (hrun : Run (Serves env) w₀ turns w)
    : (∃ (s : Items), Run (Items.Turn env.cached) Items.empty turns s)
      ∧ (Run (SyncedServes env) w₀ turns w → ∃ (s : Items), Run (Items.Turn false) Items.empty turns s)
      ∧ ∀ (c : Call), c.Accepts → ∃ (r : Reply) (w' : World), c.exec env w = .ok (r, w') := by
  obtain ⟨u, hinit', hblank⟩ := Represents.blank hr
  rw [hinit] at hinit'
  cases hinit'
  obtain ⟨s, hrun', hrep⟩ := hrun.sim (fun _ _ _ _ h hserves => h.turn hr hserves) hblank
  refine ⟨⟨s, hrun'⟩, ?_, ?_⟩
  . intro hsynced
    obtain ⟨s', hrun'', -⟩ := hsynced.sim (fun _ _ _ _ h hserves => h.turn_synced hr hserves) hblank
    exact ⟨s', hrun''⟩
  . intro c hacc
    obtain ⟨r, w', s', hexec, -⟩ := hrep.exec hr hacc
    exact ⟨r, w', hexec⟩

theorem serves_call {c : Call} {r : Reply} (hacc : c.Accepts) (hexec : c.exec env w = .ok (r, w'))
    : Serves env w (.call c r) w' :=
  ⟨hacc, hexec⟩

theorem remount_returns (hr : env.Reliable) (w : World) : ∃ (w' : World), Serves env w .remount w' := by
  obtain ⟨w₁, hdestroy⟩ : ∃ (w₁ : World), objstoreDestroy env w = (0, w₁) := by
    simp only [objstoreDestroy, writeBlock_eq hr]
    exact ⟨_, rfl⟩
  obtain ⟨w', hinit⟩ : ∃ (w' : World), objstoreInit env (World.ofDisk w₁.disk) = (0, w') := by
    simp only [objstoreInit, malloc4k_eq hr, readBlock_eq hr]
    exact ⟨_, rfl⟩
  exact ⟨w', w₁, hdestroy, hinit⟩

def sevens : Mem :=
  fun _ => 7#8

-- `"a"` is created and written, and after a mount renamed to `"b"`
def created : Items :=
  (Items.empty.create keyA.chars).2

def written : Items :=
  (created.write 2 ((List.range 5).map sevens)).2

def renamed : Items :=
  ((written.remounted true).rename keyA.chars keyB.chars).2

def lost : Items :=
  renamed.remounted true

theorem lost_handle : lost.handle 2 = some ⟨0, by decide⟩ := by
  decide

theorem lost_data : (lost ⟨0, by decide⟩).data = List.replicate 5 0#8 := by
  decide

theorem run_contents_lost
    : ∃ (w₀ w : World) (r₁ r₂ r₃ r₄ : Reply) (buf : Mem),
        objstoreInit (steady true) (World.ofDisk blankDisk) = (0, w₀)
        ∧ Run (Serves (steady true)) w₀
          [.call (.create keyA) r₁, .call (.write 2 sevens 5 0) r₂, .remount, .call (.rename keyA keyB) r₃, .remount,
            .call (.read 2 sevens 5 0) r₄] w
        ∧ r₁.value = 2 ∧ r₂.value = 5 ∧ r₃.value = 0 ∧ r₄.value = 5
        ∧ r₄.buf = some buf ∧ ∀ (k : Nat), k < 5 → buf k = 0#8 := by
  have hr := steady_reliable true
  obtain ⟨w₀, hinit, -⟩ := Represents.blank hr
  have hcreate : (Call.create keyA).Accepts := by decide
  have hwrite : (Call.write 2 sevens 5 0).Accepts := by decide
  have hrename : (Call.rename keyA keyB).Accepts := trivial
  have hread : (Call.read 2 sevens 5 0).Accepts := by decide
  obtain ⟨r₁, w₁, hexec₁⟩ := (run_contents hr hinit .nil).2.2 _ hcreate
  have hrun := Run.nil.snoc (serves_call hcreate hexec₁)
  obtain ⟨r₂, w₂, hexec₂⟩ := (run_contents hr hinit hrun).2.2 _ hwrite
  obtain ⟨w₃, hserves₃⟩ := remount_returns hr w₂
  have hrun := (hrun.snoc (serves_call hwrite hexec₂)).snoc hserves₃
  obtain ⟨r₃, w₄, hexec₃⟩ := (run_contents hr hinit hrun).2.2 _ hrename
  obtain ⟨w₅, hserves₅⟩ := remount_returns hr w₄
  have hrun := (hrun.snoc (serves_call hrename hexec₃)).snoc hserves₅
  obtain ⟨r₄, w₆, hexec₄⟩ := (run_contents hr hinit hrun).2.2 _ hread
  have hrun := hrun.snoc (serves_call hread hexec₄)
  obtain ⟨⟨s, hitems⟩, -⟩ := run_contents hr hinit hrun
  obtain ⟨s₁, hstep₁, hitems⟩ := hitems.of_cons
  obtain ⟨s₂, hstep₂, hitems⟩ := hitems.of_cons
  obtain ⟨s₃, rfl, hitems⟩ := hitems.of_cons
  obtain ⟨s₄, hstep₄, hitems⟩ := hitems.of_cons
  obtain ⟨s₅, rfl, hitems⟩ := hitems.of_cons
  obtain ⟨s₆, hstep₆, -⟩ := hitems.of_cons
  obtain ⟨hvalue₁, rfl⟩ : r₁.value = 2 ∧ s₁ = created := Prod.ext_iff.mp hstep₁
  obtain ⟨hvalue₂, rfl⟩ : r₂.value = 5 ∧ s₂ = written := Prod.ext_iff.mp hstep₂
  obtain ⟨hvalue₃, rfl⟩ : r₃.value = 0 ∧ s₄ = renamed := Prod.ext_iff.mp hstep₄
  have hreads : lost.Reads 2 5 r₄ s₆ := hstep₆
  unfold Items.Reads at hreads
  rw [lost_handle] at hreads
  obtain ⟨hvalue₄, -, buf, hbuf, hzero⟩ := hreads
  refine ⟨w₀, w₆, r₁, r₂, r₃, r₄, buf, hinit, hrun, hvalue₁, hvalue₂, hvalue₃, hvalue₄, hbuf, ?_⟩
  intro k hk
  have hget := hzero k hk (by rw [lost_data]; simpa using hk)
  rw [lost_data, List.getElem?_replicate, if_pos hk] at hget
  exact (Option.some.inj hget).symm

end ExampleStore
