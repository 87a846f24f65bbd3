import CS330.ObjStore.Lemmas.Places
import CS330.ObjStore.Space

/-!
This module contains objects that are written in whole blocks, in any order and with any holes. The reader
leaves a loop at the first hole without counting the blocks behind it, so that what the next loop finds is
delivered too early and what no loop finds is lost.
-/

namespace ObjStore

open View

-- Byte `q` of a block; a block that is not there counts as zeros.
def byteOf (blk : Option Block) (q : Nat) : Byte :=
  match blk with
  | some blk => blk.get q
  | none => 0#8

def Blank (blk : Option Block) : Prop :=
  ∀ (q : Nat), q < 4096 → byteOf blk q = 0#8

def overlay (content : Nat → Option Block) (buf : Mem) (n offset : Nat) : Nat → Option Block :=
  fun t =>
    if offset ≤ 4096 * t ∧ 4096 * t < offset + n then
      some (fun q => buf (4096 * t + q - offset))
    else
      content t

/--
The worlds in which the object in slot `o` has been created and then written in whole blocks, with any
operations on other objects in between; `content` is what was written to each block.
-/
inductive Sparse (env : Env) (disk : BlockNo → Block) (o : Slot) : World → (Nat → Option Block) → Prop where
  | created {w₀ w w' : World} {calls : List (Op × Reply)} {key : CStr}
      (hmount : objstoreInit env (World.ofDisk disk) = .ok (0, w₀)) (hrun : Run (RoomyStep env) w₀ calls w)
      (hstep : RoomyStep env w (.create key, ⟨o.id, none⟩) w')
      : Sparse env disk o w' (fun _ => none)
  | wrote {w w' : World} {content : Nat → Option Block} {r : Reply} (h : Sparse env disk o w content)
      (buf : Mem) (n offset : Nat) (haligned : offset % blockSize = 0) (hn : n % blockSize = 0)
      (hmax : offset + n ≤ maxSize) (hstep : RoomyStep env w (.write o.id buf n offset, r) w')
      : Sparse env disk o w' (overlay content buf n offset)
  | other {w w' : World} {content : Nat → Option Block} {op : Op} {r : Reply}
      (h : Sparse env disk o w content) (hstep : RoomyStep env w (op, r) w') (hspares : op.Spares w o)
      : Sparse env disk o w' content

structure View.Holds (v : View) (o : Slot) (content : Nat → Option Block) : Prop where
  cell_eq : ∀ (t : Nat), t < 4100 → v.cell (dataRef o t) = content t
  beyond : ∀ (t : Nat), 4100 ≤ t → content t = none

/-- Reads from `offset` on deliver what was written, and zeros for the blocks that were not. -/
def ReadsHoles (env : Env) (w : World) (o : Slot) (content : Nat → Option Block) (offset : Nat) : Prop :=
  ∀ (buf : Mem) (n : Nat), n ≤ maxSize
    → ∃ (buf' : Mem) (u : World), objstoreRead env o.id buf n offset w = .ok (n, buf', u)
        ∧ ∀ (p : Nat), p < n → buf' p = byteOf (content ((offset + p) / 4096)) ((offset + p) % 4096)

/--
No block with anything but zeros comes after a hole. Where the number of the first block is too big for its
32 bits, the blocks that are read instead are hidden behind holes or are zeros.
-/
def Unhidden (content : Nat → Option Block) (offset : Nat) : Prop :=
  if startBlock offset = offset / 4096 then
    ∀ (k t : Nat), offset / 4096 ≤ k → k < t → content k = none → Blank (content t)
  else
    ∀ (t : Nat), startBlock offset ≤ t
      → (∃ (k : Nat), startBlock offset ≤ k ∧ loopStart t ≤ k ∧ k ≤ t ∧ content k = none)
        ∨ Blank (content t)

variable {env : Env} {w w' : World} {disk : BlockNo → Block} {o : Slot} {content : Nat → Option Block}
variable {v v' : View} {offset n : Nat} {buf : Mem}

namespace View.Holds

theorem same (h : v.Holds o content) (hsame : SameContents o v v') : v'.Holds o content := by
  refine ⟨?_, h.beyond⟩
  intro t ht
  rw [← h.cell_eq t ht, hsame.cell_eq _ (dataRef_isData _ _) (dataRef_slot _ _)]

theorem write (h : v.Holds o content) (haligned : offset % blockSize = 0) (hn : n % blockSize = 0)
    (hmax : offset + n ≤ maxSize) {hfit : InBlock n offset}
    (hprog : (Job.ofWrite o buf n offset hfit).Progress v v' 4100)
    : v'.Holds o (overlay content buf n offset) := by
  have hstart : startBlock offset = offset / 4096 := startBlock_eq (by omega)
  simp only [blockSize, maxSize] at haligned hn hmax
  unfold overlay
  constructor
  . intro t ht
    split
    . next hin =>
      have htouched : (Job.ofWrite o buf n offset hfit).Touched t := by
        simp only [Job.Touched, Job.ofWrite, hstart]
        omega
      obtain ⟨blk, hcell, hw⟩ := hprog.written t ht htouched
      have hcell' : v'.cell (dataRef o t) = some blk := hcell
      rw [hcell']
      congr 1
      funext q
      have hq := q.isLt
      simp only [blockSize] at hq
      have hpos : (Job.ofWrite o buf n offset hfit).pos = offset := by
        simp only [Job.pos, Job.ofWrite, hstart]
        omega
      have hnew := hw.new q
      simp only [hpos] at hnew
      exact hnew (by omega) (by simp only [Job.ofWrite]; omega)
    . next hout =>
      rw [← h.cell_eq t ht]
      apply hprog.frame _ (dataRef_isData _ _)
      intro s hs htouched heq
      have := dataRef_inj ht hs heq
      subst this
      simp only [Job.Touched, Job.ofWrite, hstart] at htouched
      omega
  . intro t ht
    rw [if_neg (by omega)]
    exact h.beyond t ht

theorem ptr_eq_zero (h : v.Holds o content) (t : Nat) (ht : t < 4100)
    : v.ptr (dataRef o t) = 0#32 ↔ content t = none := by
  rw [← cell_eq_none, h.cell_eq t ht]

theorem lt_of_some (h : v.Holds o content) (t : Nat) (ht : content t ≠ none) : t < 4100 := by
  apply Classical.byContradiction
  intro hge
  exact ht (h.beyond t (by omega))

-- What a read delivers in place of block `k` from the start on.
theorem served_eq (h : v.Holds o content) (htidy : (v.objects o).Tidy) (start k q : Nat) (hq : q < 4096)
    : v.served o start (4096 * k + q)
        =
      match (v.route o start)[k]? with
      | some t => byteOf (content t) q
      | none => 0#8 := by
  have hdiv : (4096 * k + q) / 4096 = k := by omega
  have hmod : (4096 * k + q) % 4096 = q := by omega
  unfold served
  rw [hdiv, hmod]
  cases hroute : (v.route o start)[k]? with
  | none => rfl
  | some t =>
    have ht := ((mem_route htidy).mp (List.mem_of_getElem? hroute)).1
    have hdiv' : (4096 * t + q) / 4096 = t := by omega
    have hmod' : (4096 * t + q) % 4096 = q := by omega
    simp only [byteAt, hdiv', hmod', h.cell_eq t ht]
    cases content t with
    | none => rfl
    | some blk => rfl

end View.Holds

def View.Serves (v : View) (o : Slot) (content : Nat → Option Block) (offset : Nat) : Prop :=
  ∀ (p : Nat), p < maxSize
    → v.served o (startBlock offset) p = byteOf (content ((offset + p) / 4096)) ((offset + p) % 4096)

namespace View.Serves

theorem iff_blocks (haligned : offset % blockSize = 0)
    : v.Serves o content offset
        ↔ ∀ (k q : Nat), k < 4100 → q < 4096
          → v.served o (startBlock offset) (4096 * k + q) = byteOf (content (offset / 4096 + k)) q := by
  simp only [blockSize] at haligned
  constructor
  . intro h k q hk hq
    have hp := h (4096 * k + q) (by simp only [maxSize, blockSize]; omega)
    have hdiv : (offset + (4096 * k + q)) / 4096 = offset / 4096 + k := by omega
    have hmod : (offset + (4096 * k + q)) % 4096 = q := by omega
    rw [hdiv, hmod] at hp
    exact hp
  . intro h p hp
    simp only [maxSize, blockSize] at hp
    have hk := h (p / 4096) (p % 4096) (by omega) (Nat.mod_lt _ (by decide))
    have hpos : 4096 * (p / 4096) + p % 4096 = p := by omega
    have hdiv : (offset + p) / 4096 = offset / 4096 + p / 4096 := by omega
    have hmod : (offset + p) % 4096 = p % 4096 := by omega
    rw [hpos] at hk
    rw [hdiv, hmod]
    exact hk

section Content

variable (hholds : v.Holds o content) (htidy : (v.objects o).Tidy) (haligned : offset % blockSize = 0)

include hholds htidy haligned

-- A block behind a hole is delivered too early, and the bytes of the block that belongs there are those of
-- one that is further behind; the last of them is not delivered at all.
theorem blank_behind (h : v.Serves o content offset) (hstart : startBlock offset = offset / 4096) (k t : Nat)
    (hk : offset / 4096 ≤ k) (hkt : k < t) (hhole : content k = none)
    : Blank (content t) := by
  induction hd : 4100 - t using Nat.strong_induction_on generalizing t with
  | h d ih =>
    by_cases hnone : content t = none
    . intro q _
      rw [hnone]
      rfl
    . have ht := hholds.lt_of_some t hnone
      intro q hq
      have hserved := (iff_blocks haligned).mp h (t - offset / 4096) q (by omega) hq
      have hpos : offset / 4096 + (t - offset / 4096) = t := by omega
      rw [hpos, hholds.served_eq htidy _ _ _ hq] at hserved
      cases hroute : (v.route o (startBlock offset))[t - offset / 4096]? with
      | none =>
        rw [hroute] at hserved
        exact hserved.symm
      | some t' =>
        rw [hroute] at hserved
        have hnull := (hholds.ptr_eq_zero k (by omega)).mpr hhole
        have hle := le_of_route htidy hroute
        have hlt := lt_of_route htidy hroute k (by omega) (by omega) hnull
        have ht' := ((mem_route htidy).mp (List.mem_of_getElem? hroute)).1
        rw [← hserved]
        exact ih (4100 - t') (by omega) t' (by omega) rfl q hq

theorem of_ordered (hstart : startBlock offset = offset / 4096)
    (hblank : ∀ (k t : Nat), offset / 4096 ≤ k → k < t → content k = none → Blank (content t))
    : v.Serves o content offset := by
  rw [iff_blocks haligned]
  intro k q hk hq
  rw [hholds.served_eq htidy _ _ _ hq]
  by_cases hall : ∀ (u : Nat), offset / 4096 ≤ u → u ≤ offset / 4096 + k → content u ≠ none
  . have hlt := hholds.lt_of_some _ (hall (offset / 4096 + k) (by omega) (Nat.le_refl _))
    rw [route_eq htidy (by omega), hstart]
    intro u h1 h2
    rw [ne_eq, hholds.ptr_eq_zero u (by omega)]
    exact hall u (by omega) (by omega)
  . have hhole : ∃ (u : Nat), offset / 4096 ≤ u ∧ u ≤ offset / 4096 + k ∧ content u = none := by
      apply Classical.byContradiction
      intro hnone
      exact hall (fun u h1 h2 h3 => hnone ⟨u, h1, h2, h3⟩)
    obtain ⟨u, h1, h2, hu⟩ := hhole
    have hwant : byteOf (content (offset / 4096 + k)) q = 0#8 := by
      by_cases heq : u = offset / 4096 + k
      . rw [← heq, hu]
        rfl
      . exact hblank u _ h1 (by omega) hu q hq
    rw [hwant]
    cases hroute : (v.route o (startBlock offset))[k]? with
    | none => rfl
    | some t =>
      have hle := le_of_route htidy hroute
      obtain ⟨ht, -, hpresent⟩ := (mem_route htidy).mp (List.mem_of_getElem? hroute)
      have hne : u ≠ t := by
        rintro rfl
        exact hpresent u (by omega) (loopStart_le u) (Nat.le_refl u) ((hholds.ptr_eq_zero u ht).mpr hu)
      exact hblank u t h1 (by omega) hu q hq

theorem iff_wrapped (hstart : startBlock offset ≠ offset / 4096)
    : v.Serves o content offset
        ↔ ∀ (t : Nat), startBlock offset ≤ t
          → (∃ (k : Nat), startBlock offset ≤ k ∧ loopStart t ≤ k ∧ k ≤ t ∧ content k = none)
            ∨ Blank (content t) := by
  have hbig : 4100 ≤ offset / 4096 := by
    apply Classical.byContradiction
    intro hlt
    exact hstart (startBlock_eq (by simp only [maxSize, blockSize]; omega))
  have hwant : ∀ (k q : Nat), byteOf (content (offset / 4096 + k)) q = 0#8 := by
    intro k q
    rw [hholds.beyond _ (by omega)]
    rfl
  rw [iff_blocks haligned]
  constructor
  . intro h t hle
    by_cases hin : t ∈ v.route o (startBlock offset)
    . right
      intro q hq
      obtain ⟨k, hget⟩ := List.mem_iff_getElem?.mp hin
      have hkt := le_of_route htidy hget
      have ht := ((mem_route htidy).mp hin).1
      have hserved := h k q (by omega) hq
      rw [hwant, hholds.served_eq htidy _ _ _ hq, hget] at hserved
      exact hserved
    . by_cases ht : t < 4100
      . left
        apply Classical.byContradiction
        intro hnone
        apply hin
        refine (mem_route htidy).mpr ⟨ht, hle, ?_⟩
        intro u h1 h2 h3
        rw [ne_eq, hholds.ptr_eq_zero u (by omega)]
        exact fun hu => hnone ⟨u, h1, h2, h3, hu⟩
      . right
        intro q _
        rw [hholds.beyond t (by omega)]
        rfl
  . intro h k q hk hq
    rw [hwant, hholds.served_eq htidy _ _ _ hq]
    cases hroute : (v.route o (startBlock offset))[k]? with
    | none => rfl
    | some t =>
      obtain ⟨ht, hle, hpresent⟩ := (mem_route htidy).mp (List.mem_of_getElem? hroute)
      cases h t hle with
      | inl hhole =>
        obtain ⟨u, h1, h2, h3, hu⟩ := hhole
        exact absurd ((hholds.ptr_eq_zero u (by omega)).mpr hu) (hpresent u h1 h2 h3)
      | inr hblank => exact hblank q hq

theorem iff_unhidden : v.Serves o content offset ↔ Unhidden content offset := by
  unfold Unhidden
  split
  . next hstart =>
    constructor
    . intro h k t hk hkt hhole
      exact h.blank_behind hholds htidy haligned hstart k t hk hkt hhole
    . exact of_ordered hholds htidy haligned hstart
  . next hstart => exact iff_wrapped hholds htidy haligned hstart

end Content

end View.Serves

theorem readsHoles_iff_serves (hr : env.Reliable) (htag : w.Tagged) (haligned : offset % blockSize = 0)
    : ReadsHoles env w o content offset ↔ (w.view env).Serves o content offset := by
  constructor
  . intro h p hp
    obtain ⟨buf', u, heq, hbytes⟩ := h (fun _ => 0#8) maxSize (Nat.le_refl _)
    obtain ⟨buf'', u', heq', -, hserved⟩ :=
      objstoreRead_route hr htag o (fun _ => 0#8) maxSize offset (Nat.le_refl _) haligned
    rw [heq] at heq'
    cases heq'
    rw [← hserved p hp]
    exact hbytes p hp
  . intro h buf n hn
    obtain ⟨buf', u, heq, -, hserved⟩ := objstoreRead_route hr htag o buf n offset hn haligned
    refine ⟨buf', u, heq, ?_⟩
    intro p hp
    rw [hserved p hp]
    exact h p (by omega)

theorem Sparse.inv (hr : env.Reliable) (hown : (diskView disk).Own) (htidy : Tidy (diskObj disk))
    (h : Sparse env disk o w content)
    : w.Ok env ∧ Tidy w.objects ∧ (w.view env).Holds o content := by
  induction h with
  | created hmount hrun hstep =>
    have hok := roomy_ok hr hown hmount hrun
    have htidy' := roomy_tidy hr hown htidy hmount hrun
    have heff := hstep.effect hr hok
    obtain ⟨hsize, hedit⟩ := hstep.created hr hok
    refine ⟨heff.ok hok, heff.tidy hstep.1 htidy', ?_, fun _ _ => rfl⟩
    intro t _
    rw [hedit.cell_eq, cell_eq_none]
    exact Tidy.ptr_free htidy' hsize _ (dataRef_slot o t)
  | wrote h buf n offset haligned hn hmax hstep ih =>
    obtain ⟨hok, htidy', hholds⟩ := ih
    have heff := hstep.effect hr hok
    obtain ⟨-, -, v, hprog, hview⟩ := hstep.written hr hok (by omega) hstep.1.2.2.1
    refine ⟨heff.ok hok, heff.tidy hstep.1 htidy', ?_⟩
    have hnew := hholds.write haligned hn hmax hprog
    refine ⟨?_, hnew.beyond⟩
    intro t ht
    rw [hview, cell_finish]
    exact hnew.cell_eq t ht
  | other h hstep hspares ih =>
    obtain ⟨hok, htidy', hholds⟩ := ih
    have heff := hstep.effect hr hok
    exact ⟨heff.ok hok, heff.tidy hstep.1 htidy', hholds.same (heff.sameContents o hspares)⟩

-- Block 1 of ones, and none before it.
def secondOnes : Nat → Option Block :=
  overlay (fun _ => none) (fun _ => 1#8) 4096 4096

theorem exists_sparse
    : ∃ (w : World) (o : Slot), Sparse (steady true) blankDisk o w secondOnes := by
  have hr := steady_reliable true
  obtain ⟨w, o, hstarted⟩ := exists_started true
  obtain ⟨u, hreach, hstep⟩ := hstarted.step
  obtain ⟨w₀, calls, hmount, hrun⟩ := hreach.roomy hr own_blank
  obtain ⟨r, w', hwrite⟩ :=
    hstarted.writes (fun _ => 1#8) 4096 4096 (by decide) (by decide) (by decide) (by decide)
  refine ⟨w', o, ?_⟩
  exact (Sparse.created hmount hrun (hstep.roomy hr (hreach.ok hr own_blank))).wrote _ 4096 4096 rfl rfl
    (by decide) hwrite

end ObjStore
