import CS330.Entry.Installing
import CS330.Entry.Shrink
import CS330.Lib.Ledger
import CS330.Lib.Run

/-!
This module contains the whole life of an address space: page faults, and segments that are used further or less,
in any order. Every frame that was handed out for a page is either mapped, once, or has been given back.
-/

namespace Entry

open PageTable Radix doSyscall

inductive Region where
  | osDs
  | osPt
  | user
  deriving DecidableEq, Repr

-- `none` stands for `-1`.
def getMemRegion (pfn : U32) : Option Region :=
  let address : U64 := pfn.setWidth 64 <<< 12
  if address < 0x800000 ∨ address > 0x20000000 then
    none
  else if address ≥ 0x800000 ∧ address < 0x2000000 then
    some .osDs
  else if address ≥ 0x2000000 ∧ address < 0x6400000 then
    some .osPt
  else
    some .user

/-- The current context, and the frames that `os_pfn_alloc(USER_REG)` has returned. -/
structure Memory where
  state : State
  given : List U32

inductive Turn where
  | fault (env : PfnEnv) (vaddr error : U64)
  | call (c : Call) (r : U64)

namespace handlePageFault

-- the segment whose addresses these are, whether in use or not, by the tests of the handler
def within (mms : Segment → MmSegment) (vaddr : U64) : Option Segment :=
  if (mms .data).start ≤ vaddr ∧ vaddr ≤ (mms .data).stop then
    some .data
  else if (mms .rodata).start ≤ vaddr ∧ vaddr ≤ (mms .rodata).stop then
    some .rodata
  else if (mms .stack).start ≤ vaddr ∧ vaddr < (mms .stack).stop then
    some .stack
  else
    none

theorem within_of_segment {mms : Segment → MmSegment} {vaddr error : U64} {seg : Segment}
    (h : segment mms vaddr error = some seg)
    : within mms vaddr = some seg := by
  revert h
  unfold segment within
  split
  . nofun
  . split
    . split
      . nofun
      . exact id
    . split
      . split
        . nofun
        . exact id
      . exact id

theorem within_congr {mms mms' : Segment → MmSegment} (hstart : ∀ (seg : Segment), (mms' seg).start = (mms seg).start)
    (hstop : ∀ (seg : Segment), (mms' seg).stop = (mms seg).stop) (vaddr : U64)
    : within mms' vaddr = within mms vaddr := by
  unfold within
  rw [hstart, hstart, hstart, hstop, hstop, hstop]

end handlePageFault

-- The segments begin and end with a page.
def Paged (mms : Segment → MmSegment) : Prop :=
  ∀ (va va' : U64), va >>> 12 = va' >>> 12 → handlePageFault.within mms va = handlePageFault.within mms va'

-- A table of one of the four levels.
def State.InTree (s : State) (f : Frame) : Prop :=
  ∃ (p : List Index), p.length < 4 ∧ reach child s.frames s.root p = some f

/--
What `os_pfn_alloc` promises: it returns frames of the region that it is asked for, which nobody else has, and
those for tables are filled with zeros.
-/
structure PfnEnv.Keeps (env : PfnEnv) (m : Memory) (vaddr : U64) : Prop where
  honest : env.Honest m.state.frames m.state.root m.state.InTree [] vaddr 4
  user_region : getMemRegion env.user = some .user
  osPt_region : ∀ (level : Nat), Missing m.state.frames m.state.root [] vaddr 4 level
    → getMemRegion (env.osPt level) = some .osPt
  back : m.given.count env.user = m.state.freed.count env.user

/-- A page fault that is answered, for a page that is not there, or a system call that returns. -/
def Memory.Step (m : Memory) (turn : Turn) (m' : Memory) : Prop :=
  match turn with
  | .fault env vaddr error =>
    Canonical vaddr ∧ resolve m.state.frames m.state.root vaddr = none ∧ env.Keeps m vaddr
    ∧ handlePageFault env vaddr error m.state = .resumed m'.state ∧ m'.given = env.user :: m.given
  | .call c r => doSyscall c m.state = some (r, m'.state) ∧ m'.given = m.given

-- the page at `q` is in this frame
def InFrame (leaves : List Index → Option Leaf) (q : List Index) (f : U32) : Prop :=
  ∃ (leaf : Leaf), leaves q = some leaf ∧ leaf.frame = f.setWidth 64

/--
The books of a process that maps the pages in `leaves`, all of them with the permission of their segment. The frames
that were handed out and not given back hold one page each.
-/
structure Books (m : Memory) (leaves : List Index → Option Leaf) : Prop where
  maps : Maps m.state.frames m.state.root m.state.InTree leaves
  length_eq : ∀ (q : List Index) (leaf : Leaf), leaves q = some leaf → q.length = 4
  paged : Paged m.state.mms
  flags : ∀ (va : U64) (leaf : Leaf) (seg : Segment), Canonical va → leaves (path va 4) = some leaf
    → handlePageFault.within m.state.mms va = some seg → leaf.writable = (m.state.mms seg).writable
  tables : ∀ (f : Frame), m.state.InTree f → ∃ (pfn : U32), f = pfn.setWidth 64 ∧ getMemRegion pfn = some .osPt
  pages : ∀ (q : List Index) (leaf : Leaf), leaves q = some leaf
    → ∃ (pfn : U32), leaf.frame = pfn.setWidth 64 ∧ getMemRegion pfn = some .user
  ledger : Ledger m.given m.state.freed (InFrame leaves)

variable {m m' m₀ : Memory} {leaves leaves₀ : List Index → Option Leaf} {env : PfnEnv} {vaddr error : U64} {s : State}

theorem maps_inTree {used : Frame → Prop} (h : Maps s.frames s.root used leaves)
    : Maps s.frames s.root s.InTree leaves :=
  { h with tables := fun p _ hp hf => ⟨p, hp, hf⟩ }

theorem inTree_of_maps {used : Frame → Prop} (h : Maps s.frames s.root used leaves) {f : Frame} (hf : s.InTree f)
    : used f := by
  obtain ⟨p, hp, hreach⟩ := hf
  exact h.tables p f hp hreach

theorem inFrame_iff {q : List Index} {leaf : Leaf} {pfn f : U32} (hleaf : leaves q = some leaf)
    (hframe : leaf.frame = pfn.setWidth 64)
    : InFrame leaves q f ↔ f = pfn := by
  unfold InFrame
  rw [hleaf]
  constructor
  . rintro ⟨leaf', heq, hframe'⟩
    cases heq
    exact setWidth_inj (by rw [← hframe', hframe])
  . rintro rfl
    exact ⟨leaf, rfl, hframe⟩

theorem not_inFrame {q : List Index} {f : U32} (hnone : leaves q = none) : ¬ InFrame leaves q f := by
  rintro ⟨leaf, hleaf, -⟩
  rw [hnone] at hleaf
  cases hleaf

theorem inFrame_update {q q' : List Index} {o : Option Leaf} (hne : q' ≠ q) (f : U32)
    : InFrame (Function.update leaves q o) q' f ↔ InFrame leaves q' f := by
  unfold InFrame
  rw [Function.update_of_ne hne]

namespace handlePageFault

variable (env vaddr) (flags : U32) (level : Nat) {table : Frame}

theorem fill_freed : (fill env vaddr flags level table s).freed = s.freed := by
  unfold fill
  simp only
  split <;> rfl

theorem map_freed : (map env vaddr flags level table s).freed = s.freed := by
  induction level generalizing table s with
  | zero => rfl
  | succ level ih => rw [map_succ, ih, fill_freed]

end handlePageFault

namespace Books

-- the numbers of all frames in use have 32 bits
theorem tree (h : Books m leaves) : m.state.Tree where
  unshared := h.maps.unshared
  fits := by
    intro p f i hp hf hpresent
    have hchild : child (m.state.frames f i) = some (frame (m.state.frames f i)) := if_pos hpresent
    have hnext : reach child m.state.frames m.state.root (p ++ [i]) = some (frame (m.state.frames f i)) := by
      rw [reach_snoc_of hf, hchild]
    have hlen : (p ++ [i]).length = p.length + 1 := by simp
    have hfit : ∀ (pfn : U32), frame (m.state.frames f i) = pfn.setWidth 64
        → (frame (m.state.frames f i)).toNat < 2 ^ 32 := by
      intro pfn hpfn
      rw [hpfn, BitVec.toNat_setWidth]
      have := pfn.isLt
      omega
    by_cases hlast : p.length = 3
    . rw [h.maps.leaf _ (by omega), Option.map_eq_some_iff] at hnext
      obtain ⟨leaf, hleaf, hframe⟩ := hnext
      obtain ⟨pfn, hpfn, -⟩ := h.pages _ leaf hleaf
      exact hfit pfn (by rw [← hframe, hpfn])
    . obtain ⟨pfn, hpfn, -⟩ := h.tables _ ⟨p ++ [i], by omega, hnext⟩
      exact hfit pfn hpfn

theorem fault (h : Books m leaves) (hstep : m.Step (.fault env vaddr error) m')
    : ∃ (leaves' : List Index → Option Leaf), Books m' leaves' := by
  obtain ⟨hcanonical, hresolve, hkeeps, hhandled, hgiven⟩ := hstep
  have hnew : leaves (path vaddr 4) = none := by
    rw [resolve, if_pos hcanonical, h.maps.walk_eq, Option.map_eq_none_iff] at hresolve
    exact hresolve
  obtain ⟨seg, hseg, hstate⟩ : ∃ (seg : Segment), handlePageFault.segment m.state.mms vaddr error = some seg
      ∧ m'.state = handlePageFault.map env vaddr (m.state.mms seg).accessFlags 4 m.state.root m.state := by
    unfold handlePageFault at hhandled
    split at hhandled
    . cases hhandled
    . next seg hseg => exact ⟨seg, hseg, (Handled.resumed.inj hhandled).symm⟩
  have hmms : m'.state.mms = m.state.mms := by
    rw [hstate]
    exact handlePageFault.map_mms env vaddr _ 4
  have hroot : m'.state.root = m.state.root := by
    rw [hstate]
    exact congrArg (BitVec.setWidth 64) (handlePageFault.map_pgd env vaddr _ 4)
  have hfreed : m'.state.freed = m.state.freed := by
    rw [hstate]
    exact handlePageFault.map_freed env vaddr _ 4
  have hmaps : Maps m'.state.frames m.state.root
      (fun f => m.state.InTree f ∨ ∃ (level : Nat), Missing m.state.frames m.state.root [] vaddr 4 level
        ∧ f = (env.osPt level).setWidth 64)
      (Function.update leaves (path vaddr 4) (some ⟨env.user.setWidth 64, (m.state.mms seg).writable⟩)) := by
    rw [hstate]
    exact handlePageFault.map_maps 3 [] _ _ _ rfl rfl h.maps hnew (fun _ => along_nil) hkeeps.honest (fun _ hg => hg)
  refine ⟨Function.update leaves (path vaddr 4) (some ⟨env.user.setWidth 64, (m.state.mms seg).writable⟩), ?_, ?_, ?_,
    ?_, ?_, ?_, ?_⟩
  . apply maps_inTree
    rw [hroot]
    exact hmaps
  . intro q leaf hleaf
    by_cases hpath : q = path vaddr 4
    . rw [hpath, length_path]
    . rw [Function.update_of_ne hpath] at hleaf
      exact h.length_eq q leaf hleaf
  . rw [hmms]
    exact h.paged
  . intro va leaf seg' hva hleaf hwithin
    rw [hmms] at hwithin ⊢
    by_cases hpath : path va 4 = path vaddr 4
    . rw [hpath, Function.update_self, Option.some.injEq] at hleaf
      rw [h.paged va vaddr (page_eq_of_path_eq hva hcanonical hpath), handlePageFault.within_of_segment hseg,
        Option.some.injEq] at hwithin
      rw [← hleaf, hwithin]
    . rw [Function.update_of_ne hpath] at hleaf
      exact h.flags va leaf seg' hva hleaf hwithin
  . intro f hf
    rw [← hroot] at hmaps
    rcases inTree_of_maps hmaps hf with hold | ⟨level, hmissing, rfl⟩
    . exact h.tables f hold
    . rw [hroot] at hmissing
      exact ⟨_, rfl, hkeeps.osPt_region level hmissing⟩
  . intro q leaf hleaf
    by_cases hpath : q = path vaddr 4
    . rw [hpath, Function.update_self, Option.some.injEq] at hleaf
      rw [← hleaf]
      exact ⟨_, rfl, hkeeps.user_region⟩
    . rw [Function.update_of_ne hpath] at hleaf
      exact h.pages q leaf hleaf
  . rw [hgiven, hfreed]
    apply h.ledger.take [env.user] (List.nodup_singleton _)
    . intro f hf
      rw [List.mem_singleton.mp hf]
      exact hkeeps.back
    . exact fun f => not_inFrame hnew
    . intro f
      rw [inFrame_iff (Function.update_self _ _ _) rfl, List.mem_singleton]
    . exact fun q f hne => inFrame_update hne f

-- a page goes, or was not there
theorem unmap (h : Books m leaves) (pageAddr : U64)
    : Books { m with state := shrink.unmap pageAddr 4 m.state.root m.state }
        (Function.update leaves (shrink.way pageAddr 4) none) := by
  have hleaf := h.maps.leaf (shrink.way pageAddr 4) (shrink.length_way pageAddr 4)
  rcases unmap_eq h.tree pageAddr 3 [] m.state.root rfl rfl with ⟨hmiss, heq⟩ | ⟨q, i, t, g, hway, ht, hg, heq⟩
  . rw [List.nil_append] at hmiss
    rw [hmiss, eq_comm, Option.map_eq_none_iff] at hleaf
    rw [heq, ← hleaf, Function.update_eq_self]
    exact h
  . rw [List.nil_append] at hway
    have hq : q.length = 3 := by
      have hlen := congrArg List.length hway
      rw [shrink.length_way, List.length_append, List.length_singleton] at hlen
      omega
    rw [hway, reach_snoc_of ht, hg, eq_comm, Option.map_eq_some_iff, ← hway] at hleaf
    obtain ⟨leaf, hleaf, rfl⟩ := hleaf
    have hmaps := h.maps.cut hq ht i
    rw [← hway] at hmaps
    have hold : ∀ (r : List Index) (leaf : Leaf),
        Function.update leaves (shrink.way pageAddr 4) none r = some leaf → leaves r = some leaf := by
      intro r leaf hr
      by_cases hhere : r = shrink.way pageAddr 4
      . rw [hhere, Function.update_self] at hr
        cases hr
      . rw [Function.update_of_ne hhere] at hr
        exact hr
    rw [heq]
    refine ⟨maps_inTree (s := { m.state with freed := _, frames := _ }) hmaps, ?_, h.paged, ?_, ?_, ?_, ?_⟩
    . intro r leaf hr
      exact h.length_eq r leaf (hold r leaf hr)
    . intro va leaf seg hva hr hwithin
      exact h.flags va leaf seg hva (hold _ leaf hr) hwithin
    . intro f hf
      exact h.tables f (inTree_of_maps hmaps hf)
    . intro r leaf hr
      exact h.pages r leaf (hold r leaf hr)
    . obtain ⟨pfn, hframe, -⟩ := h.pages _ leaf hleaf
      have hpfn : leaf.frame.setWidth 32 = pfn := by
        apply BitVec.eq_of_toNat_eq
        have := pfn.isLt
        simp only [hframe, BitVec.toNat_setWidth]
        omega
      rw [hpfn]
      apply h.ledger.give [pfn] (List.nodup_singleton _)
      . intro f
        rw [inFrame_iff hleaf hframe, List.mem_singleton]
      . exact fun f => not_inFrame (Function.update_self _ _ _)
      . exact fun q f hne => inFrame_update hne f

theorem loop (newNext : U64) (passes : Nat)
    : ∀ (m : Memory) (leaves : List Index → Option Leaf) (pageAddr : U64) (s : State), Books m leaves
        → shrink.loop newNext passes pageAddr m.state = some s
        → ∃ (leaves' : List Index → Option Leaf), Books { m with state := s } leaves' := by
  induction passes with
  | zero => nofun
  | succ passes ih =>
    intro m leaves pageAddr s h hloop
    rw [shrink.loop] at hloop
    split at hloop
    . exact ih { m with state := shrink.unmap pageAddr 4 m.state.root m.state } _ _ s (h.unmap pageAddr) hloop
    . cases hloop
      exact ⟨leaves, h⟩

theorem setNextFree (h : Books m leaves) (seg : Segment) (nextFree : U64)
    : Books { m with state := doSyscall.setNextFree m.state seg nextFree } leaves := by
  have hsame : ∀ (seg' : Segment),
      ((doSyscall.setNextFree m.state seg nextFree).mms seg').start = (m.state.mms seg').start
      ∧ ((doSyscall.setNextFree m.state seg nextFree).mms seg').stop = (m.state.mms seg').stop
      ∧ ((doSyscall.setNextFree m.state seg nextFree).mms seg').accessFlags = (m.state.mms seg').accessFlags := by
    intro seg'
    by_cases hseg : seg' = seg
    . subst hseg
      simp [doSyscall.setNextFree]
    . simp [doSyscall.setNextFree, hseg]
  have hwithin := handlePageFault.within_congr (fun seg' => (hsame seg').1) (fun seg' => (hsame seg').2.1)
  refine ⟨h.maps, h.length_eq, ?_, ?_, h.tables, h.pages, h.ledger⟩
  . intro va va' hpage
    simp only [hwithin]
    exact h.paged va va' hpage
  . intro va leaf seg' hva hleaf hseg'
    simp only [hwithin] at hseg'
    rw [MmSegment.writable, (hsame seg').2.2]
    exact h.flags va leaf seg' hva hleaf hseg'

theorem call {c : Call} {r : U64} (h : Books m leaves) (hstep : m.Step (.call c r) m')
    : ∃ (leaves' : List Index → Option Leaf), Books m' leaves' := by
  obtain ⟨hcall, hgiven⟩ := hstep
  have hm' : m' = { m with state := m'.state } := by rw [← hgiven]
  rw [hm']
  cases hop : c.op with
  | expand =>
    simp only [doSyscall, hop, doSyscall.expand, Option.some.injEq] at hcall
    split at hcall
    . rw [← (Prod.mk.inj hcall).2]
      exact ⟨leaves, h⟩
    . split at hcall
      . rw [← (Prod.mk.inj hcall).2]
        exact ⟨leaves, h⟩
      . rw [← (Prod.mk.inj hcall).2]
        exact ⟨leaves, h.setNextFree _ _⟩
  | shrink =>
    simp only [doSyscall, hop, doSyscall.shrink] at hcall
    split at hcall
    . rw [← (Prod.mk.inj (Option.some.inj hcall)).2]
      exact ⟨leaves, h⟩
    . split at hcall
      . rw [← (Prod.mk.inj (Option.some.inj hcall)).2]
        exact ⟨leaves, h⟩
      . split at hcall
        . cases hcall
        . next s hloop =>
          obtain ⟨leaves', hbooks⟩ := h.loop _ _ _ _ _ s hloop
          rw [← (Prod.mk.inj (Option.some.inj hcall)).2]
          exact ⟨leaves', hbooks.setNextFree _ _⟩

theorem step {turn : Turn} (h : Books m leaves) (hstep : m.Step turn m')
    : ∃ (leaves' : List Index → Option Leaf), Books m' leaves' := by
  cases turn with
  | fault env vaddr error => exact h.fault hstep
  | call c r => exact h.call hstep

end Books

-- The page of `va` is in this frame.
def Memory.Shows (m : Memory) (va : U64) (f : U32) : Prop :=
  ∃ (r : Mapping), resolve m.state.frames m.state.root va = some r ∧ r.frame = f.setWidth 64

/-- What the pages of a process say about the frames that it was given, and about their permissions. -/
structure Conserved (m : Memory) : Prop where
  held : ∀ (va : U64) (f : U32), m.Shows va f → m.given.count f = m.state.freed.count f + 1
  gone : ∀ (f : U32), (∀ (va : U64), ¬ m.Shows va f) → m.given.count f = m.state.freed.count f
  single : ∀ (va va' : U64) (f : U32), m.Shows va f → m.Shows va' f → va >>> 12 = va' >>> 12
  shows : ∀ (va : U64) (r : Mapping), resolve m.state.frames m.state.root va = some r → r.user = true
    ∧ (∃ (f : U32), r.frame = f.setWidth 64 ∧ getMemRegion f = some .user ∧ ¬ m.state.InTree r.frame)
    ∧ ∀ (seg : Segment), handlePageFault.within m.state.mms va = some seg → r.writable = (m.state.mms seg).writable

theorem Books.resolve_eq (h : Books m leaves) {va : U64} {r : Mapping}
    (hr : resolve m.state.frames m.state.root va = some r)
    : Canonical va ∧ leaves (path va 4) = some ⟨r.frame, r.writable⟩ ∧ r.user = true := by
  obtain ⟨hcanonical, hwalk⟩ := resolve_eq_some hr
  rw [h.maps.walk_eq, Option.map_eq_some_iff] at hwalk
  obtain ⟨leaf, hleaf, rfl⟩ := hwalk
  exact ⟨hcanonical, hleaf, rfl⟩

theorem Books.shows_iff (h : Books m leaves) {va : U64} {f : U32}
    : m.Shows va f ↔ Canonical va ∧ InFrame leaves (path va 4) f := by
  constructor
  . rintro ⟨r, hr, hframe⟩
    obtain ⟨hcanonical, hleaf, -⟩ := h.resolve_eq hr
    exact ⟨hcanonical, _, hleaf, hframe⟩
  . rintro ⟨hcanonical, leaf, hleaf, hframe⟩
    refine ⟨⟨leaf.frame, leaf.writable, true⟩, ?_, hframe⟩
    rw [resolve, if_pos hcanonical, h.maps.walk_eq, hleaf]
    rfl

theorem Books.conserved (h : Books m leaves) : Conserved m where
  held := by
    intro va f hshows
    exact h.ledger.held _ f (h.shows_iff.mp hshows).2
  gone := by
    intro f hnot
    apply h.ledger.gone
    rintro q ⟨leaf, hleaf, hframe⟩
    obtain ⟨va, hcanonical, rfl⟩ := exists_canonical q (h.length_eq q leaf hleaf)
    exact hnot va (h.shows_iff.mpr ⟨hcanonical, leaf, hleaf, hframe⟩)
  single := by
    intro va va' f hshows hshows'
    obtain ⟨hcanonical, hframe⟩ := h.shows_iff.mp hshows
    obtain ⟨hcanonical', hframe'⟩ := h.shows_iff.mp hshows'
    exact page_eq_of_path_eq hcanonical hcanonical' (h.ledger.single _ _ f hframe hframe')
  shows := by
    intro va r hr
    obtain ⟨hcanonical, hleaf, huser⟩ := h.resolve_eq hr
    obtain ⟨f, hframe, hregion⟩ := h.pages _ _ hleaf
    refine ⟨huser, ⟨f, hframe, hregion, ?_⟩, ?_⟩
    . intro htree
      obtain ⟨f', hframe', hregion'⟩ := h.tables _ htree
      have hff' : f.setWidth 64 = (f'.setWidth 64 : Frame) := by rw [← hframe', ← hframe]
      rw [setWidth_inj hff', hregion'] at hregion
      cases hregion
    . intro seg hseg
      exact h.flags va _ seg hcanonical hleaf hseg

-- a process whose table of the highest level is empty, in the region for tables
def idle : Memory :=
  ⟨{ bare with pgd := 0x2000 }, []⟩

theorem layout_paged : Paged layout := by
  intro va va' hpage
  have hnat := congrArg BitVec.toNat hpage
  simp only [BitVec.toNat_ushiftRight, Nat.shiftRight_eq_div_pow] at hnat
  have hdata : 0x180000000 ≤ va.toNat ∧ va.toNat ≤ 0x7FEFFFFFF ↔ 0x180000000 ≤ va'.toNat ∧ va'.toNat ≤ 0x7FEFFFFFF := by
    omega
  have hrodata : 0x140000000 ≤ va.toNat ∧ va.toNat ≤ 0x17FFFFFFF
      ↔ 0x140000000 ≤ va'.toNat ∧ va'.toNat ≤ 0x17FFFFFFF := by
    omega
  have hstack : 0x7FF000000 ≤ va.toNat ∧ va.toNat < 0x800000000
      ↔ 0x7FF000000 ≤ va'.toNat ∧ va'.toNat < 0x800000000 := by
    omega
  simp only [handlePageFault.within, layout, BitVec.le_def, BitVec.lt_def, BitVec.reduceToNat, hdata, hrodata, hstack]

theorem idle_maps : Maps idle.state.frames idle.state.root (fun f => f = 0x2000) (fun _ => none) :=
  Maps.empty (fun _ => by simp [idle, bare, present]) rfl

theorem idle_books : Books idle (fun _ => none) where
  maps := maps_inTree idle_maps
  length_eq := nofun
  paged := layout_paged
  flags := nofun
  tables := by
    intro f hf
    rw [inTree_of_maps idle_maps hf]
    exact ⟨0x2000, rfl, by decide⟩
  pages := nofun
  ledger := Ledger.empty (fun _ => rfl) (fun _ _ => not_inFrame rfl)

theorem firstPfns_keeps : firstPfns.Keeps idle 0x180001000 where
  honest := by
    constructor
    . decide
    . rintro level ⟨_, hlevel, _⟩
      simp only [firstPfns, endPfn, BitVec.toNat_ofNat]
      omega
    . rintro level ⟨hlow, hlevel, _⟩ hf
      have := congrArg BitVec.toNat (inTree_of_maps idle_maps hf)
      simp only [firstPfns, BitVec.toNat_setWidth, BitVec.toNat_ofNat, BitVec.reduceToNat] at this
      omega
    . intro _ _ _
      rfl
    . rintro level level' ⟨_, hlevel, _⟩ ⟨_, hlevel', _⟩ heq
      have := congrArg BitVec.toNat heq
      simp only [firstPfns, BitVec.toNat_ofNat] at this
      omega
  user_region := by decide
  osPt_region := by
    rintro level ⟨hlow, hlevel, _⟩
    have hcases : level = 2 ∨ level = 3 ∨ level = 4 := by omega
    rcases hcases with rfl | rfl | rfl <;> decide
  back := by decide

def filled : State :=
  handlePageFault.map firstPfns 0x180001000 0x3 4 0x2000 idle.state

def shrunk : State :=
  setNextFree (unmapAll (visited 0x180004000 4) filled) .data 0x180000000

theorem filled_shrink : doSyscall ⟨.shrink, 4, mapWr⟩ filled = some (0x180000000, shrunk) := by
  have hmms : filled.mms = layout := handlePageFault.map_mms firstPfns 0x180001000 0x3 4
  have hseg : segment mapWr = some .data := rfl
  rw [doSyscall_shrink hseg (by rw [hmms]; decide) (by rw [hmms]; decide), hmms, if_pos (by decide)]
  rfl

theorem shrunk_freed : shrunk.freed = [0x6400] := by
  decide +kernel

end Entry
