import CS330.Lib.Ledger
import CS330.Lib.Run
import CS330.Paging.Cleanup

/-!
This module contains the address spaces of several contexts, which are prepared and cleaned up in any order: each
stands undisturbed on its own frames until it is cleaned up, and gives all of them back then.
-/

namespace Paging

open PageTable Radix createPageTableEntry cleanPageTable

variable {alloc : Allocator} {ctx : Context} {segment : Segment} {s : Memory} {root f : Frame}
  {leaves : List Index → Option Leaf} {p : List Index} {frames frames' : Tables} {allocs : List (Region × U32)}

theorem Memory.Owned.mono {s' : Memory} {new : List (Region × U32)} (h : s.Owned f)
    (hallocs : s'.allocs = new ++ s.allocs)
    : s'.Owned f := by
  obtain ⟨pfn, hmem, heq⟩ := h
  refine ⟨pfn, ?_, heq⟩
  rw [hallocs]
  exact List.mem_append_right new hmem

-- Only tables of the address space are written to.
theorem advance_frame {levelNum : Nat} (hf : s.Owned f)
    (hhonest : Honest ctx.argPfn (advance alloc ctx segment (levelNum + 1) f s).allocs) {g : Frame}
    (hg : ¬ (advance alloc ctx segment (levelNum + 1) f s).Owned g)
    : (advance alloc ctx segment (levelNum + 1) f s).frames g = s.frames g := by
  have hgf : g ≠ f := by
    rintro rfl
    obtain ⟨new, hallocs⟩ := advance_allocs alloc ctx segment (levelNum + 1) g s
    exact hg (hf.mono hallocs)
  funext j
  cases hpresent : present (s.frames f (getIndex ctx segment (levelNum + 1))) with
  | true => exact (advance_present alloc hpresent).2.2 g j (.inl hgf)
  | false =>
    cases levelNum with
    | zero =>
      obtain ⟨_, -, -, -, hsame⟩ := advance_page alloc hpresent
      exact hsame g j (.inl hgf)
    | succ levelNum =>
      have hallocs := advance_table_allocs alloc hpresent
      have hnew : g ≠ (alloc s.allocs.length .osPt).setWidth 64 := by
        rintro rfl
        apply hg
        refine ⟨_, ?_, rfl⟩
        rw [hallocs]
        exact List.mem_cons_self
      have hne : f ≠ (alloc s.allocs.length .osPt).setWidth 64 := by
        rintro rfl
        rw [hallocs] at hhonest
        exact Memory.Owned.not_fresh hhonest hf
      exact (advance_table alloc hpresent hne).2.2 g j hnew (.inl hgf)

theorem createPageTableEntry_frame (levelNum : Nat)
    : ∀ (p : List Index) (f : Frame) (s : Memory),
        p.length + (levelNum + 1) = 4
        → reach child s.frames root p = some f
        → Maps s.frames root s.Owned leaves
        → ((ctx.mms segment).writable = true → Along s.frames writable root p)
        → Honest ctx.argPfn (createPageTableEntry alloc ctx segment (levelNum + 1) f s).allocs
        → ∀ (g : Frame), ¬ (createPageTableEntry alloc ctx segment (levelNum + 1) f s).Owned g
          → (createPageTableEntry alloc ctx segment (levelNum + 1) f s).frames g = s.frames g := by
  induction levelNum with
  | zero =>
    intro p f s hp hf hmaps hw hhonest g hg
    exact advance_frame (hmaps.tables p f (by omega) hf) hhonest hg
  | succ levelNum ih =>
    intro p f s hp hf hmaps hw hhonest g hg
    rw [createPageTableEntry_succ] at hhonest hg ⊢
    obtain ⟨new, hallocs⟩ := createPageTableEntry_allocs alloc ctx segment (levelNum + 1)
      ((advance alloc ctx segment (levelNum + 2) f s).frames f (getIndex ctx segment (levelNum + 2)) >>> 12)
      (advance alloc ctx segment (levelNum + 2) f s)
    have hhonest' : Honest ctx.argPfn (advance alloc ctx segment (levelNum + 2) f s).allocs := by
      rw [hallocs] at hhonest
      exact hhonest.of_append
    have hstep : Maps (advance alloc ctx segment (levelNum + 2) f s).frames root
          (advance alloc ctx segment (levelNum + 2) f s).Owned leaves
        ∧ reach child (advance alloc ctx segment (levelNum + 2) f s).frames root
            (p ++ [getIndex ctx segment (levelNum + 2)])
          = some ((advance alloc ctx segment (levelNum + 2) f s).frames f
              (getIndex ctx segment (levelNum + 2)) >>> 12)
        ∧ ((ctx.mms segment).writable = true → Along (advance alloc ctx segment (levelNum + 2) f s).frames writable
            root (p ++ [getIndex ctx segment (levelNum + 2)])) := by
      cases hpresent : present (s.frames f (getIndex ctx segment (levelNum + 2))) with
      | true =>
        obtain ⟨hmaps', hf', hw', -⟩ := step_present alloc hmaps (by omega) hf hw hpresent
        exact ⟨hmaps', hf', hw'⟩
      | false =>
        rw [advance_table_allocs alloc hpresent] at hhonest'
        obtain ⟨hmaps', hf', hw', -⟩ := step_absent alloc hmaps (by omega) hf hw hpresent hhonest'
        exact ⟨hmaps', hf', hw'⟩
    obtain ⟨hmaps', hf', hw'⟩ := hstep
    rw [ih _ _ _ (by simp; omega) hf' hmaps' hw' hhonest g hg]
    exact advance_frame (hmaps.tables p f (by omega) hf) hhonest' (fun hold => hg (hold.mono hallocs))

theorem createPageTableEntry_three_frame {pgd : U32} (h : Maps s.frames (pgd.setWidth 64) s.Owned (fun _ => none))
    (harg : ctx.argPfn.toNat < 2 ^ 20) (hplaced : ctx.Placed)
    : let s₁ := createPageTableEntry alloc ctx .stack 4 (pgd.setWidth 64) s
      let s₂ := createPageTableEntry alloc ctx .code 4 (pgd.setWidth 64) s₁
      let s₃ := createPageTableEntry alloc ctx .data 4 (pgd.setWidth 64) s₂
      Honest ctx.argPfn s₃.allocs → ∀ (g : Frame), ¬ s₃.Owned g → s₃.frames g = s.frames g := by
  intro s₁ s₂ s₃ hhonest₃ g hg₃
  obtain ⟨new₂, hallocs₂⟩ := createPageTableEntry_allocs alloc ctx .code 4 (pgd.setWidth 64) s₁
  obtain ⟨new₃, hallocs₃⟩ := createPageTableEntry_allocs alloc ctx .data 4 (pgd.setWidth 64) s₂
  have hhonest₂ : Honest ctx.argPfn s₂.allocs := by
    simp only [s₃] at hhonest₃
    rw [hallocs₃] at hhonest₃
    exact hhonest₃.of_append
  have hhonest₁ : Honest ctx.argPfn s₁.allocs := by
    simp only [s₂] at hhonest₂
    rw [hallocs₂] at hhonest₂
    exact hhonest₂.of_append
  have hg₂ : ¬ s₂.Owned g := fun hold => hg₃ (hold.mono hallocs₃)
  have hg₁ : ¬ s₁.Owned g := fun hold => hg₂ (hold.mono hallocs₂)
  have hcode_stack : path (getIndex.va ctx .code) 4 ≠ path (getIndex.va ctx .stack) 4 :=
    hplaced.path_ne nofun nofun nofun
  obtain ⟨_, hmaps₁, -⟩ := createPageTableEntry_root h rfl harg hhonest₁
  obtain ⟨_, hmaps₂, -⟩ := createPageTableEntry_root hmaps₁ (by rw [Function.update_of_ne hcode_stack]) harg hhonest₂
  have hdown : ∀ (segment : Segment) (s : Memory) (leaves : List Index → Option Leaf),
      Maps s.frames (pgd.setWidth 64) s.Owned leaves
      → Honest ctx.argPfn (createPageTableEntry alloc ctx segment 4 (pgd.setWidth 64) s).allocs
      → ¬ (createPageTableEntry alloc ctx segment 4 (pgd.setWidth 64) s).Owned g
      → (createPageTableEntry alloc ctx segment 4 (pgd.setWidth 64) s).frames g = s.frames g :=
    fun segment s leaves hmaps hhonest hg =>
      createPageTableEntry_frame 3 [] _ s rfl rfl hmaps (fun _ => along_nil) hhonest g hg
  exact (hdown .data s₂ _ hmaps₂ hhonest₃ hg₃).trans
    ((hdown .code s₁ _ hmaps₁ hhonest₂ hg₂).trans (hdown .stack s _ h hhonest₁ hg₁))

theorem prepareContextMm_frame (harg : ctx.argPfn.toNat < 2 ^ 20) (hplaced : ctx.Placed)
    (hhonest : Honest ctx.argPfn (prepareContextMm alloc ctx s).2.allocs) {g : Frame}
    (hg : ¬ (prepareContextMm alloc ctx s).2.Owned g)
    : (prepareContextMm alloc ctx s).2.frames g = s.frames g := by
  have hempty := maps_clear { s with allocs := (.osPt, alloc s.allocs.length .osPt) :: s.allocs }
    (alloc s.allocs.length .osPt) List.mem_cons_self
  have hplaced' : Context.Placed { ctx with pgd := alloc s.allocs.length .osPt } :=
    ⟨hplaced.below, hplaced.distinct⟩
  have harg' : (Context.argPfn { ctx with pgd := alloc s.allocs.length .osPt }).toNat < 2 ^ 20 := harg
  obtain ⟨_, _, hmaps, -⟩ := prepareContextMm_maps harg hplaced hhonest
  have hroot : g ≠ (alloc s.allocs.length .osPt).setWidth 64 := by
    rintro rfl
    exact hg (hmaps.tables [] _ (by decide) rfl)
  have hthree := createPageTableEntry_three_frame hempty harg' hplaced' hhonest g hg
  rw [Memory.clear_off _ hroot] at hthree
  exact hthree

-- The frames of `ctx`, each with the region that it belongs to.
def Context.Holds (frames : Tables) (ctx : Context) (a : Region × U32) : Prop :=
  Memory.Placed ⟨frames, []⟩ ctx (ctx.pgd.setWidth 64) a

/-- The address space of `ctx` as it was prepared, with what was allocated for it. -/
structure Standing (frames : Tables) (ctx : Context) (allocs : List (Region × U32)) : Prop where
  honest : Honest ctx.argPfn allocs
  placed : ctx.Placed
  maps : ∃ (stackPfn codePfn : U32),
    Maps frames (ctx.pgd.setWidth 64) (Memory.mk frames allocs).Owned (ctx.pages stackPfn codePfn)
    ∧ (.user, stackPfn) ∈ allocs ∧ (.user, codePfn) ∈ allocs ∧ stackPfn ≠ codePfn
  places : ∀ (a : Region × U32), a ∈ allocs → ctx.Holds frames a

namespace Standing

theorem of_prepare (harg : ctx.argPfn.toNat < 2 ^ 20) (hplaced : ctx.Placed)
    (hhonest : Honest ctx.argPfn (prepareContextMm alloc ctx ⟨frames, []⟩).2.allocs)
    : Standing (prepareContextMm alloc ctx ⟨frames, []⟩).2.frames (prepareContextMm alloc ctx ⟨frames, []⟩).1
        (prepareContextMm alloc ctx ⟨frames, []⟩).2.allocs := by
  obtain ⟨stackPfn, codePfn, hmaps, hstack, hcode, hne, hplaces⟩ := prepareContextMm_maps harg hplaced hhonest
  -- only `pgd` is set in the context
  have hctx : (prepareContextMm alloc ctx ⟨frames, []⟩).1
      = { ctx with pgd := (prepareContextMm alloc ctx ⟨frames, []⟩).1.pgd } := rfl
  generalize prepareContextMm alloc ctx ⟨frames, []⟩ = r at *
  obtain ⟨ctx', s'⟩ := r
  simp only at hctx hhonest hmaps hstack hcode hplaces ⊢
  rw [hctx]
  refine ⟨hhonest, ⟨hplaced.below, hplaced.distinct⟩, ⟨stackPfn, codePfn, hmaps, hstack, hcode, hne⟩, ?_⟩
  intro a ha
  rcases hplaces a ha with rfl | hnone | hplace
  . exact ⟨.stack, [], nofun, List.nil_prefix, rfl, rfl⟩
  . cases hnone
  . exact hplace

-- the tables and the three pages, one of which was there before
theorem holds_iff (h : Standing frames ctx allocs) (a : Region × U32)
    : ctx.Holds frames a ↔ a ∈ (.user, ctx.argPfn) :: allocs := by
  obtain ⟨stackPfn, codePfn, hmaps, hstack, hcode, -⟩ := h.maps
  rw [List.mem_cons]
  constructor
  . rintro ⟨segment, q, hseg, hq, hreach, hregion⟩
    have hlen := hq.length_le
    rw [length_path] at hlen
    rw [List.prefix_iff_eq_take] at hq
    have hway := reach_way (s := ⟨frames, allocs⟩) hmaps h.placed segment hseg q.length
    obtain ⟨pfn, hnode, hcases⟩ := wayNode_frame (s := ⟨frames, allocs⟩) hmaps h.placed hstack hcode (4 - q.length)
      segment hseg
    rw [show 4 - (4 - q.length) = q.length by omega] at hnode
    rw [← hq, hnode] at hway
    have hpfn : a.2 = pfn := setWidth_inj (Option.some.inj (hreach.symm.trans hway))
    have hregion' : a.1 = region (4 - q.length + 1) := by
      rw [hregion, region]
      by_cases hlast : q.length < 4
      . rw [if_pos hlast, if_pos (by omega)]
      . rw [if_neg hlast, if_neg (by omega)]
    rcases hcases with hmem | ⟨hzero, harg⟩
    . right
      rw [← hpfn, ← hregion'] at hmem
      exact hmem
    . left
      rw [hzero] at hregion'
      exact Prod.ext hregion' (hpfn.trans harg)
  . rintro (rfl | hmem)
    . have hne : Segment.data ≠ .rodata := by decide
      refine ⟨.data, path (getIndex.va ctx .data) 4, hne, List.prefix_refl _, ?_, ?_⟩
      . have hway := reach_way (s := ⟨frames, allocs⟩) hmaps h.placed .data hne 4
        rw [wayNode_data (s := ⟨frames, allocs⟩) hmaps h.placed,
          List.take_of_length_le (Nat.le_of_eq (length_path _ 4))] at hway
        exact hway
      . rw [if_neg (by rw [length_path]; omega)]
    . exact h.places a hmem

-- The frames of other address spaces do not matter.
theorem other (h : Standing frames ctx allocs)
    (hsame : ∀ (pfn : U32), (.osPt, pfn) ∈ allocs → frames' (pfn.setWidth 64) = frames (pfn.setWidth 64))
    : Standing frames' ctx allocs := by
  obtain ⟨stackPfn, codePfn, hmaps, hpages⟩ := h.maps
  have htables : ∀ (p : List Index) (f : Frame), p.length < 4
      → reach child frames (ctx.pgd.setWidth 64) p = some f → frames' f = frames f := by
    intro p f hp hf
    obtain ⟨pfn, hmem, rfl⟩ := hmaps.tables p f hp hf
    exact hsame pfn hmem
  refine ⟨h.honest, h.placed, ⟨stackPfn, codePfn, hmaps.congr htables, hpages⟩, ?_⟩
  intro a ha
  obtain ⟨segment, q, hseg, hq, hreach, hregion⟩ := h.places a ha
  have hlen := hq.length_le
  rw [length_path] at hlen
  refine ⟨segment, q, hseg, hq, ?_, hregion⟩
  rw [reach_same htables q hlen]
  exact hreach

theorem walk_eq (h : Standing frames ctx allocs)
    : ∃ (stackPfn codePfn : U32), stackPfn ≠ codePfn ∧ ∀ (va : Word), va.toNat < 2 ^ 48
        → walk frames va 4 (ctx.pgd.setWidth 64) = ctx.translation stackPfn codePfn va := by
  obtain ⟨stackPfn, codePfn, hmaps, -, -, hne⟩ := h.maps
  refine ⟨stackPfn, codePfn, hne, ?_⟩
  intro va hva
  rw [hmaps.walk_eq va]
  exact h.placed.pages_eq stackPfn codePfn hva

end Standing

/-- What cleaning up gives back: all that the context holds, each frame once, after the last table was read. -/
structure CleansUp (frames : Tables) (ctx : Context) (trace : List Access) : Prop where
  nodup : ((frees trace).map Prod.snd).Nodup
  mem_iff : ∀ (region : Region) (pfn : U64),
    (region, pfn) ∈ frees trace ↔ ∃ (f : U32), ctx.Holds frames (region, f) ∧ pfn = f.setWidth 64
  reads : ∀ (later earlier : List Access) (region : Region) (pfn table : U64),
    trace = later ++ .free region pfn :: earlier → .read table ∉ later

theorem Standing.cleansUp (h : Standing frames ctx allocs)
    : CleansUp frames ctx (cleanupContextMm ctx ⟨frames, []⟩).trace := by
  obtain ⟨stackPfn, codePfn, hmaps, hstack, hcode, -⟩ := h.maps
  let node : Nodes := wayNode frames (ctx.pgd.setWidth 64) ctx
  obtain ⟨reads, hreads, hclean⟩ := cleanPageTable_trace ctx node 4 ⟨frames, []⟩ (by omega)
    (fun n segment hn hseg => wayNode_next (s := ⟨frames, allocs⟩) hmaps h.placed n hn segment hseg)
  have htrace : (cleanupContextMm ctx ⟨frames, []⟩).trace
      = ((Region.osPt, ctx.pgd.setWidth 64) :: released node 4).map (fun f => .free f.1 f.2) ++ reads := by
    rw [List.append_nil] at hclean
    rw [List.map_cons, List.cons_append, ← hclean]
    rfl
  have hne : ∀ (j k : Nat) (a b : Segment), j < k → k ≤ 4 → a ≠ .rodata → b ≠ .rodata
      → node a (4 - k) ≠ node b (4 - j) :=
    fun j k a b hjk hk ha hb =>
      wayNode_ne (s := ⟨frames, allocs⟩) hmaps h.placed h.honest hstack hcode hjk hk ha hb
  constructor
  . rw [htrace, frees_append, frees_map, frees_reads hreads, List.append_nil, List.map_cons, List.nodup_cons]
    constructor
    . rw [List.mem_map]
      rintro ⟨f, hf, heq⟩
      obtain ⟨k, segment, hk, hseg, -, hnode⟩ := (mem_released 4 f).mp hf
      apply hne k 4 .stack segment hk (Nat.le_refl 4) nofun hseg
      rw [← hnode, heq]
      rfl
    . apply nodup_released
      intro j k a b hjk hk
      exact hne j k a b hjk (by omega)
  . intro region pfn
    rw [htrace, frees_append, frees_map, frees_reads hreads, List.append_nil, List.mem_cons, mem_released]
    constructor
    . rintro (heq | ⟨k, segment, hk, hseg, rfl, rfl⟩)
      . cases heq
        exact ⟨ctx.pgd, ⟨.stack, [], nofun, List.nil_prefix, rfl, rfl⟩, rfl⟩
      . obtain ⟨f, hf, -⟩ := wayNode_frame (s := ⟨frames, allocs⟩) hmaps h.placed hstack hcode k segment hseg
        have hlen := length_take_path (getIndex.va ctx segment) k
        refine ⟨f, ⟨segment, _, hseg, List.take_prefix (4 - k) _, ?_, ?_⟩, hf⟩
        . rw [reach_way (s := ⟨frames, allocs⟩) hmaps h.placed segment hseg, hf]
        . simp only [cleanPageTable.region]
          by_cases hlast : k = 0
          . rw [if_neg (by omega), if_neg (by omega)]
          . rw [if_pos (by omega), if_pos (by omega)]
    . rintro ⟨f, hholds, rfl⟩
      rw [← mem_released]
      exact (Memory.Placed.released (s := ⟨frames, allocs⟩) hmaps h.placed hholds).imp_left id
  . intro later earlier region pfn table heq
    rw [htrace] at heq
    exact no_read_later hreads heq table

/-- Several contexts, and the frames that were handed out for them and given back. -/
structure System where
  frames : Tables
  live : Nat → Option Context
  given : List U32
  freed : List U32

inductive Turn where
  | prepare (id : Nat) (ctx : Context) (alloc : Allocator)
  | cleanup (id : Nat)
  | write (frames : Tables)

theorem setWidth_setWidth (pfn : U32) : ((pfn.setWidth 64).setWidth 32 : U32) = pfn := by
  apply BitVec.eq_of_toNat_eq
  have := pfn.isLt
  simp only [BitVec.toNat_setWidth]
  omega

-- what was handed out for a context, with the frame of its arguments
def handed (ctx : Context) (allocs : List (Region × U32)) : List U32 :=
  ctx.argPfn :: allocs.map Prod.snd

def thrownAway (trace : List Access) : List U32 :=
  (frees trace).map (fun f => f.2.setWidth 32)

namespace System

def Holds (σ : System) (id : Nat) (f : U32) : Prop :=
  ∃ (ctx : Context) (region : Region), σ.live id = some ctx ∧ ctx.Holds σ.frames (region, f)

def prepared (σ : System) (id : Nat) (ctx : Context) (alloc : Allocator) : System :=
  let r := prepareContextMm alloc ctx ⟨σ.frames, []⟩
  ⟨r.2.frames, Function.update σ.live id (some r.1), handed ctx r.2.allocs ++ σ.given, σ.freed⟩

def cleanedUp (σ : System) (id : Nat) (ctx : Context) : System :=
  ⟨σ.frames, Function.update σ.live id none, σ.given,
    thrownAway (cleanupContextMm ctx ⟨σ.frames, []⟩).trace ++ σ.freed⟩

/--
A context is prepared with frames that nobody has, or cleaned up, or something else is written, by a process or by the
kernel, which leaves the page tables alone.
-/
def Step (σ : System) (turn : Turn) (σ' : System) : Prop :=
  match turn with
  | .prepare id ctx alloc =>
    let allocs := (prepareContextMm alloc ctx ⟨σ.frames, []⟩).2.allocs
    σ.live id = none ∧ ctx.argPfn.toNat < 2 ^ 20 ∧ ctx.Placed ∧ Honest ctx.argPfn allocs
    ∧ (∀ (f : U32), f ∈ handed ctx allocs → σ.given.count f = σ.freed.count f)
    ∧ σ' = σ.prepared id ctx alloc
  | .cleanup id => ∃ (ctx : Context), σ.live id = some ctx ∧ σ' = σ.cleanedUp id ctx
  | .write frames => (∀ (id : Nat) (ctx : Context) (f : U32), σ.live id = some ctx → ctx.Holds σ.frames (.osPt, f)
      → frames (f.setWidth 64) = σ.frames (f.setWidth 64))
    ∧ σ' = { σ with frames := frames }

/-- All live contexts stand, and their frames are accounted for. -/
structure Sound (σ : System) : Prop where
  stands : ∀ (id : Nat) (ctx : Context), σ.live id = some ctx
    → ∃ (allocs : List (Region × U32)), Standing σ.frames ctx allocs
  ledger : Ledger σ.given σ.freed σ.Holds

end System

theorem Standing.holds_other (h : Standing frames ctx allocs)
    (hsame : ∀ (pfn : U32), (.osPt, pfn) ∈ allocs → frames' (pfn.setWidth 64) = frames (pfn.setWidth 64))
    (a : Region × U32)
    : ctx.Holds frames' a ↔ ctx.Holds frames a := by
  rw [h.holds_iff, (h.other hsame).holds_iff]

theorem Standing.mem_handed (h : Standing frames ctx allocs) (f : U32)
    : f ∈ handed ctx allocs ↔ ∃ (region : Region), ctx.Holds frames (region, f) := by
  have hhanded : handed ctx allocs = ((Region.user, ctx.argPfn) :: allocs).map Prod.snd := rfl
  rw [hhanded, List.mem_map]
  constructor
  . rintro ⟨⟨region, f⟩, hmem, rfl⟩
    exact ⟨region, (h.holds_iff _).mpr hmem⟩
  . rintro ⟨region, hholds⟩
    exact ⟨_, (h.holds_iff _).mp hholds, rfl⟩

theorem Standing.nodup_handed (h : Standing frames ctx allocs) : (handed ctx allocs).Nodup := by
  rw [handed, List.nodup_cons]
  refine ⟨?_, h.honest.nodup⟩
  rw [List.mem_map]
  rintro ⟨a, ha, heq⟩
  exact h.honest.arg a ha heq

namespace CleansUp

variable {trace : List Access} (h : CleansUp frames ctx trace)

include h

theorem mem_thrownAway (f : U32) : f ∈ thrownAway trace ↔ ∃ (region : Region), ctx.Holds frames (region, f) := by
  rw [thrownAway, List.mem_map]
  constructor
  . rintro ⟨⟨region, pfn⟩, hmem, rfl⟩
    obtain ⟨f, hholds, rfl⟩ := (h.mem_iff region pfn).mp hmem
    refine ⟨region, ?_⟩
    rw [setWidth_setWidth]
    exact hholds
  . rintro ⟨region, hholds⟩
    exact ⟨(region, f.setWidth 64), (h.mem_iff region _).mpr ⟨f, hholds, rfl⟩, setWidth_setWidth f⟩

theorem nodup_thrownAway : (thrownAway trace).Nodup := by
  have hmap : thrownAway trace = ((frees trace).map Prod.snd).map (fun pfn => pfn.setWidth 32) := by
    rw [thrownAway, List.map_map]
    rfl
  rw [hmap]
  apply h.nodup.map_on
  intro x hx y hy heq
  rw [List.mem_map] at hx hy
  obtain ⟨⟨region, pfn⟩, hmem, rfl⟩ := hx
  obtain ⟨⟨region', pfn'⟩, hmem', rfl⟩ := hy
  obtain ⟨f, -, rfl⟩ := (h.mem_iff region pfn).mp hmem
  obtain ⟨f', -, rfl⟩ := (h.mem_iff region' pfn').mp hmem'
  simp only [setWidth_setWidth] at heq
  rw [heq]

end CleansUp

namespace System.Sound

variable {σ σ' : System} {id : Nat}

-- nobody has what is handed out next
theorem not_handed (h : σ.Sound) {new : List U32} (hback : ∀ (f : U32), f ∈ new → σ.given.count f = σ.freed.count f)
    {ctx' : Context} (hlive : σ.live id = some ctx') {region : Region} {f : U32}
    (hholds : ctx'.Holds σ.frames (region, f))
    : f ∉ new :=
  fun hf => h.ledger.not_held (hback f hf) id ⟨ctx', region, hlive, hholds⟩

theorem prepare (h : σ.Sound) (hstep : σ.Step (.prepare id ctx alloc) σ') : σ'.Sound := by
  obtain ⟨hnone, harg, hplaced, hhonest, hback, rfl⟩ := hstep
  have hnew := Standing.of_prepare harg hplaced hhonest
  have hsame : ∀ (id' : Nat) (ctx' : Context) (allocs : List (Region × U32)), σ.live id' = some ctx'
      → Standing σ.frames ctx' allocs → ∀ (pfn : U32), (.osPt, pfn) ∈ allocs
      → (prepareContextMm alloc ctx ⟨σ.frames, []⟩).2.frames (pfn.setWidth 64) = σ.frames (pfn.setWidth 64) := by
    intro id' ctx' allocs hlive hstands pfn hmem
    apply prepareContextMm_frame harg hplaced hhonest
    rintro ⟨pfn', hmem', heq⟩
    apply h.not_handed hback hlive (hstands.places _ hmem)
    rw [setWidth_inj heq]
    exact List.mem_cons_of_mem _ (List.mem_map.mpr ⟨_, hmem', rfl⟩)
  constructor
  . intro id' ctx' hlive
    by_cases hid : id' = id
    . simp only [prepared, hid, Function.update_self, Option.some.injEq] at hlive
      rw [← hlive]
      exact ⟨_, hnew⟩
    . simp only [prepared, Function.update_of_ne hid] at hlive
      obtain ⟨allocs, hstands⟩ := h.stands id' ctx' hlive
      exact ⟨allocs, hstands.other (hsame id' ctx' allocs hlive hstands)⟩
  . apply h.ledger.take _ hnew.nodup_handed hback
    . rintro f ⟨ctx', region, hlive, -⟩
      rw [hnone] at hlive
      cases hlive
    . intro f
      rw [hnew.mem_handed]
      constructor
      . rintro ⟨ctx', region, hlive, hholds⟩
        simp only [prepared, Function.update_self, Option.some.injEq] at hlive
        rw [← hlive] at hholds
        exact ⟨region, hholds⟩
      . rintro ⟨region, hholds⟩
        exact ⟨_, region, Function.update_self _ _ _, hholds⟩
    . intro id' f hid
      unfold Holds
      simp only [prepared, Function.update_of_ne hid]
      constructor
      . rintro ⟨ctx', region, hlive, hholds⟩
        obtain ⟨allocs, hstands⟩ := h.stands id' ctx' hlive
        exact ⟨ctx', region, hlive, (hstands.holds_other (hsame id' ctx' allocs hlive hstands) _).mp hholds⟩
      . rintro ⟨ctx', region, hlive, hholds⟩
        obtain ⟨allocs, hstands⟩ := h.stands id' ctx' hlive
        exact ⟨ctx', region, hlive, (hstands.holds_other (hsame id' ctx' allocs hlive hstands) _).mpr hholds⟩

theorem cleanup (h : σ.Sound) (hstep : σ.Step (.cleanup id) σ') : σ'.Sound := by
  obtain ⟨ctx, hlive, rfl⟩ := hstep
  obtain ⟨allocs, hstands⟩ := h.stands id ctx hlive
  have hclean := hstands.cleansUp
  constructor
  . intro id' ctx' hlive'
    by_cases hid : id' = id
    . simp only [cleanedUp, hid, Function.update_self] at hlive'
      cases hlive'
    . simp only [cleanedUp, Function.update_of_ne hid] at hlive'
      exact h.stands id' ctx' hlive'
  . apply h.ledger.give _ hclean.nodup_thrownAway
    . intro f
      rw [hclean.mem_thrownAway]
      constructor
      . rintro ⟨ctx', region, hlive', hholds⟩
        rw [hlive, Option.some.injEq] at hlive'
        rw [← hlive'] at hholds
        exact ⟨region, hholds⟩
      . rintro ⟨region, hholds⟩
        exact ⟨ctx, region, hlive, hholds⟩
    . rintro f ⟨ctx', region, hlive', -⟩
      simp only [cleanedUp, Function.update_self] at hlive'
      cases hlive'
    . intro id' f hid
      unfold Holds
      simp only [cleanedUp, Function.update_of_ne hid]

theorem write (h : σ.Sound) (hstep : σ.Step (.write frames) σ') : σ'.Sound := by
  obtain ⟨hkept, rfl⟩ := hstep
  have hsame : ∀ (id : Nat) (ctx : Context) (allocs : List (Region × U32)), σ.live id = some ctx
      → Standing σ.frames ctx allocs → ∀ (pfn : U32), (.osPt, pfn) ∈ allocs
      → frames (pfn.setWidth 64) = σ.frames (pfn.setWidth 64) :=
    fun id ctx allocs hlive hstands pfn hmem => hkept id ctx pfn hlive (hstands.places _ hmem)
  have hholds : Holds { σ with frames := frames } = σ.Holds := by
    funext id f
    apply propext
    constructor
    . rintro ⟨ctx, region, hlive, hholds⟩
      obtain ⟨allocs, hstands⟩ := h.stands id ctx hlive
      exact ⟨ctx, region, hlive, (hstands.holds_other (hsame id ctx allocs hlive hstands) _).mp hholds⟩
    . rintro ⟨ctx, region, hlive, hholds⟩
      obtain ⟨allocs, hstands⟩ := h.stands id ctx hlive
      exact ⟨ctx, region, hlive, (hstands.holds_other (hsame id ctx allocs hlive hstands) _).mpr hholds⟩
  constructor
  . intro id ctx hlive
    obtain ⟨allocs, hstands⟩ := h.stands id ctx hlive
    exact ⟨allocs, hstands.other (hsame id ctx allocs hlive hstands)⟩
  . rw [hholds]
    exact h.ledger

theorem step {turn : Turn} (h : σ.Sound) (hstep : σ.Step turn σ') : σ'.Sound := by
  cases turn with
  | prepare id ctx alloc => exact h.prepare hstep
  | cleanup id => exact h.cleanup hstep
  | write frames => exact h.write hstep

end System.Sound

/-- Every live context has its three pages and frames of its own, of which none is lost. -/
structure Separate (σ : System) : Prop where
  walks : ∀ (id : Nat) (ctx : Context), σ.live id = some ctx
    → ∃ (stackPfn codePfn : U32), stackPfn ≠ codePfn ∧ ∀ (va : Word), va.toNat < 2 ^ 48
      → walk σ.frames va 4 (ctx.pgd.setWidth 64) = ctx.translation stackPfn codePfn va
  apart : ∀ (id id' : Nat) (f : U32), σ.Holds id f → σ.Holds id' f → id = id'
  held : ∀ (id : Nat) (f : U32), σ.Holds id f → σ.given.count f = σ.freed.count f + 1
  gone : ∀ (f : U32), (∀ (id : Nat), ¬ σ.Holds id f) → σ.given.count f = σ.freed.count f
  cleans : ∀ (id : Nat) (ctx : Context), σ.live id = some ctx
    → CleansUp σ.frames ctx (cleanupContextMm ctx ⟨σ.frames, []⟩).trace

theorem run_separate {σ₀ σ : System} {turns : List Turn} (hnone : ∀ (id : Nat), σ₀.live id = none)
    (hback : ∀ (f : U32), σ₀.given.count f = σ₀.freed.count f) (hrun : Run System.Step σ₀ turns σ)
    : Separate σ := by
  have hinit : σ₀.Sound := by
    constructor
    . intro id ctx hlive
      rw [hnone] at hlive
      cases hlive
    . apply Ledger.empty hback
      rintro id f ⟨ctx, region, hlive, -⟩
      rw [hnone] at hlive
      cases hlive
  have h : σ.Sound := hrun.inv hinit (fun _ _ _ hsound hstep => hsound.step hstep)
  constructor
  . intro id ctx hlive
    obtain ⟨allocs, hstands⟩ := h.stands id ctx hlive
    exact hstands.walk_eq
  . exact h.ledger.single
  . exact h.ledger.held
  . exact h.ledger.gone
  . intro id ctx hlive
    obtain ⟨allocs, hstands⟩ := h.stands id ctx hlive
    exact hstands.cleansUp

-- no contexts yet, and frames full of present entries
def vacant : System :=
  ⟨fun _ _ => 0x7#64, fun _ => none, [], []⟩

-- the same segments as `sample`, with other frames
def neighbour : Context :=
  { sample with argPfn := 0x6500 }

def higher : Allocator := fun n _ => BitVec.ofNat 32 (0x3000 + n)

def both : System :=
  (vacant.prepared 0 sample ascending).prepared 1 neighbour higher

theorem neighbour_honest
    : Honest neighbour.argPfn (prepareContextMm higher neighbour
        ⟨(vacant.prepared 0 sample ascending).frames, []⟩).2.allocs := by
  constructor <;> decide +kernel

theorem neighbour_fresh {f : U32}
    (hf : f ∈ handed neighbour (prepareContextMm higher neighbour
      ⟨(vacant.prepared 0 sample ascending).frames, []⟩).2.allocs)
    : (vacant.prepared 0 sample ascending).given.count f = 0 := by
  have hall : (handed neighbour (prepareContextMm higher neighbour
      ⟨(vacant.prepared 0 sample ascending).frames, []⟩).2.allocs).all
      (fun f => (vacant.prepared 0 sample ascending).given.count f == 0) = true := by
    decide +kernel
  rw [List.all_eq_true] at hall
  simpa using hall f hf

-- two contexts are prepared, and the first one is cleaned up
theorem run_separate_neighbour
    : ∃ (σ : System), Run System.Step vacant
        [.prepare 0 sample ascending, .prepare 1 neighbour higher, .cleanup 0] σ
      ∧ (σ.live 1).isSome ∧ Separate σ := by
  have hfirst : vacant.Step (.prepare 0 sample ascending) (vacant.prepared 0 sample ascending) :=
    ⟨rfl, by decide, sample_placed, sample_honest, fun _ _ => rfl, rfl⟩
  have hsecond : (vacant.prepared 0 sample ascending).Step (.prepare 1 neighbour higher) both :=
    ⟨rfl, by decide, ⟨sample_placed.below, sample_placed.distinct⟩, neighbour_honest,
      fun _ hf => neighbour_fresh hf, rfl⟩
  have hthird : both.Step (.cleanup 0) (both.cleanedUp 0 (prepareContextMm ascending sample ⟨vacant.frames, []⟩).1) :=
    ⟨_, rfl, rfl⟩
  have hrun := ((Run.nil.snoc hfirst).snoc hsecond).snoc hthird
  exact ⟨_, hrun, rfl, run_separate (fun _ => rfl) (fun _ => rfl) hrun⟩

end Paging
