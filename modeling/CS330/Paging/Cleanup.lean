import CS330.Paging.Initial
import Mathlib.Data.List.Nodup

/-!
This module contains that `cleanup_context_mm` undoes `prepare_context_mm`: what was allocated is given back, each
frame once, and the tables are read before the first of them is given back.
-/

namespace Paging

open PageTable Radix

def Access.freed : Access → Option (Region × U64)
  | .read _ => none
  | .free region pfn => some (region, pfn)

def frees (trace : List Access) : List (Region × U64) :=
  trace.filterMap Access.freed

theorem frees_append (trace trace' : List Access) : frees (trace ++ trace') = frees trace ++ frees trace' :=
  List.filterMap_append

theorem frees_reads {reads : List Access} (h : ∀ (a : Access), a ∈ reads → a.freed = none) : frees reads = [] := by
  rw [frees, List.filterMap_eq_nil_iff]
  exact h

@[simp]
theorem frees_map (fs : List (Region × U64)) : frees (fs.map (fun f => .free f.1 f.2)) = fs := by
  induction fs with
  | nil => rfl
  | cons f fs ih =>
    rw [List.map_cons, frees, List.filterMap_cons, ← frees, ih]
    rfl

namespace cleanPageTable

-- what is given back at one level, the latest first
def thrown (region : Region) (stack code data : U64) : List (Region × U64) :=
  (if data ≠ stack ∧ data ≠ code then [(region, data)] else [])
    ++ (if code ≠ stack then [(region, code)] else [])
    ++ [(region, stack)]

-- the frames on the ways to the pages, by their depth
abbrev Nodes := Segment → Nat → Frame

def region (levelNum : Nat) : Region :=
  if levelNum ≠ 1 then .osPt else .user

-- what is given back by the call for a level and those below it
def released (node : Nodes) : Nat → List (Region × U64)
  | 0 => []
  | levelNum + 1 =>
    thrown (region (levelNum + 1)) (node .stack (4 - levelNum)) (node .code (4 - levelNum))
        (node .data (4 - levelNum))
      ++ released node levelNum

variable {r : Region} {stack code data : U64}

theorem mem_thrown (f : Region × U64)
    : f ∈ thrown r stack code data ↔ (f.1 = r ∧ (f.2 = stack ∨ f.2 = code ∨ f.2 = data)) := by
  obtain ⟨r', pfn⟩ := f
  unfold thrown
  by_cases hcode : code = stack
  . by_cases hdata : data = stack
    . simp [hcode, hdata]
    . simp only [hcode, hdata, ne_eq, not_false_eq_true, and_self, ↓reduceIte, not_true_eq_false,
        List.append_nil, List.mem_append, List.mem_singleton, Prod.mk.injEq]
      tauto
  . by_cases hdata : data ≠ stack ∧ data ≠ code
    . simp only [hcode, hdata, ne_eq, not_false_eq_true, and_self, ↓reduceIte, List.mem_append,
        List.mem_singleton, Prod.mk.injEq]
      tauto
    . rw [if_neg hdata]
      simp only [hcode, ne_eq, not_false_eq_true, ↓reduceIte, List.nil_append, List.mem_append,
        List.mem_singleton, Prod.mk.injEq]
      have hor : data = stack ∨ data = code := by tauto
      cases hor with
      | inl heq =>
        rw [heq]
        tauto
      | inr heq =>
        rw [heq]
        tauto

theorem nodup_thrown : ((thrown r stack code data).map Prod.snd).Nodup := by
  unfold thrown
  by_cases hcode : code = stack
  . by_cases hdata : data = stack
    . simp [hcode, hdata]
    . simp [hcode, hdata]
  . by_cases hdata : data ≠ stack ∧ data ≠ code
    . simp [hcode, hdata]
    . rw [if_neg hdata]
      simp [hcode]

variable {node : Nodes}

theorem mem_released (levelNum : Nat) (f : Region × U64)
    : f ∈ released node levelNum
        ↔ ∃ (k : Nat) (segment : Segment), k < levelNum ∧ segment ≠ .rodata ∧ f.1 = region (k + 1)
          ∧ f.2 = node segment (4 - k) := by
  induction levelNum with
  | zero => simp [released]
  | succ levelNum ih =>
    rw [released, List.mem_append, mem_thrown, ih]
    constructor
    . rintro (⟨hregion, heq⟩ | ⟨k, segment, hk, hrest⟩)
      . rcases heq with heq | heq | heq
        . exact ⟨levelNum, .stack, by omega, nofun, hregion, heq⟩
        . exact ⟨levelNum, .code, by omega, nofun, hregion, heq⟩
        . exact ⟨levelNum, .data, by omega, nofun, hregion, heq⟩
      . exact ⟨k, segment, by omega, hrest⟩
    . rintro ⟨k, segment, hk, hseg, hregion, heq⟩
      by_cases hlast : k = levelNum
      . subst hlast
        left
        refine ⟨hregion, ?_⟩
        cases segment with
        | rodata => exact absurd rfl hseg
        | stack => exact .inl heq
        | code => exact .inr (.inl heq)
        | data => exact .inr (.inr heq)
      . exact .inr ⟨k, segment, by omega, hseg, hregion, heq⟩

theorem nodup_released (levelNum : Nat)
    (hne : ∀ (j k : Nat) (a b : Segment), j < k → k < levelNum → a ≠ .rodata → b ≠ .rodata
      → node a (4 - k) ≠ node b (4 - j))
    : ((released node levelNum).map Prod.snd).Nodup := by
  induction levelNum with
  | zero => exact List.nodup_nil
  | succ levelNum ih =>
    rw [released, List.map_append, List.nodup_append]
    refine ⟨nodup_thrown, ?_, ?_⟩
    . apply ih
      intro j k a b hjk hk
      exact hne j k a b hjk (by omega)
    . intro pfn hpfn pfn' hpfn' heq
      rw [List.mem_map] at hpfn hpfn'
      obtain ⟨f, hf, hfeq⟩ := hpfn
      obtain ⟨f', hf', hfeq'⟩ := hpfn'
      obtain ⟨k, b, hk, hb, -, hnode⟩ := (mem_released levelNum f').mp hf'
      have hlast : f ∈ released node (levelNum + 1) := by
        rw [released, List.mem_append]
        exact .inl hf
      rw [mem_thrown] at hf
      have hsome : ∃ (a : Segment), a ≠ .rodata ∧ f.2 = node a (4 - levelNum) := by
        rcases hf.2 with h | h | h
        . exact ⟨.stack, nofun, h⟩
        . exact ⟨.code, nofun, h⟩
        . exact ⟨.data, nofun, h⟩
      obtain ⟨a, ha, hnode'⟩ := hsome
      apply hne k levelNum a b hk (by omega) ha hb
      rw [← hnode, ← hnode', hfeq, hfeq', heq]

end cleanPageTable

open cleanPageTable

-- the six entries of one level that are looked at
def Teardown.glance (levels : Levels) (t : Teardown) : Teardown :=
  { t with trace :=
    [.read levels.data, .read levels.code, .read levels.stack, .read levels.data, .read levels.code,
      .read levels.stack] ++ t.trace }

theorem cleanPageTable_succ (ctx : Context) (levelNum : Nat) (levels next : Levels) (t : Teardown)
    (hstack : t.frames levels.stack (getIndex ctx .stack (levelNum + 1)) >>> 12 = next.stack)
    (hcode : t.frames levels.code (getIndex ctx .code (levelNum + 1)) >>> 12 = next.code)
    (hdata : t.frames levels.data (getIndex ctx .data (levelNum + 1)) >>> 12 = next.data)
    : (cleanPageTable ctx (levelNum + 1) levels t).trace
        =
      (thrown (region (levelNum + 1)) next.stack next.code next.data).map (fun f => .free f.1 f.2)
        ++ (cleanPageTable ctx levelNum next (t.glance levels)).trace := by
  -- below the last level there is nothing to do
  have hrec : (if levelNum + 1 ≠ 1 then (Region.osPt, cleanPageTable ctx levelNum next (t.glance levels))
      else (Region.user, t.glance levels))
      = (region (levelNum + 1), cleanPageTable ctx levelNum next (t.glance levels)) := by
    unfold region
    by_cases hlast : levelNum = 0
    . subst hlast
      rfl
    . have hne : levelNum + 1 ≠ 1 := by omega
      rw [if_pos hne, if_pos hne]
  simp only [cleanPageTable, Teardown.pfnAt, hstack, hcode, hdata]
  simp only [Teardown.glance, List.cons_append, List.nil_append] at hrec ⊢
  rw [hrec]
  generalize cleanPageTable ctx levelNum next _ = t'
  unfold thrown osPfnFree
  by_cases hcode : next.code = next.stack
  . by_cases hdata : next.data = next.stack
    . simp [hcode, hdata]
    . simp [hcode, hdata]
  . by_cases hdata : next.data ≠ next.stack ∧ next.data ≠ next.code
    . simp [hcode, hdata]
    . rw [if_neg hdata, if_neg hdata]
      simp [hcode]

-- Everything is read on the way down and given back on the way up.
theorem cleanPageTable_trace (ctx : Context) (node : Nodes) (levelNum : Nat)
    : ∀ (t : Teardown), levelNum ≤ 4
      → (∀ (n : Nat) (segment : Segment), n < levelNum → segment ≠ .rodata
        → t.frames (node segment (3 - n)) (getIndex ctx segment (n + 1)) >>> 12 = node segment (4 - n))
      → ∃ (reads : List Access), (∀ (a : Access), a ∈ reads → a.freed = none)
        ∧ (cleanPageTable ctx levelNum
            ⟨node .stack (4 - levelNum), node .code (4 - levelNum), node .data (4 - levelNum)⟩ t).trace
          = (released node levelNum).map (fun f => .free f.1 f.2) ++ reads ++ t.trace := by
  induction levelNum with
  | zero =>
    intro t _ _
    exact ⟨[], by simp, rfl⟩
  | succ levelNum ih =>
    intro t hle hnode
    have hdepth : 4 - (levelNum + 1) = 3 - levelNum := by omega
    rw [hdepth]
    let levels : Levels := ⟨node .stack (3 - levelNum), node .code (3 - levelNum), node .data (3 - levelNum)⟩
    obtain ⟨reads, hreads, htrace⟩ := ih (t.glance levels) (by omega)
      (fun n segment hn hseg => hnode n segment (by omega) hseg)
    rw [cleanPageTable_succ ctx levelNum levels
      ⟨node .stack (4 - levelNum), node .code (4 - levelNum), node .data (4 - levelNum)⟩ t
      (hnode levelNum .stack (by omega) nofun) (hnode levelNum .code (by omega) nofun)
      (hnode levelNum .data (by omega) nofun), htrace]
    refine ⟨reads ++ [.read levels.data, .read levels.code, .read levels.stack, .read levels.data,
      .read levels.code, .read levels.stack], ?_, ?_⟩
    . intro a ha
      rw [List.mem_append] at ha
      cases ha with
      | inl hmem => exact hreads a hmem
      | inr hmem =>
        simp only [List.mem_cons, List.not_mem_nil, or_false] at hmem
        rcases hmem with h | h | h | h | h | h <;> rw [h] <;> rfl
    . rw [released, List.map_append]
      simp only [Teardown.glance, List.append_assoc]

-- the frames on the ways to the three pages
def wayNode (m : Tables) (root : Frame) (ctx : Context) : Nodes :=
  fun segment depth => (reach child m root ((path (getIndex.va ctx segment) 4).take depth)).getD 0

theorem take_path (va : Word) (n : Nat) (hn : n < 4)
    : (path va 4).take (4 - n) = (path va 4).take (3 - n) ++ [index va (n + 1)] := by
  have hcases : n = 0 ∨ n = 1 ∨ n = 2 ∨ n = 3 := by omega
  rcases hcases with h | h | h | h <;> subst h <;> rfl

theorem length_take_path (va : Word) (n : Nat) : ((path va 4).take (4 - n)).length = 4 - n := by
  rw [List.length_take, length_path]
  omega

theorem Honest.inj {argPfn : U32} {allocs : List (Region × U32)} (h : Honest argPfn allocs) {r r' : Region}
    {pfn : U32} (hmem : (r, pfn) ∈ allocs) (hmem' : (r', pfn) ∈ allocs)
    : r = r' := by
  have heq := List.inj_on_of_nodup_map h.nodup hmem hmem' rfl
  exact congrArg Prod.fst heq

section WayNode

variable {ctx : Context} {s : Memory} {root : Frame} {stackPfn codePfn : U32}
variable (hmaps : Maps s.frames root s.Owned (ctx.pages stackPfn codePfn)) (hplaced : ctx.Placed)

include hplaced in
theorem Context.Placed.pages_frame (stackPfn codePfn : U32) (segment : Segment) (hseg : segment ≠ .rodata)
    : ∃ (pfn : U32), (ctx.pages stackPfn codePfn (path (getIndex.va ctx segment) 4)).map Leaf.frame
          = some (pfn.setWidth 64)
        ∧ (pfn = stackPfn ∨ pfn = codePfn ∨ pfn = ctx.argPfn) := by
  have hstack_code := hplaced.path_ne (a := .stack) (b := .code) nofun nofun nofun
  have hstack_data := hplaced.path_ne (a := .stack) (b := .data) nofun nofun nofun
  have hcode_data := hplaced.path_ne (a := .code) (b := .data) nofun nofun nofun
  cases segment with
  | rodata => exact absurd rfl hseg
  | stack =>
    refine ⟨stackPfn, ?_, .inl rfl⟩
    rw [Context.pages, Function.update_of_ne hstack_data, Function.update_of_ne hstack_code, Function.update_self]
    rfl
  | code =>
    refine ⟨codePfn, ?_, .inr (.inl rfl)⟩
    rw [Context.pages, Function.update_of_ne hcode_data, Function.update_self]
    rfl
  | data =>
    refine ⟨ctx.argPfn, ?_, .inr (.inr rfl)⟩
    rw [Context.pages, Function.update_self]
    rfl

include hmaps hplaced

theorem reach_way (segment : Segment) (hseg : segment ≠ .rodata) (depth : Nat)
    : reach child s.frames root ((path (getIndex.va ctx segment) 4).take depth)
        = some (wayNode s.frames root ctx segment depth) := by
  obtain ⟨pfn, hpage, -⟩ := hplaced.pages_frame stackPfn codePfn segment hseg
  rw [← hmaps.leaf _ (length_path _ 4)] at hpage
  obtain ⟨f, hf⟩ := reach_of_prefix hpage (List.take_prefix depth _)
  unfold wayNode
  rw [hf]
  rfl

theorem wayNode_next (n : Nat) (hn : n < 4) (segment : Segment) (hseg : segment ≠ .rodata)
    : s.frames (wayNode s.frames root ctx segment (3 - n)) (getIndex ctx segment (n + 1)) >>> 12
        = wayNode s.frames root ctx segment (4 - n) := by
  have hbelow := reach_way hmaps hplaced segment hseg (4 - n)
  rw [take_path _ n hn] at hbelow
  rw [getIndex_eq]
  apply hmaps.shift_eq _ (reach_way hmaps hplaced segment hseg (3 - n)) hbelow
  rw [List.length_take]
  omega

-- what kind of frame it is: a table, or a page, which may be the one that was there before
theorem wayNode_frame (hstack : (.user, stackPfn) ∈ s.allocs) (hcode : (.user, codePfn) ∈ s.allocs) (k : Nat)
    (segment : Segment) (hseg : segment ≠ .rodata)
    : ∃ (pfn : U32), wayNode s.frames root ctx segment (4 - k) = pfn.setWidth 64
        ∧ ((region (k + 1), pfn) ∈ s.allocs ∨ k = 0 ∧ pfn = ctx.argPfn) := by
  have hreach := reach_way hmaps hplaced segment hseg (4 - k)
  by_cases hk : k = 0
  . subst hk
    obtain ⟨pfn, hpage, hcases⟩ := hplaced.pages_frame stackPfn codePfn segment hseg
    rw [← hmaps.leaf _ (length_path _ 4)] at hpage
    rw [List.take_of_length_le (Nat.le_of_eq (length_path _ 4))] at hreach
    refine ⟨pfn, Option.some.inj (hreach.symm.trans hpage), ?_⟩
    rcases hcases with h | h | h
    . rw [h]
      exact .inl hstack
    . rw [h]
      exact .inl hcode
    . exact .inr ⟨rfl, h⟩
  . have hlen := length_take_path (getIndex.va ctx segment) k
    obtain ⟨pfn, hmem, heq⟩ := hmaps.tables _ _ (by omega) hreach
    refine ⟨pfn, heq, .inl ?_⟩
    rw [region, if_pos (by omega)]
    exact hmem

theorem wayNode_ne (hhonest : Honest ctx.argPfn s.allocs) (hstack : (.user, stackPfn) ∈ s.allocs)
    (hcode : (.user, codePfn) ∈ s.allocs) {j k : Nat} (hjk : j < k) (hk : k ≤ 4) {a b : Segment}
    (ha : a ≠ .rodata) (hb : b ≠ .rodata)
    : wayNode s.frames root ctx a (4 - k) ≠ wayNode s.frames root ctx b (4 - j) := by
  intro heq
  by_cases hj : j = 0
  . -- a table is no page
    obtain ⟨pfn, hpfn, htable⟩ := wayNode_frame hmaps hplaced hstack hcode k a ha
    obtain ⟨pfn', hpfn', hpage⟩ := wayNode_frame hmaps hplaced hstack hcode j b hb
    have hsame : pfn = pfn' := setWidth_inj (by rw [← hpfn, ← hpfn', heq])
    subst hsame
    have htable' : (.osPt, pfn) ∈ s.allocs := by
      cases htable with
      | inl hmem =>
        rw [region, if_pos (by omega)] at hmem
        exact hmem
      | inr harg => omega
    cases hpage with
    | inl hmem =>
      rw [region, if_neg (by omega)] at hmem
      cases hhonest.inj htable' hmem
    | inr harg => exact hhonest.arg _ htable' harg.2
  . have hreach := reach_way hmaps hplaced a ha (4 - k)
    have hreach' := reach_way hmaps hplaced b hb (4 - j)
    rw [← heq] at hreach'
    have hlen := length_take_path (getIndex.va ctx a) k
    have hlen' := length_take_path (getIndex.va ctx b) j
    have hpaths := congrArg List.length
      (hmaps.unshared _ _ _ (by omega) (by omega) hreach hreach')
    omega

theorem wayNode_data : wayNode s.frames root ctx .data 4 = ctx.argPfn.setWidth 64 := by
  have hreach := reach_way hmaps hplaced .data nofun 4
  rw [List.take_of_length_le (Nat.le_of_eq (length_path _ 4)), hmaps.leaf _ (length_path _ 4), Context.pages,
    Function.update_self] at hreach
  exact (Option.some.inj hreach).symm

theorem Memory.Placed.released {a : Region × U32} (h : s.Placed ctx root a)
    : (a.1, a.2.setWidth 64) = (Region.osPt, root)
        ∨ (a.1, a.2.setWidth 64) ∈ released (wayNode s.frames root ctx) 4 := by
  obtain ⟨segment, q, hseg, hq, hreach, hregion⟩ := h
  have hlen := hq.length_le
  rw [length_path] at hlen
  rw [List.prefix_iff_eq_take] at hq
  rw [hq, reach_way hmaps hplaced segment hseg, Option.some.injEq] at hreach
  by_cases hzero : q.length = 0
  . left
    rw [hzero] at hreach
    rw [hregion, if_pos (by omega), ← hreach]
    rfl
  . right
    rw [mem_released]
    refine ⟨4 - q.length, segment, by omega, hseg, ?_, ?_⟩
    . simp only
      rw [hregion, region]
      by_cases hlast : q.length < 4
      . rw [if_pos hlast, if_pos (by omega)]
      . rw [if_neg hlast, if_neg (by omega)]
    . have hdepth : 4 - (4 - q.length) = q.length := by omega
      rw [hdepth, hreach]

end WayNode

theorem no_read_later {fs : List (Region × U64)} {reads later earlier : List Access} {r : Region} {pfn : U64}
    (hreads : ∀ (a : Access), a ∈ reads → a.freed = none)
    (h : fs.map (fun f => .free f.1 f.2) ++ reads = later ++ .free r pfn :: earlier) (table : Frame)
    : .read table ∉ later := by
  intro hmem
  rw [List.append_eq_append_iff] at h
  cases h with
  | inl h =>
    obtain ⟨rest, -, hrest⟩ := h
    have hfree : Access.free r pfn ∈ reads := by
      rw [hrest]
      simp
    cases hreads _ hfree
  | inr h =>
    obtain ⟨rest, hlater, -⟩ := h
    have hfree : Access.read table ∈ fs.map (fun f => Access.free f.1 f.2) := by
      rw [hlater]
      exact List.mem_append_left rest hmem
    rw [List.mem_map] at hfree
    obtain ⟨f, -, heq⟩ := hfree
    cases heq

/--
All that `prepare_context_mm` has allocated is given back, and so is the frame of the arguments, each frame once
and to its region; no table is read after it has been given back.
-/
theorem cleanupContextMm_frees {alloc : Allocator} {ctx : Context} (frames : Tables)
    (harg : ctx.argPfn.toNat < 2 ^ 20) (hplaced : ctx.Placed)
    (hhonest : Honest ctx.argPfn (prepareContextMm alloc ctx ⟨frames, []⟩).2.allocs)
    : let ctx' := (prepareContextMm alloc ctx ⟨frames, []⟩).1
      let s := (prepareContextMm alloc ctx ⟨frames, []⟩).2
      let trace := (cleanupContextMm ctx' ⟨s.frames, []⟩).trace
      ((frees trace).map Prod.snd).Nodup
      ∧ (∀ (region : Region) (pfn : U64), (region, pfn) ∈ frees trace
        ↔ (region = .user ∧ pfn = ctx.argPfn.setWidth 64
          ∨ ∃ (a : U32), (region, a) ∈ s.allocs ∧ pfn = a.setWidth 64))
      ∧ ∀ (later earlier : List Access) (region : Region) (pfn : U64),
          trace = later ++ .free region pfn :: earlier → .read pfn ∉ later := by
  intro ctx' s trace
  obtain ⟨stackPfn, codePfn, hmaps, hstack, hcode, -, hplaces⟩ := prepareContextMm_maps harg hplaced hhonest
  let node : Nodes := wayNode s.frames (ctx'.pgd.setWidth 64) ctx
  obtain ⟨reads, hreads, hclean⟩ := cleanPageTable_trace ctx' node 4 ⟨s.frames, []⟩ (by omega)
    (fun n segment hn hseg => wayNode_next hmaps hplaced n hn segment hseg)
  have htrace : trace
      = ((Region.osPt, ctx'.pgd.setWidth 64) :: released node 4).map (fun f => .free f.1 f.2) ++ reads := by
    rw [List.append_nil] at hclean
    rw [List.map_cons, List.cons_append, ← hclean]
    rfl
  have hfrees : frees trace = (Region.osPt, ctx'.pgd.setWidth 64) :: released node 4 := by
    rw [htrace, frees_append, frees_map, frees_reads hreads, List.append_nil]
  have hne : ∀ (j k : Nat) (a b : Segment), j < k → k ≤ 4 → a ≠ .rodata → b ≠ .rodata
      → node a (4 - k) ≠ node b (4 - j) :=
    fun j k a b hjk hk ha hb => wayNode_ne hmaps hplaced hhonest hstack hcode hjk hk ha hb
  have hroot : ∀ (segment : Segment), node segment 0 = ctx'.pgd.setWidth 64 := fun _ => rfl
  refine ⟨?_, ?_, ?_⟩
  . rw [hfrees, List.map_cons, List.nodup_cons]
    constructor
    . rw [List.mem_map]
      rintro ⟨f, hf, heq⟩
      obtain ⟨k, segment, hk, hseg, -, hnode⟩ := (mem_released 4 f).mp hf
      apply hne k 4 .stack segment hk (Nat.le_refl 4) nofun hseg
      rw [← hnode, heq]
      exact hroot .stack
    . apply nodup_released
      intro j k a b hjk hk
      exact hne j k a b hjk (by omega)
  . intro region pfn
    rw [hfrees, List.mem_cons, mem_released]
    constructor
    . rintro (heq | ⟨k, segment, hk, hseg, hregion, hnode⟩)
      . cases heq
        obtain ⟨q, hmem, heq⟩ := hmaps.tables [] _ (by decide) rfl
        exact .inr ⟨q, hmem, heq⟩
      . obtain ⟨q, hq, hcases⟩ := wayNode_frame hmaps hplaced hstack hcode k segment hseg
        simp only at hregion hnode
        rw [hregion, hnode]
        cases hcases with
        | inl hmem => exact .inr ⟨q, hmem, hq⟩
        | inr hpage =>
          obtain ⟨rfl, rfl⟩ := hpage
          exact .inl ⟨rfl, hq⟩
    . rintro (⟨hregion, hpfn⟩ | ⟨a, ha, hpfn⟩)
      . right
        refine ⟨0, .data, by omega, nofun, hregion, ?_⟩
        simp only
        rw [hpfn]
        exact (wayNode_data hmaps hplaced).symm
      . rw [← mem_released, hpfn]
        rcases hplaces _ ha with hpgd | hmem | hplace
        . left
          rw [Prod.mk.injEq] at hpgd
          rw [hpgd.1, hpgd.2]
        . cases hmem
        . exact hplace.released hmaps hplaced
  . intro later earlier region pfn heq
    rw [htrace] at heq
    exact no_read_later hreads heq pfn

theorem cleanupContextMm_frees_sample
    : let ctx' := (prepareContextMm ascending sample ⟨fun _ _ => 0x7#64, []⟩).1
      let s := (prepareContextMm ascending sample ⟨fun _ _ => 0x7#64, []⟩).2
      let trace := (cleanupContextMm ctx' ⟨s.frames, []⟩).trace
      ((frees trace).map Prod.snd).Nodup ∧ (Region.user, 0x6400#64) ∈ frees trace := by
  intro ctx' s trace
  obtain ⟨hnodup, hmem, -⟩ := cleanupContextMm_frees (fun _ _ => 0x7#64) (by decide) sample_placed sample_honest
  exact ⟨hnodup, (hmem .user 0x6400#64).mpr (.inl ⟨rfl, rfl⟩)⟩

end Paging
