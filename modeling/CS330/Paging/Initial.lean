import CS330.Paging.Lemmas

/-!
This module contains the address space that `prepare_context_mm` builds: three pages, each with the permission of
its segment.
-/

namespace Paging

open PageTable Radix

variable {alloc : Allocator} {ctx : Context} {segment : Segment} {s : Memory} {root f : Frame}
  {leaves : List Index → Option Leaf} {p : List Index}

theorem createPageTableEntry_last (h : Maps s.frames root s.Owned leaves) (hp : p.length = 3)
    (hf : reach child s.frames root p = some f)
    (hw : (ctx.mms segment).writable = true → Along s.frames writable root p)
    (habsent : present (s.frames f (getIndex ctx segment 1)) = false) (harg : ctx.argPfn.toNat < 2 ^ 20)
    (hhonest : Honest ctx.argPfn (createPageTableEntry alloc ctx segment 1 f s).allocs)
    : ∃ (pfn : U32),
        Maps (createPageTableEntry alloc ctx segment 1 f s).frames root
          (createPageTableEntry alloc ctx segment 1 f s).Owned
          (Function.update leaves (p ++ [getIndex ctx segment 1])
            (some ⟨pfn.setWidth 64, (ctx.mms segment).writable⟩))
        ∧ (segment = .data → pfn = ctx.argPfn)
        ∧ (segment ≠ .data → (.user, pfn) ∈ (createPageTableEntry alloc ctx segment 1 f s).allocs
          ∧ ∀ (a : Region × U32), a ∈ s.allocs → a.2 ≠ pfn)
        ∧ s.Extends root (p ++ [getIndex ctx segment 1]) (createPageTableEntry alloc ctx segment 1 f s) := by
  rw [createPageTableEntry_one] at hhonest ⊢
  obtain ⟨pfn, hdata, hother, hentry, hsame⟩ := advance_page alloc habsent
  have hbound : pfn.toNat < 2 ^ 20 := by
    by_cases hseg : segment = .data
    . rw [(hdata hseg).1]
      exact harg
    . apply hhonest.below (.user, pfn)
      rw [hother hseg]
      exact List.mem_cons_self
  have howned : (createPageTableEntry.advance alloc ctx segment 1 f s).Owned = s.Owned := by
    funext f'
    unfold Memory.Owned
    by_cases hseg : segment = .data
    . rw [(hdata hseg).2]
    . rw [hother hseg]
      simp
  have hadd : Added s.frames (createPageTableEntry.advance alloc ctx segment 1 f s).frames s.Owned p f
      (pfn.setWidth 64) (getIndex ctx segment 1) (ctx.mms segment).writable := by
    constructor
    . omega
    . exact toNat_setWidth_lt hbound
    . exact habsent
    . rw [hentry, pfnEntry, setWidth_shift hbound]
      rfl
    . intro hlt
      omega
    . intro hlt
      omega
    . intro f' j _ hoff
      exact hsame f' j hoff
  refine ⟨pfn, ?_, ?_, ?_, ?_⟩
  . rw [howned]
    exact h.place hf hp hadd hw
  . intro hseg
    exact (hdata hseg).1
  . intro hseg
    rw [hother hseg] at hhonest ⊢
    refine ⟨List.mem_cons_self, ?_⟩
    intro a ha heq
    have hnodup := hhonest.nodup
    rw [List.map_cons, List.nodup_cons] at hnodup
    apply hnodup.1
    rw [List.mem_map]
    exact ⟨a, ha, heq⟩
  . apply Memory.Extends.of_added h hf hadd
    intro a ha
    by_cases hseg : segment = .data
    . rw [(hdata hseg).2] at ha
      exact .inl ha
    . rw [hother hseg, List.mem_cons] at ha
      cases ha with
      | inl heq =>
        subst heq
        exact .inr ⟨rfl, (if_neg (by omega)).symm⟩
      | inr hold => exact .inl hold

-- the recursion adds the page of the segment and nothing else; it is on the way there from `p` on
theorem createPageTableEntry_maps (levelNum : Nat)
    : ∀ (p : List Index) (f : Frame) (s : Memory),
        p ++ path (getIndex.va ctx segment) (levelNum + 1) = path (getIndex.va ctx segment) 4
        → reach child s.frames root p = some f
        → Maps s.frames root s.Owned leaves
        → leaves (path (getIndex.va ctx segment) 4) = none
        → ((ctx.mms segment).writable = true → Along s.frames writable root p)
        → ctx.argPfn.toNat < 2 ^ 20
        → Honest ctx.argPfn (createPageTableEntry alloc ctx segment (levelNum + 1) f s).allocs
        → ∃ (pfn : U32),
            Maps (createPageTableEntry alloc ctx segment (levelNum + 1) f s).frames root
              (createPageTableEntry alloc ctx segment (levelNum + 1) f s).Owned
              (Function.update leaves (path (getIndex.va ctx segment) 4)
                (some ⟨pfn.setWidth 64, (ctx.mms segment).writable⟩))
            ∧ (segment = .data → pfn = ctx.argPfn)
            ∧ (segment ≠ .data
              → (.user, pfn) ∈ (createPageTableEntry alloc ctx segment (levelNum + 1) f s).allocs
                ∧ ∀ (a : Region × U32), a ∈ s.allocs → a.2 ≠ pfn)
            ∧ s.Extends root (path (getIndex.va ctx segment) 4)
              (createPageTableEntry alloc ctx segment (levelNum + 1) f s) := by
  induction levelNum with
  | zero =>
    intro p f s hpath hf hmaps hnew hw harg hhonest
    have hp : p.length = 3 := by
      have := congrArg List.length hpath
      simp only [List.length_append, length_path] at this
      omega
    have hpath' : p ++ [getIndex ctx segment 1] = path (getIndex.va ctx segment) 4 := by
      rw [← hpath, getIndex_eq]
      rfl
    have habsent : present (s.frames f (getIndex ctx segment 1)) = false := by
      have hnone := hmaps.leaf (p ++ [getIndex ctx segment 1]) (by simp [hp])
      rw [reach_snoc_of hf, hpath', hnew] at hnone
      unfold child at hnone
      split at hnone
      . cases hnone
      . next hnot => simpa using hnot
    rw [← hpath']
    exact createPageTableEntry_last hmaps hp hf hw habsent harg hhonest
  | succ levelNum ih =>
    intro p f s hpath hf hmaps hnew hw harg hhonest
    have hp : p.length < 3 := by
      have := congrArg List.length hpath
      simp only [List.length_append, length_path] at this
      omega
    rw [createPageTableEntry_succ] at hhonest ⊢
    have hstep : let s' := createPageTableEntry.advance alloc ctx segment (levelNum + 2) f s
        let q := p ++ [getIndex ctx segment (levelNum + 2)]
        Maps s'.frames root s'.Owned leaves
        ∧ reach child s'.frames root q = some (s'.frames f (getIndex ctx segment (levelNum + 2)) >>> 12)
        ∧ ((ctx.mms segment).writable = true → Along s'.frames writable root q)
        ∧ s.Extends root q s' := by
      cases hpresent : present (s.frames f (getIndex ctx segment (levelNum + 2))) with
      | true => exact step_present alloc hmaps hp hf hw hpresent
      | false =>
        apply step_absent alloc hmaps hp hf hw hpresent
        obtain ⟨new, hallocs⟩ := createPageTableEntry_allocs alloc ctx segment (levelNum + 1)
          ((createPageTableEntry.advance alloc ctx segment (levelNum + 2) f s).frames f
            (getIndex ctx segment (levelNum + 2)) >>> 12)
          (createPageTableEntry.advance alloc ctx segment (levelNum + 2) f s)
        rw [hallocs] at hhonest
        rw [← advance_table_allocs alloc hpresent]
        exact hhonest.of_append
    obtain ⟨hmaps', hf', hw', hextends⟩ := hstep
    have hpath' : p ++ [getIndex ctx segment (levelNum + 2)] ++ path (getIndex.va ctx segment) (levelNum + 1)
        = path (getIndex.va ctx segment) 4 := by
      rw [← hpath, getIndex_eq, List.append_assoc]
      rfl
    obtain ⟨pfn, hresult, hdata, hother, hrest⟩ := ih _ _ _ hpath' hf' hmaps' hnew hw' harg hhonest
    refine ⟨pfn, hresult, hdata, ?_, ?_⟩
    . intro hseg
      refine ⟨(hother hseg).1, ?_⟩
      intro a ha
      apply (hother hseg).2
      obtain ⟨new, hallocs⟩ := advance_allocs alloc ctx segment (levelNum + 2) f s
      rw [hallocs]
      exact List.mem_append_right new ha
    . have hway : p ++ [getIndex ctx segment (levelNum + 2)] <+: path (getIndex.va ctx segment) 4 :=
        ⟨_, hpath'⟩
      exact (hextends.mono hway).trans hrest (Nat.le_of_eq (length_path _ 4))

namespace Context

-- the three addresses lie below 2 ^ 48 and in different pages
structure Placed (ctx : Context) : Prop where
  below : ∀ (segment : Segment), segment ≠ .rodata → (getIndex.va ctx segment).toNat < 2 ^ 48
  distinct : ∀ (a b : Segment), a ≠ .rodata → b ≠ .rodata → a ≠ b
    → getIndex.va ctx a >>> 12 ≠ getIndex.va ctx b >>> 12

theorem Placed.path_ne (h : ctx.Placed) {a b : Segment} (ha : a ≠ .rodata) (hb : b ≠ .rodata) (hne : a ≠ b)
    : path (getIndex.va ctx a) 4 ≠ path (getIndex.va ctx b) 4 := by
  intro heq
  rw [path_eq_iff (h.below a ha) (h.below b hb)] at heq
  exact h.distinct a b ha hb hne heq

end Context

theorem maps_clear (s : Memory) (pgd : U32) (hmem : (Region.osPt, pgd) ∈ s.allocs)
    : Maps (s.clear (pgd.setWidth 64)).frames (pgd.setWidth 64) (s.clear (pgd.setWidth 64)).Owned
        (fun _ => none) := by
  apply Maps.empty
  . intro i
    simp [Memory.clear, present]
  . exact ⟨pgd, hmem, rfl⟩

theorem createPageTableEntry_root {pgd : U32} (h : Maps s.frames (pgd.setWidth 64) s.Owned leaves)
    (hnew : leaves (path (getIndex.va ctx segment) 4) = none) (harg : ctx.argPfn.toNat < 2 ^ 20)
    (hhonest : Honest ctx.argPfn (createPageTableEntry alloc ctx segment 4 (pgd.setWidth 64) s).allocs)
    : ∃ (pfn : U32),
        Maps (createPageTableEntry alloc ctx segment 4 (pgd.setWidth 64) s).frames (pgd.setWidth 64)
          (createPageTableEntry alloc ctx segment 4 (pgd.setWidth 64) s).Owned
          (Function.update leaves (path (getIndex.va ctx segment) 4)
            (some ⟨pfn.setWidth 64, (ctx.mms segment).writable⟩))
        ∧ (segment = .data → pfn = ctx.argPfn)
        ∧ (segment ≠ .data
          → (.user, pfn) ∈ (createPageTableEntry alloc ctx segment 4 (pgd.setWidth 64) s).allocs
            ∧ ∀ (a : Region × U32), a ∈ s.allocs → a.2 ≠ pfn)
        ∧ s.Extends (pgd.setWidth 64) (path (getIndex.va ctx segment) 4)
          (createPageTableEntry alloc ctx segment 4 (pgd.setWidth 64) s) := by
  apply createPageTableEntry_maps 3 [] (pgd.setWidth 64) s
  . rfl
  . rfl
  . exact h
  . exact hnew
  . intro _
    exact along_nil
  . exact harg
  . exact hhonest

-- what the three pages are mapped to
def Context.pages (ctx : Context) (stackPfn codePfn : U32) : List Index → Option Leaf :=
  Function.update (Function.update (Function.update (fun _ => none)
    (path (getIndex.va ctx .stack) 4) (some ⟨stackPfn.setWidth 64, (ctx.mms .stack).writable⟩))
    (path (getIndex.va ctx .code) 4) (some ⟨codePfn.setWidth 64, (ctx.mms .code).writable⟩))
    (path (getIndex.va ctx .data) 4) (some ⟨ctx.argPfn.setWidth 64, (ctx.mms .data).writable⟩)

-- on the way to one of the three pages the frame is found below `root`, above the last level if it is a table
def Memory.Placed (s : Memory) (ctx : Context) (root : Frame) (a : Region × U32) : Prop :=
  ∃ (segment : Segment) (q : List Index), segment ≠ .rodata ∧ q <+: path (getIndex.va ctx segment) 4
    ∧ reach child s.frames root q = some (a.2.setWidth 64) ∧ a.1 = if q.length < 4 then .osPt else .user

theorem Memory.Extends.all_placed {s s' : Memory} {old : List (Region × U32)}
    (h : s.Extends root (path (getIndex.va ctx segment) 4) s') (hseg : segment ≠ .rodata)
    (hold : ∀ (a : Region × U32), a ∈ s.allocs → a ∈ old ∨ s.Placed ctx root a)
    : ∀ (a : Region × U32), a ∈ s'.allocs → a ∈ old ∨ s'.Placed ctx root a := by
  intro a ha
  cases h.placed a ha with
  | inr hnew =>
    obtain ⟨q, hq, hreach⟩ := hnew
    exact .inr ⟨segment, q, hseg, hq, hreach⟩
  | inl hmem =>
    cases hold a hmem with
    | inl hmem => exact .inl hmem
    | inr hplaced =>
      obtain ⟨segment', q, hseg', hq, hreach, hregion⟩ := hplaced
      have hlen := hq.length_le
      rw [length_path] at hlen
      exact .inr ⟨segment', q, hseg', hq, h.kept q _ hlen hreach, hregion⟩

theorem createPageTableEntry_three {pgd : U32} (h : Maps s.frames (pgd.setWidth 64) s.Owned (fun _ => none))
    (harg : ctx.argPfn.toNat < 2 ^ 20) (hplaced : ctx.Placed)
    : let s₁ := createPageTableEntry alloc ctx .stack 4 (pgd.setWidth 64) s
      let s₂ := createPageTableEntry alloc ctx .code 4 (pgd.setWidth 64) s₁
      let s₃ := createPageTableEntry alloc ctx .data 4 (pgd.setWidth 64) s₂
      Honest ctx.argPfn s₃.allocs
        → ∃ (stackPfn codePfn : U32),
            Maps s₃.frames (pgd.setWidth 64) s₃.Owned (ctx.pages stackPfn codePfn)
            ∧ (.user, stackPfn) ∈ s₃.allocs ∧ (.user, codePfn) ∈ s₃.allocs ∧ stackPfn ≠ codePfn
            ∧ ∀ (a : Region × U32), a ∈ s₃.allocs → a ∈ s.allocs ∨ s₃.Placed ctx (pgd.setWidth 64) a := by
  intro s₁ s₂ s₃ hhonest₃
  obtain ⟨new₂, hallocs₂⟩ := createPageTableEntry_allocs alloc ctx .code 4 (pgd.setWidth 64) s₁
  obtain ⟨new₃, hallocs₃⟩ := createPageTableEntry_allocs alloc ctx .data 4 (pgd.setWidth 64) s₂
  have hhonest₂ : Honest ctx.argPfn s₂.allocs := by
    simp only [s₃] at hhonest₃
    rw [hallocs₃] at hhonest₃
    exact hhonest₃.of_append
  have hhonest₁ : Honest ctx.argPfn s₁.allocs := by
    simp only [s₂] at hhonest₂
    rw [hallocs₂] at hhonest₂
    exact hhonest₂.of_append
  have hcode_stack : path (getIndex.va ctx .code) 4 ≠ path (getIndex.va ctx .stack) 4 :=
    hplaced.path_ne nofun nofun nofun
  have hdata_stack : path (getIndex.va ctx .data) 4 ≠ path (getIndex.va ctx .stack) 4 :=
    hplaced.path_ne nofun nofun nofun
  have hdata_code : path (getIndex.va ctx .data) 4 ≠ path (getIndex.va ctx .code) 4 :=
    hplaced.path_ne nofun nofun nofun
  obtain ⟨stackPfn, hmaps₁, -, hstack, hextends₁⟩ := createPageTableEntry_root h rfl harg hhonest₁
  obtain ⟨codePfn, hmaps₂, -, hcode, hextends₂⟩ := createPageTableEntry_root hmaps₁
    (by rw [Function.update_of_ne hcode_stack]) harg hhonest₂
  obtain ⟨dataPfn, hmaps₃, hdata, -, hextends₃⟩ := createPageTableEntry_root hmaps₂
    (by rw [Function.update_of_ne hdata_code, Function.update_of_ne hdata_stack]) harg hhonest₃
  have hstackMem := (hstack nofun).1
  have hcodeMem := (hcode nofun).1
  refine ⟨stackPfn, codePfn, ?_, ?_, ?_, ?_, ?_⟩
  . rw [hdata rfl] at hmaps₃
    exact hmaps₃
  . simp only [s₃]
    rw [hallocs₃]
    apply List.mem_append_right
    simp only [s₂]
    rw [hallocs₂]
    exact List.mem_append_right new₂ hstackMem
  . simp only [s₃]
    rw [hallocs₃]
    exact List.mem_append_right new₃ hcodeMem
  . exact (hcode nofun).2 (.user, stackPfn) hstackMem
  . apply hextends₃.all_placed nofun
    apply hextends₂.all_placed nofun
    apply hextends₁.all_placed nofun
    intro a ha
    exact .inl ha

theorem prepareContextMm_maps (harg : ctx.argPfn.toNat < 2 ^ 20) (hplaced : ctx.Placed)
    (hhonest : Honest ctx.argPfn (prepareContextMm alloc ctx s).2.allocs)
    : ∃ (stackPfn codePfn : U32),
        Maps (prepareContextMm alloc ctx s).2.frames ((prepareContextMm alloc ctx s).1.pgd.setWidth 64)
          (prepareContextMm alloc ctx s).2.Owned (ctx.pages stackPfn codePfn)
        ∧ (.user, stackPfn) ∈ (prepareContextMm alloc ctx s).2.allocs
        ∧ (.user, codePfn) ∈ (prepareContextMm alloc ctx s).2.allocs
        ∧ stackPfn ≠ codePfn
        ∧ ∀ (a : Region × U32), a ∈ (prepareContextMm alloc ctx s).2.allocs
          → a = (.osPt, (prepareContextMm alloc ctx s).1.pgd) ∨ a ∈ s.allocs
            ∨ (prepareContextMm alloc ctx s).2.Placed ctx ((prepareContextMm alloc ctx s).1.pgd.setWidth 64) a := by
  have hempty := maps_clear { s with allocs := (.osPt, alloc s.allocs.length .osPt) :: s.allocs }
    (alloc s.allocs.length .osPt) List.mem_cons_self
  have hplaced' : Context.Placed { ctx with pgd := alloc s.allocs.length .osPt } :=
    ⟨hplaced.below, hplaced.distinct⟩
  have harg' : (Context.argPfn { ctx with pgd := alloc s.allocs.length .osPt }).toNat < 2 ^ 20 := harg
  obtain ⟨stackPfn, codePfn, hmaps, hstack, hcode, hne, hplaces⟩ :=
    createPageTableEntry_three hempty harg' hplaced' hhonest
  refine ⟨stackPfn, codePfn, hmaps, hstack, hcode, hne, ?_⟩
  intro a ha
  cases hplaces a ha with
  | inl hmem => exact (List.mem_cons.mp hmem).imp_right .inl
  | inr hplace => exact .inr (.inr hplace)

-- what an address of 48 bits is translated to
def Context.translation (ctx : Context) (stackPfn codePfn : U32) (va : Word) : Option Mapping :=
  if va >>> 12 = getIndex.va ctx .data >>> 12 then
    some ⟨ctx.argPfn.setWidth 64, (ctx.mms .data).writable, true⟩
  else if va >>> 12 = getIndex.va ctx .code >>> 12 then
    some ⟨codePfn.setWidth 64, (ctx.mms .code).writable, true⟩
  else if va >>> 12 = getIndex.va ctx .stack >>> 12 then
    some ⟨stackPfn.setWidth 64, (ctx.mms .stack).writable, true⟩
  else
    none

theorem Context.Placed.pages_eq (h : ctx.Placed) (stackPfn codePfn : U32) {va : Word} (hva : va.toNat < 2 ^ 48)
    : (ctx.pages stackPfn codePfn (path va 4)).map (fun leaf => ⟨leaf.frame, leaf.writable, true⟩)
        =
      ctx.translation stackPfn codePfn va := by
  have hiff : ∀ (segment : Segment), segment ≠ .rodata
      → (path va 4 = path (getIndex.va ctx segment) 4 ↔ va >>> 12 = getIndex.va ctx segment >>> 12) := by
    intro segment hseg
    exact path_eq_iff hva (h.below segment hseg)
  unfold Context.pages Context.translation
  simp only [Function.update_apply, hiff .data nofun, hiff .code nofun, hiff .stack nofun]
  split
  . rfl
  . split
    . rfl
    . split
      . rfl
      . rfl

theorem prepareContextMm_walk (frames : Tables) (harg : ctx.argPfn.toNat < 2 ^ 20) (hplaced : ctx.Placed)
    (hhonest : Honest ctx.argPfn (prepareContextMm alloc ctx ⟨frames, []⟩).2.allocs)
    : ∃ (stackPfn codePfn : U32),
        (.user, stackPfn) ∈ (prepareContextMm alloc ctx ⟨frames, []⟩).2.allocs
        ∧ (.user, codePfn) ∈ (prepareContextMm alloc ctx ⟨frames, []⟩).2.allocs
        ∧ stackPfn ≠ codePfn
        ∧ ∀ (va : Word), va.toNat < 2 ^ 48
          → walk (prepareContextMm alloc ctx ⟨frames, []⟩).2.frames va 4
              ((prepareContextMm alloc ctx ⟨frames, []⟩).1.pgd.setWidth 64)
              =
            ctx.translation stackPfn codePfn va := by
  obtain ⟨stackPfn, codePfn, hmaps, hstack, hcode, hne, -⟩ := prepareContextMm_maps harg hplaced hhonest
  refine ⟨stackPfn, codePfn, hstack, hcode, hne, ?_⟩
  intro va hva
  rw [hmaps.walk_eq va]
  exact hplaced.pages_eq stackPfn codePfn hva

-- the segments where `context.h` puts them; only the data and the stack can be written to
def sample : Context where
  pgd := 0
  mms := fun segment =>
    match segment with
    | .code => ⟨0x100000000, 0x100008000, 0x5⟩
    | .rodata => ⟨0x140000000, 0x180000000, 0x1⟩
    | .data => ⟨0x180000000, 0x200000000, 0x3⟩
    | .stack => ⟨0x7FF000000, 0x800000000, 0x3⟩
  argPfn := 0x6400

-- frames are handed out one after the other
def ascending : Allocator := fun n _ => BitVec.ofNat 32 (0x2000 + n)

theorem sample_placed : sample.Placed where
  below := by
    intro segment hseg
    cases segment <;> decide
  distinct := by
    intro a b _ _ hne
    cases a <;> cases b <;> first | decide | exact absurd rfl hne

theorem sample_honest
    : Honest sample.argPfn (prepareContextMm ascending sample ⟨fun _ _ => 0x7#64, []⟩).2.allocs := by
  constructor <;> decide +kernel

theorem prepareContextMm_walk_sample
    : ∃ (stackPfn codePfn : U32), stackPfn ≠ codePfn
        ∧ ∀ (va : Word), va.toNat < 2 ^ 48
          → walk (prepareContextMm (fun n _ => BitVec.ofNat 32 (0x2000 + n)) sample ⟨fun _ _ => 0x7#64, []⟩).2.frames
              va 4 0x2000
              =
            sample.translation stackPfn codePfn va := by
  obtain ⟨stackPfn, codePfn, -, -, hne, hwalk⟩ := prepareContextMm_walk (fun _ _ => 0x7#64) (by decide)
    sample_placed sample_honest
  exact ⟨stackPfn, codePfn, hne, hwalk⟩

end Paging
