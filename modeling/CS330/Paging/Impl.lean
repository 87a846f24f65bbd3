import CS330.Lib.PageTable

/-!
This module contains `context_mm.c` of `gemOS-a1`: how the page tables of a context are built and taken apart.
-/

namespace Paging

open PageTable

abbrev U64 := BitVec 64
abbrev U32 := BitVec 32

inductive Segment where
  | code
  | rodata
  | data
  | stack
  deriving DecidableEq, Repr

structure MmSegment where
  start : U64
  stop : U64
  accessFlags : U32

-- the fields of `struct exec_context` that the page tables are built from
structure Context where
  pgd : U32
  mms : Segment → MmSegment
  argPfn : U32

inductive Region where
  | osDs
  | osPt
  | user
  deriving DecidableEq, Repr

-- the frames as tables of 512 entries, and what `os_pfn_alloc` has returned, the latest first
structure Memory where
  frames : Tables
  allocs : List (Region × U32)

-- the frame that the `n`-th call of `os_pfn_alloc` returns
abbrev Allocator := Nat → Region → U32

def osPfnAlloc (alloc : Allocator) (region : Region) (s : Memory) : U32 × Memory :=
  let pfn := alloc s.allocs.length region
  (pfn, { s with allocs := (region, pfn) :: s.allocs })

namespace Memory

def set (s : Memory) (table : Frame) (index : Index) (e : Word) : Memory :=
  { s with frames := Function.update s.frames table (Function.update (s.frames table) index e) }

-- the loop that fills a table with zeros
def clear (s : Memory) (table : Frame) : Memory :=
  { s with frames := Function.update s.frames table (fun _ => 0#64) }

end Memory

variable (alloc : Allocator) (ctx : Context) (segment : Segment)

def getIndex.va : U64 :=
  if segment = .stack then (ctx.mms segment).stop - 0x1000 else (ctx.mms segment).start

def getIndex (levelNum : Nat) : Index :=
  ⟨((getIndex.va ctx segment >>> (levelNum * 9 + 3)) &&& 0x1FF#64).toNat, by
    rw [BitVec.toNat_and]
    exact Nat.lt_of_le_of_lt Nat.and_le_right (by decide)⟩

-- `u32 << 12`, stored in an entry of 64 bits
def pfnEntry (pfn : U32) : Word :=
  (pfn <<< 12).setWidth 64

-- what is done for an entry that is not present
def createPageTableEntry.fill (levelNum : Nat) (level : Frame) (s : Memory) : Memory :=
  let index := getIndex ctx segment levelNum
  let s :=
    if levelNum = 1 ∧ segment ≠ .data then
      let (pfn, s) := osPfnAlloc alloc .user s
      s.set level index (pfnEntry pfn)
    else if levelNum = 1 then
      s.set level index (pfnEntry ctx.argPfn)
    else
      let (pfn, s) := osPfnAlloc alloc .osPt s
      let s := s.set level index (pfn.setWidth 64)
      let nextLevel := s.frames level index
      let s := s.set level index (s.frames level index <<< 12)
      s.clear nextLevel
  s.set level index (s.frames level index ||| 0x5)

-- `level` is the frame of the table; the call for level 0 does not happen
def createPageTableEntry : Nat → Frame → Memory → Memory
  | 0, _, s => s
  | levelNum + 1, level, s =>
    let index := getIndex ctx segment (levelNum + 1)
    let s :=
      if s.frames level index &&& 0x1 = 0 then
        createPageTableEntry.fill alloc ctx segment (levelNum + 1) level s
      else
        s
    let s := s.set level index (s.frames level index ||| ((ctx.mms segment).accessFlags &&& 0x2).setWidth 64)
    if levelNum + 1 ≠ 1 then
      createPageTableEntry levelNum (s.frames level index >>> 12) s
    else
      s

def prepareContextMm (s : Memory) : Context × Memory :=
  let (pgd, s) := osPfnAlloc alloc .osPt s
  let ctx := { ctx with pgd := pgd }
  let level4 : Frame := pgd.setWidth 64
  let s := s.clear level4
  let s := createPageTableEntry alloc ctx .stack 4 level4 s
  let s := createPageTableEntry alloc ctx .code 4 level4 s
  let s := createPageTableEntry alloc ctx .data 4 level4 s
  (ctx, s)

-- a table is read, or a frame is passed to `os_pfn_free`
inductive Access where
  | read (table : Frame)
  | free (region : Region) (pfn : U64)
  deriving DecidableEq, Repr

-- the tables that are taken apart, and what has been done so far, the latest first
structure Teardown where
  frames : Tables
  trace : List Access

def Teardown.pfnAt (table : Frame) (index : Index) (t : Teardown) : U64 × Teardown :=
  (t.frames table index >>> 12, { t with trace := .read table :: t.trace })

def osPfnFree (region : Region) (pfn : U64) (t : Teardown) : Teardown :=
  { t with trace := .free region pfn :: t.trace }

-- the tables of one level on the ways to the three pages
structure Levels where
  stack : Frame
  code : Frame
  data : Frame

def cleanPageTable : Nat → Levels → Teardown → Teardown
  | 0, _, t => t
  | levelNum + 1, levels, t =>
    let (nextStack, t) := t.pfnAt levels.stack (getIndex ctx .stack (levelNum + 1))
    let (nextCode, t) := t.pfnAt levels.code (getIndex ctx .code (levelNum + 1))
    let (nextData, t) := t.pfnAt levels.data (getIndex ctx .data (levelNum + 1))
    let (stackPfn, t) := t.pfnAt levels.stack (getIndex ctx .stack (levelNum + 1))
    let (codePfn, t) := t.pfnAt levels.code (getIndex ctx .code (levelNum + 1))
    let (dataPfn, t) := t.pfnAt levels.data (getIndex ctx .data (levelNum + 1))
    let (region, t) :=
      if levelNum + 1 ≠ 1 then
        (Region.osPt, cleanPageTable levelNum ⟨nextStack, nextCode, nextData⟩ t)
      else
        (Region.user, t)
    let t := osPfnFree region stackPfn t
    let t := if codePfn ≠ stackPfn then osPfnFree region codePfn t else t
    if dataPfn ≠ stackPfn ∧ dataPfn ≠ codePfn then osPfnFree region dataPfn t else t

def cleanupContextMm (t : Teardown) : Teardown :=
  let level4 : Frame := ctx.pgd.setWidth 64
  let t := cleanPageTable ctx 4 ⟨level4, level4, level4⟩ t
  osPfnFree .osPt (ctx.pgd.setWidth 64) t

end Paging
