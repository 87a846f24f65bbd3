import CS330.Lib.PageTable

/-!
This module contains `entry.c` of `gemOS-a2`: `SYSCALL_EXPAND` and `SYSCALL_SHRINK`, by which a segment is used
further or less and pages are taken out of the page tables, `SYSCALL_WRITE`, and the handler of page faults.
-/

namespace Entry

open PageTable

abbrev U64 := BitVec 64
abbrev U32 := BitVec 32

inductive Segment where
  | code
  | rodata
  | data
  | stack
  deriving DecidableEq, Repr

structure MmSegment where
  start : U64
  stop : U64
  nextFree : U64
  accessFlags : U32

-- the current context with the frames of its page tables, and what was passed to `os_pfn_free(USER_REG, .)`
structure State where
  mms : Segment → MmSegment
  pgd : U32
  frames : Tables
  freed : List U32

abbrev mapRd : U64 := 0x0
abbrev mapWr : U64 := 0x1

namespace doSyscall

def segment (param2 : U64) : Option Segment :=
  if param2 = mapRd then
    some .rodata
  else if param2 = mapWr then
    some .data
  else
    none

def setNextFree (s : State) (segment : Segment) (nextFree : U64) : State :=
  { s with mms := Function.update s.mms segment { s.mms segment with nextFree := nextFree } }

def expand (param1 param2 : U64) (s : State) : U64 × State :=
  match segment param2 with
  | none => (0, s)
  | some seg =>
    let m := s.mms seg
    if m.stop - m.nextFree < param1 <<< 12 then
      (0, s)
    else
      (m.nextFree, setNextFree s seg (m.nextFree + param1 <<< 12))

namespace shrink

-- the index is kept in a `u8`
def index (pageAddr : U64) (level : Nat) : Index :=
  ⟨(((pageAddr >>> (3 + 9 * level)) &&& 0x1FF#64).setWidth 8).toNat, by
    have := (((pageAddr >>> (3 + 9 * level)) &&& 0x1FF#64).setWidth 8).isLt
    omega⟩

-- the loop over the levels, down from a table of the given level
def unmap (pageAddr : U64) : Nat → Frame → State → State
  | 0, _, s => s
  | level + 1, table, s =>
    let e := s.frames table (index pageAddr (level + 1))
    if e &&& 0x1 = 0 then
      s
    else
      let pfn : U32 := ((e >>> 12) &&& 0xFFFFFFFFFF#64).setWidth 32
      if level + 1 > 1 then
        unmap pageAddr level (pfn.setWidth 64) s
      else
        { s with
          freed := pfn :: s.freed
          frames := Function.update s.frames table
            (Function.update (s.frames table) (index pageAddr (level + 1)) 0#64) }

-- The loop over the pages. It ends within 2 ^ 52 passes or not at all, since `page_addr` is back by then.
def loop (newNext : U64) : Nat → U64 → State → Option State
  | 0, _, _ => none
  | passes + 1, pageAddr, s =>
    if newNext ≤ pageAddr then
      loop newNext passes (pageAddr - 0x1000) (unmap pageAddr 4 (s.pgd.setWidth 64) s)
    else
      some s

end shrink

def shrink (param1 param2 : U64) (s : State) : Option (U64 × State) :=
  match segment param2 with
  | none => some (0, s)
  | some seg =>
    let m := s.mms seg
    if m.nextFree - m.start < param1 <<< 12 then
      some (0, s)
    else
      let newNext := m.nextFree - param1 <<< 12
      match shrink.loop newNext (2 ^ 52 + 1) m.nextFree s with
      | none => none
      | some s => some (newNext, setNextFree s seg newNext)

end doSyscall

inductive Op where
  | expand
  | shrink
  deriving DecidableEq, Repr

structure Call where
  op : Op
  param1 : U64
  param2 : U64

-- the value that is returned and the state after it, or `none` if the call does not return
def doSyscall (c : Call) (s : State) : Option (U64 × State) :=
  match c.op with
  | .expand => some (doSyscall.expand c.param1 c.param2 s)
  | .shrink => doSyscall.shrink c.param1 c.param2 s

-- Here the index is kept in a `u64`.
def tableIndex (va : U64) (level : Nat) : Index :=
  ⟨((va >>> (3 + 9 * level)) &&& 0x1FF#64).toNat, by
    rw [BitVec.toNat_and]
    exact Nat.lt_of_le_of_lt Nat.and_le_right (by decide)⟩

namespace doSyscall

namespace write

-- whether the loop over the levels gets to its end, from a table of the given level
def checkPage (frames : Tables) (temp : U64) : Nat → Frame → Bool
  | 0, _ => true
  | level + 1, table =>
    let e := frames table (tableIndex temp (level + 1))
    if e &&& 0x1 = 0 then
      false
    else
      checkPage frames temp level (e >>> 12)

-- What the loop over the pages ends with: `false` for a page that is not there, and nothing if `length`, which is
-- an `int`, overflows. Every pass takes at least one byte off a length of at most 1024.
def check (s : State) : Nat → U64 → Nat → Int → Option Bool
  | 0, _, _, _ => none
  | passes + 1, temp, offset, length =>
    if checkPage s.frames temp 4 (s.pgd.setWidth 64) then
      let length := length - (0x1000 - offset)
      if length < -2 ^ 31 then
        none
      else if 0 < length then
        check s passes (temp + 0x1000) 0 length
      else
        some true
    else
      some false

-- the addresses that are read from the index `i` on, which has `rest` values left
def output (param1 param2 : U64) : Nat → Nat → List U64
  | 0, _ => []
  | rest + 1, i =>
    if i < param2.toNat then
      (param1 + BitVec.ofNat 64 i) :: output param1 param2 rest (i + 1)
    else
      []

end write

-- the user addresses that are read, and what is returned; `none` if an `int` overflows
structure Written where
  reads : List U64
  result : Option U64
  deriving DecidableEq

def write (param1 param2 : U64) (s : State) : Written :=
  let offset := (param1 &&& 0xFFF).toNat
  let length := (param2.setWidth 32).toInt
  if 1024 < length then
    ⟨[], some (-1)⟩
  else
    match write.check s (1024 + 1) param1 offset length with
    | none => ⟨[], none⟩
    | some false => ⟨[], some (-1)⟩
    -- The index of the output is an `int`, too.
    | some true => ⟨write.output param1 param2 (2 ^ 31) 0, if param2.toNat < 2 ^ 31 then some param2 else none⟩

end doSyscall

-- What `os_pfn_alloc` returns: a frame for the page, and one for each level at which a table is missing.
structure PfnEnv where
  user : U32
  osPt : Nat → U32

namespace handlePageFault

-- The segment in which a page is added, or `none` when the process is ended.
def segment (mms : Segment → MmSegment) (vaddr error : U64) : Option Segment :=
  if error &&& 0x1 ≠ 0 then
    none
  else if (mms .data).start ≤ vaddr ∧ vaddr ≤ (mms .data).stop then
    if (mms .data).nextFree ≤ vaddr then
      none
    else
      some .data
  else if (mms .rodata).start ≤ vaddr ∧ vaddr ≤ (mms .rodata).stop then
    -- compared with the limit of the data segment
    if error &&& 0x2 ≠ 0 ∨ (mms .data).nextFree ≤ vaddr then
      none
    else
      some .rodata
  else if (mms .stack).start ≤ vaddr ∧ vaddr < (mms .stack).stop then
    some .stack
  else
    none

def setEntry (s : State) (table : Frame) (index : Index) (e : Word) : State :=
  { s with frames := Function.update s.frames table (Function.update (s.frames table) index e) }

-- the loop over the levels, down from a table of the given level
def map (env : PfnEnv) (vaddr : U64) (accessFlags : U32) : Nat → Frame → State → State
  | 0, _, s => s
  | level + 1, table, s =>
    let index := tableIndex vaddr (level + 1)
    let s :=
      if s.frames table index &&& 0x1 = 0 then
        let pfn := if level + 1 = 1 then env.user else env.osPt (level + 1)
        let s := setEntry s table index ((pfn <<< 12).setWidth 64)
        setEntry s table index (s.frames table index ||| 0x5)
      else
        s
    let s := setEntry s table index (s.frames table index ||| (accessFlags &&& 0x2).setWidth 64)
    map env vaddr accessFlags level (s.frames table index >>> 12) s

end handlePageFault

-- `do_exit` is called, or the process goes on
inductive Handled where
  | exited (s : State)
  | resumed (s : State)

def handlePageFault (env : PfnEnv) (vaddr error : U64) (s : State) : Handled :=
  match handlePageFault.segment s.mms vaddr error with
  | none => .exited s
  | some segment => .resumed (handlePageFault.map env vaddr (s.mms segment).accessFlags 4 (s.pgd.setWidth 64) s)

end Entry
