import CS330.Lib.Bitmap
import CS330.Lib.Bytes

/-!
This module contains the data model of the object store in `assignment-4`: the constants and records of
`objstore.c` and `lib.h`, the disk and cache they live next to, and what the environment may do.
-/

namespace ObjStore

abbrev blockSize : Nat := 4096
abbrev cacheSize : Nat := 128 * 1024 * 1024
abbrev keySize : Nat := 32
abbrev maxObjs : Nat := 1000000
abbrev objBmpLn : Nat := maxObjs / 64 + 1
abbrev blkBmpLn : Nat := (32 * 1024 * 1024) / (4 * 64)
abbrev maxSize : Nat := blockSize * (4 + 4 * 1024)
abbrev blkBmpBlocks : Nat := 256
abbrev objPerBlock : Nat := 50
abbrev objBlocks : Nat := 20000
abbrev resBlocks : Nat := blkBmpBlocks + objBlocks
abbrev cacheLen : Nat := cacheSize / blockSize

abbrev Block := Buf blockSize

-- Block numbers are `uint32_t`; 0 is the null pointer.
abbrev BlockNo := BitVec 32

-- Index into the object array; the object id is two more.
abbrev Slot := Fin maxObjs

structure Obj where
  size : BitVec 64
  key : Buf keySize
  direct : Fin 4 → BlockNo
  indirect : Fin 4 → BlockNo

inductive Mutex where
  | objCl
  | objBmp
  | blkBmp
  | ch
  | rd
  deriving DecidableEq, Repr

/-- What an operation does that its caller cannot see in the object data. -/
inductive Event where
  | readBlock (b : BlockNo) (ok : Bool)
  | writeBlock (b : BlockNo) (ok : Bool)
  | cmalloc (ok : Bool)
  | noSpace
  | lock (m : Mutex)
  | unlock (m : Mutex)
  deriving DecidableEq, Repr

/-- `struct pointers`, the block cache and the disk behind `struct objfs_state`, and the events so far. -/
structure World where
  objects : Slot → Obj
  objBmp : Bitmap objBmpLn
  blkBmp : Bitmap blkBmpLn
  cacheInfo : Fin cacheLen → BlockNo
  cache : Fin cacheLen → Block
  disk : BlockNo → Block
  log : List Event

/--
How the program was built and what its environment does: `fails n` says whether the block transfer or
page allocation requested after `n` events fails, `junk n` is what a failed read leaves in its buffer.
-/
structure Env where
  cached : Bool
  fails : Nat → Bool
  junk : Nat → Block

def Env.Reliable (env : Env) : Prop :=
  ∀ (n : Nat), env.fails n = false

inductive Fault where
  | tempOverrun
  | nullPointer
  | outOfBounds
  deriving DecidableEq, Repr

/--
A `const char *` argument: the memory from the pointer on, which holds a string of length `len`. What
follows the terminator is part of the argument since `memcpy` may read it.
-/
structure CStr where
  mem : Nat → Byte
  len : Nat
  nul : mem len = 0#8
  nonzero : ∀ (k : Nat), k < len → mem k ≠ 0#8

namespace CStr

def chars (s : CStr) : List Byte :=
  (List.range s.len).map s.mem

-- `strcmp(p, s) == 0` for the string that starts at `p`.
def strcmp (p : Nat → Byte) (s : CStr) : Bool :=
  (List.range (s.len + 1)).all (fun k => p k == s.mem k)

end CStr

namespace Obj

def zero : Obj where
  size := 0#64
  key := Buf.zero keySize
  direct := fun _ => 0#32
  indirect := fun _ => 0#32

abbrev sizeof : Nat := 72

def byte (o : Obj) (k : Nat) : Byte :=
  if k < 8 then LE.byte o.size k
  else if h : k < 40 then o.key ⟨k - 8, show k - 8 < 32 by omega⟩
  else if h : k < 56 then LE.byte (o.direct ⟨(k - 40) / 4, by omega⟩) ((k - 40) % 4)
  else if h : k < 72 then LE.byte (o.indirect ⟨(k - 56) / 4, by omega⟩) ((k - 56) % 4)
  else 0#8

def ofBytes (f : Nat → Byte) : Obj where
  size := LE.word 64 f 8
  key := fun i => f (8 + i)
  direct := fun i => LE.word 32 (fun k => f (40 + 4 * i + k)) 4
  indirect := fun i => LE.word 32 (fun k => f (56 + 4 * i + k)) 4

def setByte (o : Obj) (k : Nat) (v : Byte) : Obj :=
  ofBytes (fun i => if i = k then v else o.byte i)

end Obj

namespace World

def emit (w : World) (e : Event) : World :=
  { w with log := e :: w.log }

def lock (w : World) (m : Mutex) : World :=
  w.emit (.lock m)

def unlock (w : World) (m : Mutex) : World :=
  w.emit (.unlock m)

-- Some call of `alloc_block` found no free block.
def Exhausted (w : World) : Prop :=
  Event.noSpace ∈ w.log

def setObj (w : World) (o : Slot) (obj : Obj) : World :=
  { w with objects := Function.update w.objects o obj }

def objMem (w : World) (addr : Nat) : Byte :=
  if h : addr < Obj.sizeof * maxObjs then
    (w.objects ⟨addr / Obj.sizeof, Nat.div_lt_of_lt_mul h⟩).byte (addr % Obj.sizeof)
  else
    let a := addr - Obj.sizeof * maxObjs
    if h : a < 8 * objBmpLn then
      LE.byte (w.objBmp ⟨a / 8, Nat.div_lt_of_lt_mul h⟩) (a % 8)
    else
      let a := a - 8 * objBmpLn
      if h : a < 8 * blkBmpLn then
        LE.byte (w.blkBmp ⟨a / 8, Nat.div_lt_of_lt_mul h⟩) (a % 8)
      else
        0#8

end World

-- The disk as `init_disk.sh` makes it, before any mount.
def World.ofDisk (disk : BlockNo → Block) : World where
  objects := fun _ => Obj.zero
  objBmp := Bitmap.zero objBmpLn
  blkBmp := Bitmap.zero blkBmpLn
  cacheInfo := fun _ => 0#32
  cache := fun _ => Buf.zero blockSize
  disk := disk
  log := []

def blankDisk : BlockNo → Block :=
  fun _ => Buf.zero blockSize

end ObjStore
