import CS330.ObjStore.Impl.Objfs
import Mathlib.Algebra.GroupWithZero.Nat

/-!
This module contains `kvstore.c` of the test cases, a library that keeps values under keys in the files of the
mounted store, and the system calls that it makes. What a system call asks of the store is up to the kernel.
-/

namespace ObjStore

namespace Kvstore

open Objfs

-- What a file descriptor stands for.
structure File where
  path : Path
  fh : BitVec 64

/-- The system calls. They take the part of a path below the mount point; `none` stands for `-1`. -/
structure Posix where
  stat : Path → World → Except Fault (Option Stat × World)
  create : Path → World → Except Fault (Option File × World)
  openFile : Path → World → Except Fault (Option File × World)
  fstat : File → World → Except Fault (Option Stat × World)
  write : File → Mem → Nat → World → Except Fault (Option Nat × World)
  read : File → Mem → Nat → World → Except Fault (Option Nat × Mem × World)
  close : File → World → Except Fault World
  rename : Path → Path → World → Except Fault (Option Unit × World)
  unlink : Path → World → Except Fault (Option Unit × World)

-- One name, which is not taken for a way through directories.
def Plain (path : Path) : Prop :=
  47#8 ∉ path.key.chars ∧ path.key.chars ≠ [46#8] ∧ path.key.chars ≠ [46#8, 46#8]

instance (path : Path) : Decidable (Plain path) :=
  inferInstanceAs (Decidable (_ ∧ _))

-- What is left of `"../mnt/"` and the key below the mount point.
def makeKey (key : CStr) : Path where
  str := {
    mem := fun k => if k = 0 then 47#8 else key.mem (k - 1)
    len := key.len + 1
    nul := by simp [key.nul]
    nonzero := by
      intro k hk
      by_cases h0 : k = 0
      . simp [h0]
      . simp only [h0, ↓reduceIte]
        exact key.nonzero (k - 1) (by omega) }
  slash := rfl

def lookupKey (posix : Posix) (key : CStr) (w : World) : Except Fault (Int × World) := do
  match ← posix.stat (makeKey key) w with
  | (none, w) => return (-1, w)
  | (some sbuf, w) => return (sbuf.size.toInt, w)

-- `open` with `O_CREAT` and `O_EXCL`
def putKey (posix : Posix) (key : CStr) (val : Mem) (size : Nat) (w : World) : Except Fault (Int × World) := do
  match ← posix.create (makeKey key) w with
  | (none, w) => return (-1, w)
  | (some fd, w) =>
    match ← posix.write fd val size w with
    | (none, w) =>
      let w ← posix.close fd w
      return (-1, w)
    | (some _, w) =>
      let w ← posix.close fd w
      return (0, w)

-- The size is kept in an `int`. The value is left in `val`, which has to be big enough.
def getKey (posix : Posix) (key : CStr) (val : Mem) (w : World) : Except Fault (Int × Mem × World) := do
  match ← posix.openFile (makeKey key) w with
  | (none, w) => return (-1, val, w)
  | (some fd, w) =>
    match ← posix.fstat fd w with
    | (none, w) =>
      let w ← posix.close fd w
      return (-1, val, w)
    | (some sbuf, w) =>
      let size := (sbuf.size.setWidth 32).toInt
      let size := if size < 4096 then 4096 else size
      match ← posix.read fd val size.toNat w with
      | (none, val, w) =>
        let w ← posix.close fd w
        return (-1, val, w)
      | (some _, val, w) =>
        let w ← posix.close fd w
        return (0, val, w)

def renameKey (posix : Posix) (old new : CStr) (w : World) : Except Fault (Int × World) := do
  let (r, w) ← posix.rename (makeKey old) (makeKey new) w
  return (if r = none then -1 else 0, w)

def deleteKey (posix : Posix) (key : CStr) (w : World) : Except Fault (Int × World) := do
  let (r, w) ← posix.unlink (makeKey key) w
  return (if r = none then -1 else 0, w)

section Kernel

variable (objfs : Objfs) (env : Env)

-- The kernel looks a name up before it does anything else with it.
def lookup (path : Path) (w : World) : Except Fault (Option Stat × World) := do
  let (a, w) ← serve objfs env w (.getattr path)
  return (if a.value < 0 then none else a.stat, w)

-- A transfer is made in pieces; `sizes` has what is left of them, from position `offset` on.
def writePieces (fh : BitVec 64) (buf : Mem) : List Nat → Nat → World → Except Fault (Option Nat × World)
  | [], offset, w => return (some offset, w)
  | size :: sizes, offset, w => do
    let (a, w) ← serve objfs env w (.write (fun i => buf (offset + i)) size offset fh)
    if a.value < 0 then
      return (none, w)
    else
      writePieces fh buf sizes (offset + size) w

-- What has been read so far is in `pages`.
def readPieces (fh : BitVec 64) : List Nat → Nat → Mem → World → Except Fault (Option Mem × World)
  | [], _, pages, w => return (some pages, w)
  | size :: sizes, offset, pages, w => do
    let (a, w) ← serve objfs env w (.read (fun _ => 0#8) size offset fh)
    if a.value < 0 then
      return (none, w)
    else
      readPieces fh sizes (offset + size) (pages.copy offset (a.buf.getD (fun _ => 0#8)) size) w

-- Every piece begins at the start of a page.
def Paged : List Nat → Nat → Prop
  | [], _ => True
  | size :: sizes, offset => offset % blockSize = 0 ∧ 1 ≤ size ∧ size ≤ maxSize ∧ Paged sizes (offset + size)

/--
What the store relies on: which requests FUSE makes for a system call. A write is cut into pieces; a read is
made in whole pages, as many as hold the bytes that are wanted, and ends with the file.
-/
structure Over (posix : Posix) : Prop where
  stat_eq : ∀ (path : Path) (w : World), Plain path → posix.stat path w = lookup objfs env path w
  create_eq : ∀ (path : Path) (w : World), Plain path → posix.create path w = do
    match ← lookup objfs env path w with
    | (some _, w) => return (none, w)
    | (none, w) =>
      let (a, w) ← serve objfs env w (.create path)
      return (a.fh.map (File.mk path), w)
  openFile_eq : ∀ (path : Path) (w : World), Plain path → posix.openFile path w = do
    match ← lookup objfs env path w with
    | (none, w) => return (none, w)
    | (some _, w) =>
      let (a, w) ← serve objfs env w (.openFile path)
      return (a.fh.map (File.mk path), w)
  fstat_eq : ∀ (fd : File) (w : World), posix.fstat fd w = lookup objfs env fd.path w
  write_eq : ∀ (fd : File) (buf : Mem) (n : Nat), n ≤ maxSize → ∃ (sizes : List Nat), Paged sizes 0 ∧ sizes.sum = n
    ∧ ∀ (w : World), posix.write fd buf n w = writePieces objfs env fd.fh buf sizes 0 w
  read_eq : ∀ (fd : File) (buf : Mem) (n : Nat) (sbuf : Stat) (w : World),
    lookup objfs env fd.path w = .ok (some sbuf, w) → min n sbuf.size.toNat ≤ maxSize
    → ∃ (sizes : List Nat), Paged sizes 0 ∧ min n sbuf.size.toNat ≤ sizes.sum
      ∧ posix.read fd buf n w = do
        match ← readPieces objfs env fd.fh sizes 0 (fun _ => 0#8) w with
        | (none, w) => return (none, buf, w)
        | (some pages, w) =>
          return (some (min n sbuf.size.toNat), buf.copy 0 pages (min n sbuf.size.toNat), w)
  close_eq : ∀ (fd : File) (w : World), posix.close fd w = do
    let (_, w) ← serve objfs env w (.release fd.fh)
    return w
  rename_eq : ∀ (old new : Path) (w : World), Plain old → Plain new → old.key.chars ≠ new.key.chars
    → posix.rename old new w = do
    match ← lookup objfs env old w with
    | (none, w) => return (none, w)
    | (some _, w) =>
      let (_, w) ← lookup objfs env new w
      let (a, w) ← serve objfs env w (.rename old new)
      return (if a.value < 0 then none else some (), w)
  unlink_eq : ∀ (path : Path) (w : World), Plain path → posix.unlink path w = do
    match ← lookup objfs env path w with
    | (none, w) => return (none, w)
    | (some _, w) =>
      let (a, w) ← serve objfs env w (.unlink path)
      return (if a.value < 0 then none else some (), w)

end Kernel

inductive Call where
  | lookup (key : CStr)
  | put (key : CStr) (val : Mem) (size : Nat)
  | get (key : CStr) (val : Mem)
  | rename (old new : CStr)
  | delete (key : CStr)

-- The result, and the buffer in case of a `get_key`.
structure Reply where
  value : Int
  val : Option Mem := none

def Call.exec (posix : Posix) (w : World) : Call → Except Fault (Reply × World)
  | .lookup key => do
    let (r, w) ← lookupKey posix key w
    return ({ value := r }, w)
  | .put key val size => do
    let (r, w) ← putKey posix key val size w
    return ({ value := r }, w)
  | .get key val => do
    let (r, val, w) ← getKey posix key val w
    return ({ value := r, val := some val }, w)
  | .rename old new => do
    let (r, w) ← renameKey posix old new w
    return ({ value := r }, w)
  | .delete key => do
    let (r, w) ← deleteKey posix key w
    return ({ value := r }, w)

end Kvstore

end ObjStore
