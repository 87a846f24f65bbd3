import CS330.ObjStore.Run

/-!
This module contains `objfs.c`, the operations that FUSE calls: they take the slash off the path, hand the
rest to the object store as a key and turn what it returns into an error number.
-/

namespace ObjStore

abbrev rootObjid : BitVec 64 := 1

abbrev enoent : Int := 2
abbrev ebadf : Int := 9
abbrev eexist : Int := 17
abbrev einval : Int := 22

-- `struct stat`
structure Stat where
  dev : BitVec 64
  ino : BitVec 64
  mode : BitVec 32
  nlink : BitVec 64
  uid : BitVec 32
  gid : BitVec 32
  rdev : BitVec 64
  size : BitVec 64
  blksize : BitVec 64
  blocks : BitVec 64
  atime : BitVec 64
  mtime : BitVec 64
  ctime : BitVec 64
  deriving DecidableEq

-- What the operations use besides the store; `uid` and `gid` are those of the process.
structure Objfs where
  defFstat : Stat
  defDirstat : Stat
  uid : BitVec 32
  gid : BitVec 32

-- A path as FUSE hands it over: it starts with a slash.
structure Path where
  str : CStr
  slash : str.mem 0 = 47#8

namespace Path

theorem len_pos (path : Path) : 0 < path.str.len := by
  apply Nat.pos_of_ne_zero
  intro h0
  have hnul := path.str.nul
  rw [h0, path.slash] at hnul
  cases hnul

-- `key + 1`
def key (path : Path) : CStr where
  mem := fun k => path.str.mem (k + 1)
  len := path.str.len - 1
  nul := by
    have := path.len_pos
    rw [show path.str.len - 1 + 1 = path.str.len by omega]
    exact path.str.nul
  nonzero := by
    intro k hk
    exact path.str.nonzero (k + 1) (by omega)

-- `"/"`
def root : CStr where
  mem := fun k => if k = 0 then 47#8 else 0#8
  len := 1
  nul := rfl
  nonzero := by
    intro k hk
    have : k = 0 := Nat.lt_one_iff.mp hk
    subst this
    decide

end Path

-- A handle where an `int` is expected.
def objidOf (fh : BitVec 64) : Int := (fh.setWidth 32).toInt

-- What is left in `statbuf` comes back with the result.
def objfsGetattr (objfs : Objfs) (key : Path) (w : World) : Except Fault (Int × Stat) :=
  if Path.root.strcmp key.str.mem then
    let statbuf := { objfs.defDirstat with ino := rootObjid }
    .ok (0, { statbuf with uid := objfs.uid, gid := objfs.gid })
  else
    let statbuf := objfs.defFstat
    let retval := findObjectId key.key w
    if retval < 0 then
      .ok (-enoent, statbuf)
    else do
      let statbuf := { statbuf with ino := BitVec.ofInt 64 retval }
      match ← fillupSizeDetails statbuf.ino.toNat w with
      | none => return (-ebadf, statbuf)
      | some (size, blocks) =>
        return (0, { statbuf with size := size, blocks := blocks, uid := objfs.uid, gid := objfs.gid })

-- The result of `destroy_object` is dropped.
def objfsUnlink (env : Env) (key : Path) (w : World) : Except Fault (Int × World) := do
  let (_, w) ← destroyObject env key.key w
  return (0, w)

def objfsRenameKey (oldkey newkey : Path) (w : World) : Int × World :=
  let (r, w) := renameObject oldkey.key newkey.key w
  if r < 0 then (-einval, w) else (0, w)

-- The handle is `none` where `fi->fh` is left alone.
def objfsCreate (key : Path) (w : World) : Except Fault (Int × Option (BitVec 64) × World) := do
  let (retval, w) ← createObject key.key w
  if retval < 0 then
    return (-eexist, none, w)
  else
    return (0, some (BitVec.ofInt 64 retval), w)

def objfsOpen (key : Path) (w : World) : Int × Option (BitVec 64) :=
  let retval := findObjectId key.key w
  if retval < 0 then (-enoent, none) else (0, some (BitVec.ofInt 64 retval))

def objfsRead (env : Env) (buf : Mem) (size offset : Nat) (fh : BitVec 64) (w : World)
    : Except Fault (Int × Mem × World) := do
  let (retval, buf, w) ← objstoreRead env (objidOf fh) buf size offset w
  if retval < 0 then
    return (-einval, buf, w)
  else
    return (retval, buf, w)

def objfsWrite (env : Env) (buf : Mem) (size offset : Nat) (fh : BitVec 64) (w : World)
    : Except Fault (Int × World) := do
  let (retval, w) ← objstoreWrite env (objidOf fh) buf size offset w
  if retval < 0 then
    return (-einval, w)
  else
    return (retval, w)

-- `release_object` of `objstore.c` does nothing; the result is an error all the same.
def objfsRelease : Int := -einval

-- The result of `objstore_init` is dropped.
def objfsInit (env : Env) (w : World) : Except Fault World := do
  let (_, w) ← objstoreInit env w
  return w

-- What comes after `objstore_destroy` ends the process.
def objfsDestroy (env : Env) (w : World) : Except Fault World := do
  let (_, w) ← objstoreDestroy env w
  return w

namespace Objfs

inductive Request where
  | getattr (key : Path)
  | unlink (key : Path)
  | rename (oldkey newkey : Path)
  | create (key : Path)
  | openFile (key : Path)
  | read (buf : Mem) (size offset : Nat) (fh : BitVec 64)
  | write (buf : Mem) (size offset : Nat) (fh : BitVec 64)
  | release (fh : BitVec 64)

-- The result and what the operation fills in for its caller.
structure Answer where
  value : Int
  stat : Option Stat := none
  fh : Option (BitVec 64) := none
  buf : Option Mem := none

/-- The operation that a request is for, as `objfs_operations` has it. -/
def serve (objfs : Objfs) (env : Env) (w : World) : Request → Except Fault (Answer × World)
  | .getattr key => do
    let (value, statbuf) ← objfsGetattr objfs key w
    return ({ value := value, stat := some statbuf }, w)
  | .unlink key => do
    let (value, w) ← objfsUnlink env key w
    return ({ value := value }, w)
  | .rename oldkey newkey =>
    let (value, w) := objfsRenameKey oldkey newkey w
    return ({ value := value }, w)
  | .create key => do
    let (value, fh, w) ← objfsCreate key w
    return ({ value := value, fh := fh }, w)
  | .openFile key =>
    let (value, fh) := objfsOpen key w
    return ({ value := value, fh := fh }, w)
  | .read buf size offset fh => do
    let (value, buf, w) ← objfsRead env buf size offset fh w
    return ({ value := value, buf := some buf }, w)
  | .write buf size offset fh => do
    let (value, w) ← objfsWrite env buf size offset fh w
    return ({ value := value }, w)
  | .release _ => return ({ value := objfsRelease }, w)

end Objfs

end ObjStore
