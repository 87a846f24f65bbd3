import CS330.ObjStore.Run

/-!
This module contains the second implementation of the object store, `assignment-4/example/objstore.c`: a table
of sixteen objects in block 0 of the disk and a block for each of them, with or without a cache of these blocks.
-/

namespace ExampleStore

open ObjStore (Block CStr Mem Env Fault blockSize)

abbrev maxObjs : Nat := 16
abbrev keySize : Nat := 64

-- The objects that fit into the page of the table. Those from the sixteenth on are never in use.
abbrev pageObjs : Nat := 46

structure Object where
  id : BitVec 64
  size : BitVec 64
  cacheIndex : BitVec 32
  dirty : BitVec 32
  key : Buf keySize

namespace Object

abbrev sizeof : Nat := 88

def zero : Object where
  id := 0#64
  size := 0#64
  cacheIndex := 0#32
  dirty := 0#32
  key := Buf.zero keySize

def byte (obj : Object) (k : Nat) : Byte :=
  if k < 8 then LE.byte obj.id k
  else if k < 16 then LE.byte obj.size (k - 8)
  else if k < 20 then LE.byte obj.cacheIndex (k - 16)
  else if k < 24 then LE.byte obj.dirty (k - 20)
  else obj.key.get (k - 24)

def ofBytes (f : Nat → Byte) : Object where
  id := LE.word 64 f 8
  size := LE.word 64 (fun k => f (8 + k)) 8
  cacheIndex := LE.word 32 (fun k => f (16 + k)) 4
  dirty := LE.word 32 (fun k => f (20 + k)) 4
  key := fun k => f (24 + k)

end Object

/-- The page that `objs` points to. -/
structure Table where
  objs : Fin pageObjs → Object
  tail : Buf 48

namespace Table

def zero : Table where
  objs := fun _ => Object.zero
  tail := Buf.zero 48

def setObj (t : Table) (i : Fin pageObjs) (obj : Object) : Table :=
  { t with objs := Function.update t.objs i obj }

def encode (t : Table) : Block :=
  fun k =>
    if h : k / Object.sizeof < pageObjs then
      (t.objs ⟨k / Object.sizeof, h⟩).byte (k % Object.sizeof)
    else
      t.tail.get (k - Object.sizeof * pageObjs)

def decode (b : Block) : Table where
  objs := fun i => Object.ofBytes (fun k => b.get (Object.sizeof * i + k))
  tail := fun k => b.get (Object.sizeof * pageObjs + k)

end Table

-- Index into the table; the object id is two more.
abbrev Slot := Fin maxObjs

def Slot.index (i : Slot) : Fin pageObjs :=
  i.castLE (by decide)

/-- The table, the cache and the disk, and the number of requests made to the operating system so far. -/
structure World where
  table : Table
  cache : Nat → Block
  disk : Nat → Block
  requests : Nat

namespace World

def obj (w : World) (i : Slot) : Object :=
  w.table.objs i.index

def setObj (w : World) (i : Fin pageObjs) (obj : Object) : World :=
  { w with table := w.table.setObj i obj }

def request (w : World) : World :=
  { w with requests := w.requests + 1 }

end World

-- A process that has just been started.
def World.ofDisk (disk : Nat → Block) : World where
  table := Table.zero
  cache := fun _ => Buf.zero blockSize
  disk := disk
  requests := 0

-- The buffer after the call comes back with the result.
def readBlock (env : Env) (b : Nat) (w : World) : Bool × Block × World :=
  if env.fails w.requests then
    (false, env.junk w.requests, w.request)
  else
    (true, w.disk b, w.request)

def writeBlock (env : Env) (b : Nat) (buf : Block) (w : World) : Bool × World :=
  if env.fails w.requests then
    (false, w.request)
  else
    (true, { w with disk := Function.update w.disk b buf }.request)

-- A zero filled page, or `NULL`.
def malloc4k (env : Env) (w : World) : Option Block × World :=
  if env.fails w.requests then
    (none, w.request)
  else
    (some (Buf.zero blockSize), w.request)

def initObjectCached (env : Env) (i : Fin pageObjs) (t : Table) : Table :=
  if env.cached then
    t.setObj i { t.objs i with cacheIndex := -1#32, dirty := 0#32 }
  else
    t

def removeObjectCached (env : Env) (i : Fin pageObjs) (t : Table) : Table :=
  if env.cached then
    t.setObj i { t.objs i with cacheIndex := -1#32, dirty := 0#32 }
  else
    t

-- `if(obj->cache_index < 0)` in the two functions below
def load (env : Env) (i : Fin pageObjs) (w : World) : Bool × World :=
  let obj := w.table.objs i
  if obj.cacheIndex.toInt < 0 then
    match readBlock env obj.id.toNat w with
    | (false, line, w) => (false, { w with cache := Function.update w.cache obj.id.toNat line })
    | (true, line, w) =>
      let w := { w with cache := Function.update w.cache obj.id.toNat line }
      (true, w.setObj i { obj with cacheIndex := obj.id.setWidth 32 })
  else
    (true, w)

-- the buffer after `memcpy(user_buf, src, size)`
def copied (userBuf : Mem) (src : Mem) (size : Nat) : Mem :=
  fun k => if k < size then src k else userBuf k

def findReadCached (env : Env) (i : Fin pageObjs) (userBuf : Mem) (size : Nat) (w : World)
    : Except Fault (Bool × Mem × World) :=
  let id := (w.table.objs i).id.toNat
  if env.cached then
    match load env i w with
    | (false, w) => .ok (false, userBuf, w)
    | (true, w) =>
      -- a long read goes on in the lines behind
      .ok (true, copied userBuf (fun k => (w.cache (id + k / blockSize)).get (k % blockSize)) size, w)
  else
    match malloc4k env w with
    | (none, w) => .ok (false, userBuf, w)
    | (some _, w) =>
      match readBlock env id w with
      | (false, _, w) => .ok (false, userBuf, w)
      | (true, ptr, w) =>
        if size ≤ blockSize then .ok (true, copied userBuf ptr.get size, w) else .error .outOfBounds

-- The caller has seen to it that `size` is at most a block.
def findWriteCached (env : Env) (i : Fin pageObjs) (userBuf : Mem) (size : Nat) (w : World) : Bool × World :=
  let id := (w.table.objs i).id.toNat
  if env.cached then
    match load env i w with
    | (false, w) => (false, w)
    | (true, w) =>
      let w := { w with cache := Function.update w.cache id ((w.cache id).copy 0 userBuf size) }
      (true, w.setObj i { w.table.objs i with dirty := 1#32 })
  else
    match malloc4k env w with
    | (none, w) => (false, w)
    | (some ptr, w) => writeBlock env id (ptr.copy 0 userBuf size) w

def objSync (env : Env) (i : Fin pageObjs) (w : World) : Bool × World :=
  let obj := w.table.objs i
  if env.cached then
    if obj.dirty = 0#32 then
      (true, w)
    else
      match writeBlock env obj.id.toNat (w.cache obj.id.toNat) w with
      | (false, w) => (false, w)
      | (true, w) => (true, w.setObj i { obj with dirty := 0#32 })
  else
    (true, w)

namespace Table

-- `obj->id && !strcmp(obj->key, key)`
def hasKey (t : Table) (key : CStr) (i : Slot) : Bool :=
  (t.objs i.index).id ≠ 0#64 && key.strcmp (t.objs i.index).key.get

end Table

def findObject (key : CStr) (w : World) : Option Slot :=
  (Loop.range maxObjs).find? (w.table.hasKey key)

def findObjectId (key : CStr) (w : World) : Int :=
  (findObject key w).elim (-1) (fun i => (w.obj i).id.toInt)

namespace createObject

-- The id is set as soon as a free object is met. `none` when a duplicate is found, else the free object.
def scan (key : CStr) : List Slot → Option Slot → Table → Option (Option Slot) × Table
  | [], free, t => (some free, t)
  | i :: is, free, t =>
    if (t.objs i.index).id = 0#64 ∧ free = none then
      scan key is (some i) (t.setObj i.index { t.objs i.index with id := BitVec.ofNat 64 (i + 2) })
    else if t.hasKey key i then
      (none, t)
    else
      scan key is free t

def finish (env : Env) (key : CStr) (w : World) : Option (Option Slot) × Table → Except Fault (Int × World)
  | (none, t) => .ok (-1, { w with table := t })
  | (some none, t) => .ok (-1, { w with table := t })
  | (some (some free), t) =>
    -- nothing keeps `strcpy` inside the key
    if key.len < keySize then
      let obj := t.objs free.index
      let t := t.setObj free.index { obj with key := obj.key.copy 0 key.mem (key.len + 1) }
      -- `obj` is behind the last object by now
      .ok ((t.objs free.index).id.toInt, { w with table := initObjectCached env ⟨maxObjs, by decide⟩ t })
    else
      .error .outOfBounds

end createObject

def createObject (env : Env) (key : CStr) (w : World) : Except Fault (Int × World) :=
  createObject.finish env key w (createObject.scan key (Loop.range maxObjs) none w.table)

def destroyObject (env : Env) (key : CStr) (w : World) : Int × World :=
  match findObject key w with
  | none => (-1, w)
  | some i =>
    let t := removeObjectCached env i.index w.table
    (0, { w with table := t.setObj i.index { t.objs i.index with id := 0#64, size := 0#64 } })

-- `objs + objid - 2`, as long as it is in the page
def objAt (objid : Int) : Option (Fin pageObjs) :=
  if h : 2 ≤ objid ∧ objid < pageObjs + 2 then
    some ⟨(objid - 2).toNat, by omega⟩
  else
    none

def renameObject (key newname : CStr) (w : World) : Except Fault (Int × World) :=
  let objid := findObjectId key w
  if objid < 0 then
    .ok (-1, w)
  else if 32 < newname.len then
    .ok (-1, w)
  else
    match objAt objid with
    | none => .error .outOfBounds
    | some i =>
      let obj := w.table.objs i
      .ok (0, w.setObj i { obj with key := obj.key.copy 0 newname.mem (newname.len + 1), dirty := 1#32 })

-- The offset is not used.
def objstoreWrite (env : Env) (objid : Int) (buf : Mem) (size _offset : Nat) (w : World)
    : Except Fault (Int × World) :=
  match objAt objid with
  | none => .error .outOfBounds
  | some i =>
    if (w.table.objs i).id.toInt ≠ objid then
      .ok (-1, w)
    else if blockSize < size then
      .ok (-1, w)
    else
      match findWriteCached env i buf size w with
      | (false, w) => .ok (-1, w)
      | (true, w) => .ok (size, w.setObj i { w.table.objs i with size := BitVec.ofNat 64 size })

def objstoreRead (env : Env) (objid : Int) (buf : Mem) (size _offset : Nat) (w : World)
    : Except Fault (Int × Mem × World) :=
  if objid < 2 then
    .ok (-1, buf, w)
  else
    match objAt objid with
    | none => .error .outOfBounds
    | some i =>
      if (w.table.objs i).id.toInt ≠ objid then
        .ok (-1, buf, w)
      else do
        match ← findReadCached env i buf size w with
        | (false, buf, w) => return (-1, buf, w)
        | (true, buf, w) => return (size, buf, w)

-- `st_size` and `st_blocks`
structure Details where
  size : BitVec 64
  blocks : BitVec 64

def fillupSizeDetails (stIno : Nat) (w : World) : Except Fault (Option Details) :=
  if stIno < 2 then
    .ok none
  else
    match objAt stIno with
    | none => .error .outOfBounds
    | some i =>
      let obj := w.table.objs i
      if obj.id.toNat ≠ stIno then
        .ok none
      else if (obj.size.sshiftRight 9) <<< 9 ≠ obj.size then
        .ok (some ⟨obj.size, obj.size.sshiftRight 9 + 1⟩)
      else
        .ok (some ⟨obj.size, obj.size.sshiftRight 9⟩)

namespace objstoreInit

def body (env : Env) (t : Table) (i : Slot) : Table :=
  if (t.objs i.index).id ≠ 0#64 then initObjectCached env i.index t else t

end objstoreInit

def objstoreInit (env : Env) (w : World) : Int × World :=
  match malloc4k env w with
  | (none, w) => (-1, w)
  | (some _, w) =>
    match readBlock env 0 w with
    | (false, buf, w) => (-1, { w with table := Table.decode buf })
    | (true, buf, w) =>
      (0, { w with table := (Loop.range maxObjs).foldl (objstoreInit.body env) (Table.decode buf) })

namespace objstoreDestroy

def body (env : Env) (w : World) (i : Slot) : World :=
  if (w.obj i).id ≠ 0#64 then (objSync env i.index w).2 else w

end objstoreDestroy

def objstoreDestroy (env : Env) (w : World) : Int × World :=
  let w := (Loop.range maxObjs).foldl (objstoreDestroy.body env) w
  match writeBlock env 0 w.table.encode w with
  | (false, w) => (-1, w)
  | (true, w) => (0, w)

end ExampleStore
