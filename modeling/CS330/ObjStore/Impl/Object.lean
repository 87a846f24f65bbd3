import CS330.ObjStore.Impl.Alloc

/-!
This module contains the object table of `objstore.c`: lookup, creation, renaming and destruction of
objects.
-/

namespace ObjStore

namespace World

-- `!strcmp(object->key, key)`; the comparison starts 8 bytes into the object.
def keyEq (w : World) (o : Slot) (key : CStr) : Bool :=
  key.strcmp (fun k => w.objMem (Obj.sizeof * o + 8 + k))

end World

def findObject (key : CStr) (w : World) : Option Slot :=
  (Loop.range maxObjs).find? (fun o => w.keyEq o key)

-- `object - objects + 2`
def Slot.id (o : Slot) : Int := o.val + 2

def findObjectId (key : CStr) (w : World) : Int :=
  (findObject key w).elim (-1) Slot.id

namespace createObject

-- The scan of `create_object`: `none` when a duplicate is found, else the first free slot.
def scan (w : World) (key : CStr) : List Slot → Option Slot → Option (Option Slot)
  | [], free => some free
  | i :: is, free =>
    if free = none ∧ (w.objects i).size = 0#64 then
      scan w key is (some i)
    else if w.keyEq i key then
      none
    else
      scan w key is free

def poke (objects : Slot → Obj) (addr : Nat) (v : Byte) : Except Fault (Slot → Obj) :=
  if h : addr / Obj.sizeof < maxObjs then
    let o : Slot := ⟨addr / Obj.sizeof, h⟩
    .ok (Function.update objects o ((objects o).setByte (addr % Obj.sizeof) v))
  else
    .error .outOfBounds

-- `strcpy(start[o].key, key)`, from byte `k` on; nothing keeps it inside the field.
def strcpy (o : Slot) (key : CStr) : Nat → Nat → (Slot → Obj) → Except Fault (Slot → Obj)
  | 0, _, objects => .ok objects
  | n + 1, k, objects => do
    let objects ← poke objects (Obj.sizeof * o + 8 + k) (key.mem k)
    strcpy o key n (k + 1) objects

def finish (key : CStr) (w : World) : Option (Option Slot) → Except Fault (Int × World)
  | none => .ok (-1, w.unlock .objCl)
  | some none => .ok (-1, w.unlock .objCl)
  | some (some free) => do
    let objects ← strcpy free key (key.len + 1) 0 w.objects
    let w := { w with objects := objects }
    let w := w.setObj free { w.objects free with size := 1#64 }
    let w := w.unlock .objCl
    let w := markObjDirty free w
    return (free.id, w)

end createObject

def createObject (key : CStr) (w : World) : Except Fault (Int × World) :=
  createObject.finish key (w.lock .objCl)
    (createObject.scan (w.lock .objCl) key (Loop.range maxObjs) none)

namespace destroyObject

def direct (o : Slot) (i : Fin 4) (w : World) : Except Fault (Loop.Flow Int World) :=
  if (w.objects o).direct i ≠ 0#32 then do
    let w ← freeBlock ((w.objects o).direct i) w
    return .next (w.setObj o { w.objects o with direct := Function.update (w.objects o).direct i 0#32 })
  else
    return .next w

def indirect (env : Env) (o : Slot) (i : Fin 4) (w : World)
    : Except Fault (Loop.Flow Int World) :=
  if (w.objects o).indirect i ≠ 0#32 then do
    let (r, w) ← freePointerBlock env ((w.objects o).indirect i) w
    if r ≠ 0 then
      return .ret (-1) w
    else
      return .next
        (w.setObj o { w.objects o with indirect := Function.update (w.objects o).indirect i 0#32 })
  else
    return .next w

def finish (env : Env) (w : World) : Option Slot → Except Fault (Int × World)
  | none => .ok (-1, w)
  | some o =>
    if (w.objects o).size = 0#64 then
      .ok (-1, w)
    else do
      match ← Loop.run (direct o) (Loop.range 4) w with
      | .ret r w => return (r, w)
      | .next w | .stop w =>
        match ← Loop.run (indirect env o) (Loop.range 4) w with
        | .ret r w => return (r, w)
        | .next w | .stop w =>
          let w := w.setObj o { w.objects o with size := 0#64, key := Buf.zero keySize }
          let w := markObjDirty o w
          return (0, w)

end destroyObject

def destroyObject (env : Env) (key : CStr) (w : World) : Except Fault (Int × World) :=
  destroyObject.finish env w (findObject key w)

namespace renameObject

-- The scan of `rename_object`: `none` when `newname` is taken, else the last slot with `key`.
def scan (w : World) (key newname : CStr) : List Slot → Option Slot → Option (Option Slot)
  | [], objIndex => some objIndex
  | i :: is, objIndex =>
    let objIndex := if w.keyEq i key then some i else objIndex
    if w.keyEq i newname then
      none
    else
      scan w key newname is objIndex

-- What follows the scan. `memcpy` copies all 32 bytes from `newname` on, wherever its terminator is.
def finish (newname : CStr) (w : World) : Option (Option Slot) → Int × World
  | none => (-1, w.unlock .objCl)
  | some none => (-1, w.unlock .objCl)
  | some (some o) =>
    let w := w.setObj o { w.objects o with key := fun i => newname.mem i }
    let w := w.unlock .objCl
    let w := markObjDirty o w
    (o.id, w)

end renameObject

def renameObject (key newname : CStr) (w : World) : Int × World :=
  renameObject.finish newname (w.lock .objCl)
    (renameObject.scan (w.lock .objCl) key newname (Loop.range maxObjs) none)

def fillupSizeDetails (stIno : Nat) (w : World) : Except Fault (Option (BitVec 64 × BitVec 64)) :=
  if stIno < 2 then
    .ok none
  else if h : stIno - 2 < maxObjs then
    let size := (w.objects ⟨stIno - 2, h⟩).size
    let blocks := size >>> 9
    .ok (some (size, if (size >>> 9) <<< 9 ≠ size then blocks + 1 else blocks))
  else
    .error .outOfBounds

end ObjStore
