import CS330.ExampleStore.Impl

/-!
This module contains the calls of the small store and its unmounts, and what a caller should make of them: sixteen
places, each with a key and a string of bytes.
-/

namespace ExampleStore

open ObjStore (Block CStr Mem Env Fault blockSize)

inductive Call where
  | find (key : CStr)
  | create (key : CStr)
  | destroy (key : CStr)
  | rename (key newname : CStr)
  | write (objid : Int) (buf : Mem) (size offset : Nat)
  | read (objid : Int) (buf : Mem) (size offset : Nat)
  | stat (stIno : Nat)

-- What the caller gets: the result, its buffer in case of a read, and the fields of a `struct stat`.
structure Reply where
  value : Int
  buf : Option Mem
  details : Option Details

def Call.exec (env : Env) (w : World) : Call → Except Fault (Reply × World)
  | .find key => return (⟨findObjectId key w, none, none⟩, w)
  | .create key => do
    let (r, w) ← createObject env key w
    return (⟨r, none, none⟩, w)
  | .destroy key => return (⟨(destroyObject env key w).1, none, none⟩, (destroyObject env key w).2)
  | .rename key newname => do
    let (r, w) ← renameObject key newname w
    return (⟨r, none, none⟩, w)
  | .write objid buf size offset => do
    let (r, w) ← objstoreWrite env objid buf size offset w
    return (⟨r, none, none⟩, w)
  | .read objid buf size offset => do
    let (r, buf, w) ← objstoreRead env objid buf size offset w
    return (⟨r, some buf, none⟩, w)
  | .stat stIno => do
    let details ← fillupSizeDetails stIno w
    return (⟨if details.isSome then 0 else -1, none, details⟩, w)

-- A new key fits into its field, an id into the page of the table, and a read asks for a block at most.
def Call.Accepts : Call → Prop
  | .create key => key.len < keySize
  | .write objid _ _ _ => 2 ≤ objid ∧ objid < pageObjs + 2
  | .read objid _ size _ => objid < pageObjs + 2 ∧ size ≤ blockSize
  | .stat stIno => stIno < pageObjs + 2
  | _ => True

instance (c : Call) : Decidable c.Accepts :=
  match c with
  | .create key => inferInstanceAs (Decidable (key.len < keySize))
  | .write objid _ _ _ => inferInstanceAs (Decidable (2 ≤ objid ∧ objid < pageObjs + 2))
  | .read objid _ size _ => inferInstanceAs (Decidable (objid < pageObjs + 2 ∧ size ≤ blockSize))
  | .stat stIno => inferInstanceAs (Decidable (stIno < pageObjs + 2))
  | .find _ | .destroy _ | .rename _ _ => inferInstanceAs (Decidable True)

inductive Turn where
  | call (c : Call) (r : Reply)
  | remount

def Serves (env : Env) (w : World) (turn : Turn) (w' : World) : Prop :=
  match turn with
  | .call c r => c.Accepts ∧ c.exec env w = .ok (r, w')
  | .remount =>
    ∃ (w₁ : World), objstoreDestroy env w = (0, w₁) ∧ objstoreInit env (World.ofDisk w₁.disk) = (0, w')

def Slot.id (i : Slot) : Int := i.val + 2

/--
A place of the table. Its key stays there when its object is destroyed. `renamed` and `touched` tell whether the
object has been renamed, and whether it has been read or written, since the last mount.
-/
structure Item where
  live : Bool
  key : List Byte
  data : List Byte
  renamed : Bool
  touched : Bool

-- A cached object that is renamed without being in the cache is written back from an empty line.
def Item.remounted (cached : Bool) (item : Item) : Item :=
  { item with
    data :=
      if cached = true ∧ item.renamed = true ∧ item.touched = false then
        List.replicate item.data.length 0#8
      else
        item.data
    renamed := false
    touched := false }

abbrev Items := Slot → Item

namespace Items

def empty : Items :=
  fun _ => ⟨false, [], [], false, false⟩

def hasKey (s : Items) (k : List Byte) (i : Slot) : Bool :=
  (s i).live && decide ((s i).key = k)

def find (s : Items) (k : List Byte) : Option Slot :=
  (Loop.range maxObjs).find? (s.hasKey k)

-- the object with an id
def handle (s : Items) (objid : Int) : Option Slot :=
  (Loop.range maxObjs).find? (fun i => (s i).live && decide (i.id = objid))

-- The search takes the first free place on its way, and keeps it when it then comes to the key.
def create (s : Items) (k : List Byte) : Int × Items :=
  match (Loop.range maxObjs).find? (fun i => !(s i).live || s.hasKey k i) with
  | none => (-1, s)
  | some i =>
    if (s i).live then
      (-1, s)
    else if (s.find k).isSome then
      (-1, Function.update s i { s i with live := true })
    else
      (i.id, Function.update s i { s i with live := true, key := k })

def destroy (s : Items) (k : List Byte) : Int × Items :=
  match s.find k with
  | none => (-1, s)
  | some i => (0, Function.update s i { s i with live := false, data := [] })

-- The new key may be in use.
def rename (s : Items) (k new : List Byte) : Int × Items :=
  match s.find k with
  | none => (-1, s)
  | some i =>
    if 32 < new.length then (-1, s) else (0, Function.update s i { s i with key := new, renamed := true })

def write (s : Items) (objid : Int) (data : List Byte) : Int × Items :=
  match s.handle objid with
  | none => (-1, s)
  | some i =>
    if blockSize < data.length then
      (-1, s)
    else
      (data.length, Function.update s i { s i with data := data, touched := true })

-- A read of more than the data says nothing about the rest of the buffer.
def Reads (s : Items) (objid : Int) (size : Nat) (r : Reply) (s' : Items) : Prop :=
  match s.handle objid with
  | none => r.value = -1 ∧ s' = s
  | some i =>
    r.value = size ∧ s' = Function.update s i { s i with touched := true }
    ∧ ∃ (buf : Mem), r.buf = some buf
      ∧ ∀ (k : Nat), k < size → k < (s i).data.length → (s i).data[k]? = some (buf k)

def details (s : Items) (stIno : Nat) : Option Details :=
  (s.handle stIno).map
    (fun i => ⟨BitVec.ofNat 64 (s i).data.length, BitVec.ofNat 64 (((s i).data.length + 511) / 512)⟩)

def Step (s : Items) (c : Call × Reply) (s' : Items) : Prop :=
  match c.1 with
  | .find key => s' = s ∧ c.2.value = (s.find key.chars).elim (-1) Slot.id
  | .create key => (c.2.value, s') = s.create key.chars
  | .destroy key => (c.2.value, s') = s.destroy key.chars
  | .rename key newname => (c.2.value, s') = s.rename key.chars newname.chars
  | .write objid buf size _ => (c.2.value, s') = s.write objid ((List.range size).map buf)
  | .read objid _ size _ => s.Reads objid size c.2 s'
  | .stat stIno => s' = s ∧ c.2.details = s.details stIno ∧ c.2.value = if (s.details stIno).isSome then 0 else -1

def remounted (cached : Bool) (s : Items) : Items :=
  fun i => (s i).remounted cached

def Turn (cached : Bool) (s : Items) (turn : Turn) (s' : Items) : Prop :=
  match turn with
  | .call c r => s.Step (c, r) s'
  | .remount => s' = s.remounted cached

end Items

end ExampleStore
