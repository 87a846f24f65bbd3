import CS330.Lib.Run
import CS330.ObjStore.Impl.Mount

/-!
This module contains the calls that a client of the object store can make, what they return, and the
runs they make up between `objstore_init` and `objstore_destroy`.
-/

namespace ObjStore

inductive Op where
  | create (key : CStr)
  | find (key : CStr)
  | rename (key newname : CStr)
  | destroy (key : CStr)
  | write (objid : Int) (buf : Mem) (size offset : Nat)
  | read (objid : Int) (buf : Mem) (size offset : Nat)

-- What the caller gets: the result, and its buffer in case of a read.
structure Reply where
  value : Int
  buf : Option Mem

def Op.exec (env : Env) (w : World) : Op → Except Fault (Reply × World)
  | .create key => do
    let (r, w) ← createObject key w
    return (⟨r, none⟩, w)
  | .find key => return (⟨findObjectId key w, none⟩, w)
  | .rename key newname =>
    return (⟨(renameObject key newname w).1, none⟩, (renameObject key newname w).2)
  | .destroy key => do
    let (r, w) ← destroyObject env key w
    return (⟨r, none⟩, w)
  | .write objid buf size offset => do
    let (r, w) ← objstoreWrite env objid buf size offset w
    return (⟨r, none⟩, w)
  | .read objid buf size offset => do
    let (r, buf, w) ← objstoreRead env objid buf size offset w
    return (⟨r, some buf⟩, w)

def replies (env : Env) : List Op → World → List (Except Fault Reply)
  | [], _ => []
  | op :: ops, w =>
    match op.exec env w with
    | .ok (r, w) => .ok r :: replies env ops w
    | .error e => [.error e]

-- Keys that fit into the key field with their terminator, the empty one left out.
structure CStr.Short (key : CStr) : Prop where
  pos : 0 < key.len
  lt : key.len < keySize

def World.Live (w : World) (objid : Int) : Prop :=
  ∃ (o : Slot), objid = o.id ∧ (w.objects o).size ≠ 0#64

-- The first chunk of a transfer does not cross the end of its block.
def InBlock (size offset : Nat) : Prop :=
  offset % blockSize + min size blockSize ≤ blockSize

instance (size offset : Nat) : Decidable (InBlock size offset) :=
  inferInstanceAs (Decidable (_ ≤ _))

-- No copy of the call runs over the end of a field or of `temp`, and its id is one of the table's.
def Op.Safe : Op → Prop
  | .create key => key.len < keySize
  | .find key => key.len < keySize
  | .rename key newname => key.len < keySize ∧ newname.len < keySize
  | .destroy key => key.len < keySize
  | .write objid _ size offset => objid < maxObjs + 2 ∧ InBlock size offset
  | .read objid _ size offset => objid < maxObjs + 2 ∧ InBlock size offset

/-- What a caller has to see to. Offsets are `off_t`. -/
def Op.Accepts (w : World) : Op → Prop
  | .create key => key.Short
  | .find key => key.Short
  | .rename key newname => key.Short ∧ newname.Short
  | .destroy key => key.Short
  | .write objid _ size offset => w.Live objid ∧ 1 ≤ size ∧ InBlock size offset ∧ offset < 2 ^ 63
  | .read objid _ size offset => w.Live objid ∧ InBlock size offset

/-- An accepted call that returns, with a free block left at each allocation. -/
def Step (env : Env) (w : World) (c : Op × Reply) (w' : World) : Prop :=
  c.1.Accepts w ∧ c.1.exec env w = .ok (c.2, w') ∧ ¬ w'.Exhausted

/-- The worlds between `objstore_init` on a disk and `objstore_destroy`. -/
def Reaches (env : Env) (disk : BlockNo → Block) (w : World) : Prop :=
  ∃ (w₀ : World) (calls : List (Op × Reply)),
    objstoreInit env (World.ofDisk disk) = .ok (0, w₀) ∧ Run (Step env) w₀ calls w

end ObjStore
