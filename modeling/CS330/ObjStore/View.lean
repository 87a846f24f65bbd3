import CS330.Lib.DirectMapped
import CS330.Lib.Ownership
import CS330.ObjStore.Impl.Alloc

/-!
This module contains what a client of the block layer can see of a world, whether the build has a cache
or not, and the block ownership invariant on it.
-/

namespace ObjStore

/-- The object data and the block contents as `read_ch_blk` would return them. -/
structure View where
  objects : Slot → Obj
  objBmp : Bitmap objBmpLn
  blkBmp : Bitmap blkBmpLn
  data : BlockNo → Block

namespace World

def look (env : Env) (w : World) (b : BlockNo) : Block :=
  if env.cached then
    DirectMapped.look cacheIndex w.cacheInfo w.cache w.disk b
  else
    w.disk b

/-- Block 0 is left out: it is never read as data, and flushing an empty cache slot overwrites it. -/
def view (env : Env) (w : World) : View where
  objects := w.objects
  objBmp := w.objBmp
  blkBmp := w.blkBmp
  data := fun b => if b = 0#32 then Buf.zero blockSize else w.look env b

def Tagged (w : World) : Prop :=
  DirectMapped.Tagged cacheIndex 0#32 w.cacheInfo

-- No cache slot holds one of the blocks of the two tables.
def NoTable (w : World) : Prop :=
  ∀ (i : Fin cacheLen), w.cacheInfo i ≠ 0#32 → resBlocks ≤ (w.cacheInfo i).toNat

end World

namespace View

@[ext]
theorem ext {v v' : View} (h1 : v.objects = v'.objects) (h2 : v.objBmp = v'.objBmp)
    (h3 : v.blkBmp = v'.blkBmp) (h4 : v.data = v'.data)
    : v = v' := by
  cases v
  cases v'
  simp_all

def setObj (v : View) (o : Slot) (obj : Obj) : View :=
  { v with objects := Function.update v.objects o obj }

def setData (v : View) (b : BlockNo) (blk : Block) : View :=
  { v with data := Function.update v.data b blk }

def edit (v : View) (o : Slot) (obj : Obj) : View :=
  { v.setObj o obj with objBmp := v.objBmp.set o }

def mark (v : View) (b : BlockNo) : View :=
  { v with blkBmp := v.blkBmp.set b.toNat }

inductive Ref where
  | direct (o : Slot) (i : Fin 4)
  | indirect (o : Slot) (i : Fin 4)
  | entry (o : Slot) (i : Fin 4) (j : Fin 1024)
  deriving DecidableEq

def Ref.slot : Ref → Slot
  | .direct o _ => o
  | .indirect o _ => o
  | .entry o _ _ => o

def Ref.isData : Ref → Bool
  | .direct _ _ => true
  | .indirect _ _ => false
  | .entry _ _ _ => true

/-- What a place holds. The entries of a pointer block count only where `indirect[]` points to one. -/
def ptr (v : View) : Ref → BlockNo
  | .direct o i => (v.objects o).direct i
  | .indirect o i => (v.objects o).indirect i
  | .entry o i j =>
    if (v.objects o).indirect i = 0#32 then 0#32 else ptrAt (v.data ((v.objects o).indirect i)) j

def Used (v : View) (b : BlockNo) : Prop :=
  v.blkBmp.bit b.toNat = true

def Reserved (b : BlockNo) : Prop :=
  b.toNat < resBlocks

/-- The block ownership invariant. -/
def Own (v : View) : Prop :=
  Owned 0#32 Reserved v.Used v.ptr

end View

/--
What a world must satisfy between operations: the cache is well tagged and holds no table block, every
block has at most one owner.
-/
structure World.Ok (env : Env) (w : World) : Prop where
  tagged : w.Tagged
  noTable : w.NoTable
  own : (w.view env).Own

end ObjStore
