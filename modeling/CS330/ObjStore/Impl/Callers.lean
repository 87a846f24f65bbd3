import CS330.Lib.Interleave
import CS330.ObjStore.Impl.Object

/-!
This module contains the calls of `objstore.c` that several threads may make at a time, cut into the
steps that no other thread can interrupt: `alloc_block` and `free_block` on the block bitmap, and
`create_object`, `rename_object` and `destroy_object` on the object table.
-/

namespace ObjStore

namespace allocBlock

/--
Where a caller stands. `word i` is before the copy of `bitmap[i]`, `bits i j temp` before bit `j` of the
copy is tested under the lock; `temp` is the copy shifted by `j`.
-/
inductive Pc where
  | idle
  | word (i : Nat)
  | bits (i : Fin blkBmpLn) (j : Nat) (temp : BitVec 64)

inductive Act where
  | called
  | copied
  | passed
  | returned (b : BlockNo)
  | failed
  | freed (b : BlockNo)

def nextBit (i : Fin blkBmpLn) (j : Nat) (temp : BitVec 64) : Pc :=
  if j + 1 < 64 then .bits i (j + 1) (temp >>> 1) else .word (i + 1)

/-- A thread that calls `alloc_block` and `free_block`. Only the copy is made without the lock. -/
inductive Caller : Bitmap blkBmpLn → Pc → Act → Bitmap blkBmpLn → Pc → Prop where
  | call (m : Bitmap blkBmpLn)
      : Caller m .idle .called m (.word (resBlocks / 64 - 1))
  | copy (m : Bitmap blkBmpLn) (i : Fin blkBmpLn)
      : Caller m (.word i) .copied m (.bits i 0 (m i))
  | take (m : Bitmap blkBmpLn) (i : Fin blkBmpLn) (j : Nat) (temp : BitVec 64)
      (h : temp &&& 1#64 = 0#64)
      : Caller m (.bits i j temp) (.returned (BitVec.ofNat 32 (64 * i + j))) (m.orBit i j) .idle
  | pass (m : Bitmap blkBmpLn) (i : Fin blkBmpLn) (j : Nat) (temp : BitVec 64)
      (h : temp &&& 1#64 ≠ 0#64)
      : Caller m (.bits i j temp) .passed m (nextBit i j temp)
  | fail (m : Bitmap blkBmpLn)
      : Caller m (.word blkBmpLn) .failed m .idle
  | free (m : Bitmap blkBmpLn) (b : BlockNo) (h : b.toNat / 64 < blkBmpLn)
      : Caller m .idle (.freed b) (m.andNotBit ⟨b.toNat / 64, h⟩ (b.toNat % 64)) .idle

end allocBlock

namespace destroyObject

-- The two loops of `destroy_object`; a `ret` is its early return.
def release (env : Env) (o : Slot) (w : World) : Except Fault (Loop.Flow Int World) := do
  match ← Loop.run (direct o) (Loop.range 4) w with
  | .ret r w => return .ret r w
  | .next w | .stop w => Loop.run (indirect env o) (Loop.range 4) w

inductive Pc where
  | idle
  | release (key : CStr) (o : Slot)
  | clearSize (key : CStr) (o : Slot)
  | clearKey (key : CStr) (o : Slot)
  | markDirty (key : CStr) (o : Slot)

-- the replies of `destroy_object` are -1 for `missed` and `failed`, 0 for `marked`
inductive Act where
  | created (key : CStr) (r : Int)
  | renamed (key newname : CStr) (r : Int)
  | missed (key : CStr)
  | found (key : CStr) (o : Slot)
  | failed
  | released
  | sizeCleared
  | keyCleared
  | marked

/--
A thread that calls `create_object`, `rename_object` and `destroy_object`. The first two hold
`obj_cl_lk` from their scan to their update, the third takes no lock.
-/
inductive Client (env : Env) : World → Pc → Act → World → Pc → Prop where
  | create (w w' : World) (key : CStr) (r : Int) (h : createObject key w = .ok (r, w'))
      : Client env w .idle (.created key r) w' .idle
  | rename (w : World) (key newname : CStr)
      : Client env w .idle (.renamed key newname (renameObject key newname w).1)
          (renameObject key newname w).2 .idle
  | miss (w : World) (key : CStr)
      (h : findObject key w = none ∨ ∃ (o : Slot), findObject key w = some o ∧ (w.objects o).size = 0#64)
      : Client env w .idle (.missed key) w .idle
  | find (w : World) (key : CStr) (o : Slot) (h : findObject key w = some o)
      (hsize : (w.objects o).size ≠ 0#64)
      : Client env w .idle (.found key o) w (.release key o)
  | fail (w w' : World) (key : CStr) (o : Slot) (r : Int) (h : release env o w = .ok (.ret r w'))
      : Client env w (.release key o) .failed w' .idle
  | release (w w' : World) (key : CStr) (o : Slot) (h : release env o w = .ok (.next w'))
      : Client env w (.release key o) .released w' (.clearSize key o)
  | clearSize (w : World) (key : CStr) (o : Slot)
      : Client env w (.clearSize key o) .sizeCleared (w.setObj o { w.objects o with size := 0#64 })
          (.clearKey key o)
  | clearKey (w : World) (key : CStr) (o : Slot)
      : Client env w (.clearKey key o) .keyCleared
          (w.setObj o { w.objects o with key := Buf.zero keySize }) (.markDirty key o)
  | markDirty (w : World) (key : CStr) (o : Slot)
      : Client env w (.markDirty key o) .marked (markObjDirty o w) .idle

end destroyObject

end ObjStore
