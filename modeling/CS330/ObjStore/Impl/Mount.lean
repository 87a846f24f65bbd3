import CS330.ObjStore.Impl.Transfer

/-!
This module contains `objstore_init` and `objstore_destroy` of `objstore.c`, which move the two tables
between the reserved disk blocks and memory.
-/

namespace ObjStore

def bmpBlock (k : Fin blkBmpLn) : Fin blkBmpBlocks :=
  ⟨k / 512, by
    have := k.isLt
    simp only [blkBmpLn] at this
    simp only [blkBmpBlocks]
    omega⟩

-- `memcpy((char*) blk_bmp, res_blk_buf, 8 * BLK_BMP_LN)`
def decodeBmp (bufs : Fin blkBmpBlocks → Block) : Bitmap blkBmpLn :=
  fun k => (bufs (bmpBlock k)).word 64 8 (k % 512)

-- Block `i` of `res_blk_buf` after `memcpy(res_blk_buf, (char*) blk_bmp, 8 * BLK_BMP_LN)`.
def encodeBmp (m : Bitmap blkBmpLn) (i : Fin blkBmpBlocks) : Block :=
  fun k => LE.byte (m ⟨512 * i + k / 8, by
    have := i.isLt
    have := k.isLt
    simp only [blkBmpBlocks, blockSize, blkBmpLn] at *
    omega⟩) (k % 8)

def objInBlock (i : Fin objBlocks) (j : Fin objPerBlock) : Slot :=
  ⟨objPerBlock * i + j, by
    have := i.isLt
    have := j.isLt
    simp only [objBlocks, objPerBlock, maxObjs] at *
    omega⟩

-- `memcpy((char*) (objects + i * OBJ_PER_BLOCK), res_blk_buf, OBJ_PER_BLOCK * sizeof(Obj))`
def decodeObjs (i : Fin objBlocks) (buf : Block) (objects : Slot → Obj) : Slot → Obj :=
  fun o =>
    if o / objPerBlock = i.val then
      Obj.ofBytes (fun k => buf.get (Obj.sizeof * (o % objPerBlock) + k))
    else
      objects o

-- The copy in the other direction; the bytes behind the objects stay what they were.
def encodeObjs (i : Fin objBlocks) (objects : Slot → Obj) (buf : Block) : Block :=
  fun k =>
    if h : k / Obj.sizeof < objPerBlock then
      (objects (objInBlock i ⟨k / Obj.sizeof, h⟩)).byte (k % Obj.sizeof)
    else
      buf k

def markReserved (m : Bitmap blkBmpLn) : Bitmap blkBmpLn :=
  fun i =>
    if i * 64 < resBlocks then
      if (i + 1) * 64 < resBlocks then
        BitVec.allOnes 64
      else
        m i ||| ((1#64 <<< (resBlocks - i * 64)) - 1)
    else
      m i

def bmpBlockNo (i : Fin blkBmpBlocks) : BlockNo :=
  BitVec.ofNat 32 i

def objBlockNo (i : Fin objBlocks) : BlockNo :=
  BitVec.ofNat 32 (i + blkBmpBlocks)

namespace objstoreInit

def bitmap (env : Env) (i : Fin blkBmpBlocks) (s : (Fin blkBmpBlocks → Block) × World)
    : Except Fault (Loop.Flow Int ((Fin blkBmpBlocks → Block) × World)) :=
  let (bufs, w) := s
  match readBlock env (bmpBlockNo i) w with
  | (false, buf, w) => return .ret (-1) (Function.update bufs i buf, w)
  | (true, buf, w) => return .next (Function.update bufs i buf, w)

def objects (env : Env) (i : Fin objBlocks) (w : World) : Except Fault (Loop.Flow Int World) :=
  match readBlock env (objBlockNo i) w with
  | (false, _, w) => return .ret (-1) w
  | (true, buf, w) => return .next { w with objects := decodeObjs i buf w.objects }

end objstoreInit

-- The object data is a fresh zero filled mapping, which is not checked for `NULL`.
def objstoreInit (env : Env) (w : World) : Except Fault (Int × World) :=
  match cmalloc env w with
  | (none, _) => throw .nullPointer
  | (some _, w) =>
    let w := { w with
      objects := fun _ => Obj.zero
      objBmp := Bitmap.zero objBmpLn
      blkBmp := Bitmap.zero blkBmpLn
      cacheInfo := fun _ => 0#32 }
    match cmalloc env w with
    | (none, w) => return (-1, w)
    | (some zero, w) => do
      match ← Loop.run (objstoreInit.bitmap env) (Loop.range blkBmpBlocks) (fun _ => zero, w) with
      | .ret r (_, w) => return (r, w)
      | .next (bufs, w) | .stop (bufs, w) =>
        let w := { w with blkBmp := markReserved (decodeBmp bufs) }
        match ← Loop.run (objstoreInit.objects env) (Loop.range objBlocks) w with
        | .ret r w => return (r, w)
        | .next w | .stop w =>
          if env.cached then
            return (0, { w with cacheInfo := fun _ => 0#32 })
          else
            return (0, w)

namespace objstoreDestroy

-- The test is `!cache_info[i]`: the slots that are flushed are the empty ones.
def flush (env : Env) (i : Fin cacheLen) (w : World) : Except Fault (Loop.Flow Int World) :=
  if w.cacheInfo i = 0#32 then
    return .next (flushChBlk env i w).2
  else
    return .next w

-- The first loop, which is compiled for the cached build only.
def flushAll (env : Env) (w : World) : Except Fault (Loop.Flow Int World) :=
  if env.cached then
    Loop.run (flush env) (Loop.range cacheLen) w
  else
    .ok (.next w)

def bitmap (env : Env) (i : Fin blkBmpBlocks) (w : World) : Except Fault (Loop.Flow Int World) :=
  match writeBlock env (bmpBlockNo i) (encodeBmp w.blkBmp i) w with
  | (false, w) => return .ret (-1) w
  | (true, w) => return .next w

-- Is the dirty bit of some object of block `i` set?
def dirty (w : World) (i : Fin objBlocks) : Bool :=
  (Loop.range objPerBlock).any (fun j =>
    let o := objInBlock i j
    (w.objBmp (dirtyWord o) >>> (o.val % 64)) &&& 1#64 ≠ 0#64)

def objects (env : Env) (i : Fin objBlocks) (s : Block × World)
    : Except Fault (Loop.Flow Int (Block × World)) :=
  let (buf, w) := s
  if dirty w i then
    let buf := encodeObjs i w.objects buf
    match writeBlock env (objBlockNo i) buf w with
    | (false, w) => return .ret (-1) (buf, w)
    | (true, w) => return .next (buf, w)
  else
    return .next (buf, w)

end objstoreDestroy

def objstoreDestroy (env : Env) (w : World) : Except Fault (Int × World) := do
  match ← objstoreDestroy.flushAll env w with
  | .ret r w => return (r, w)
  | .next w | .stop w =>
    match cmalloc env w with
    | (none, w) => return (-1, w)
    | (some _, w) =>
      match ← Loop.run (objstoreDestroy.bitmap env) (Loop.range blkBmpBlocks) w with
      | .ret r w => return (r, w)
      | .next w | .stop w =>
        -- the buffer still starts with the first block of the bitmap
        let buf := encodeBmp w.blkBmp 0
        match ← Loop.run (objstoreDestroy.objects env) (Loop.range objBlocks) (buf, w) with
        | .ret r (_, w) => return (r, w)
        | .next (_, w) | .stop (_, w) => return (0, w)

end ObjStore
