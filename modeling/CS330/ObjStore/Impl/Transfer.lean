import CS330.ObjStore.Impl.Object

/-!
This module contains `objstore_write` and `objstore_read` of `objstore.c`. Their nested functions share
the locals of the enclosing call, which are passed around as an `Xfer`.
-/

namespace ObjStore

-- The locals of a transfer; `temp` is `none` when `cmalloc` returned `NULL`.
structure Xfer where
  remaining : Nat
  shift : Nat
  blocksDone : Nat
  temp : Option Block

abbrev Mem := Nat → Byte

def Mem.copy (dst : Mem) (pos : Nat) (src : Nat → Byte) (len : Nat) : Mem :=
  fun i => if pos ≤ i ∧ i < pos + len then src (i - pos) else dst i

-- `start_block` is a `uint32_t`.
def startBlock (offset : Nat) : Nat :=
  (offset / blockSize) % 2 ^ 32

-- `(remaining > BLOCK_SIZE) ? BLOCK_SIZE : remaining`
def curSize (remaining : Nat) : Nat :=
  if remaining > blockSize then blockSize else remaining

def Xfer.start (size offset : Nat) (temp : Option Block) : Xfer where
  remaining := size
  shift := offset % blockSize
  blocksDone := 0
  temp := temp

-- `update_block` with the null pointer for `temp`
def updateBlock.noTemp (env : Env) (p : BlockNo) (x : Xfer) (w : World)
    : Except Fault (Int × BlockNo × Xfer × World) :=
  if 0 < x.shift then do
    let w ← readChBlkNull env p w
    return (-1, p, x, w)
  else
    throw .nullPointer

/--
`update_block`: the result code, which both callers discard, then `*block_ptr` after the call. The test
`*block_ptr < 0` is never true since the pointer is unsigned.
-/
def updateBlock (env : Env) (buf : Mem) (size : Nat) (p : BlockNo) (x : Xfer) (w : World)
    : Except Fault (Int × BlockNo × Xfer × World) :=
  if 0 < x.remaining then
    let (p, w) := if p = 0#32 then allocBlock w else (p, w)
    match x.temp with
    | none => updateBlock.noTemp env p x w
    | some temp =>
      match (if 0 < x.shift then readChBlk env p temp w else (true, temp, w)) with
      | (false, temp, w) => .ok (-1, p, { x with temp := some temp }, w)
      | (true, temp, w) =>
        if blockSize < x.shift + curSize x.remaining then
          .error .tempOverrun
        else
          let temp := temp.copy x.shift (fun i => buf (size - x.remaining + i)) (curSize x.remaining)
          match writeChBlk env p temp w with
          | (false, w) => .ok (-1, p, { x with temp := some temp }, w)
          | (true, w) =>
            let x := { x with
              remaining := x.remaining - curSize x.remaining, shift := 0, temp := some temp }
            .ok (0, p, x, w)
  else
    .ok (0, p, x, w)

namespace objstoreWrite

def direct (env : Env) (o : Slot) (buf : Mem) (size start : Nat) (i : Fin 4) (s : Xfer × World)
    : Except Fault (Loop.Flow Int (Xfer × World)) :=
  let (x, w) := s
  if x.blocksDone < start then
    return .next ({ x with blocksDone := x.blocksDone + 1 }, w)
  else do
    let (_, p, x, w) ← updateBlock env buf size ((w.objects o).direct i) x w
    return .next
      (x, w.setObj o { w.objects o with direct := Function.update (w.objects o).direct i p })

-- One pass of the loop over the entries of a pointer block, which sits in `block_buf`.
def entry (env : Env) (buf : Mem) (size start : Nat) (j : Fin 1024) (s : Xfer × World × Block)
    : Except Fault (Loop.Flow Int (Xfer × World × Block)) :=
  let (x, w, blockBuf) := s
  if x.blocksDone < start then
    return .next ({ x with blocksDone := x.blocksDone + 1 }, w, blockBuf)
  else do
    let (_, p, x, w) ← updateBlock env buf size (ptrAt blockBuf j) x w
    return .next (x, w, setPtr blockBuf j p)

-- Get hold of the pointer block: a new one is allocated and cleared, an old one is read.
def pointerBlock (env : Env) (o : Slot) (i : Fin 4) (blockBuf : Block) (w : World)
    : Bool × Block × World :=
  if (w.objects o).indirect i = 0#32 then
    let (p, w) := allocBlock w
    let w := w.setObj o { w.objects o with indirect := Function.update (w.objects o).indirect i p }
    (true, Buf.zero blockSize, w)
  else
    readChBlk env ((w.objects o).indirect i) blockBuf w

def indirect (env : Env) (o : Slot) (buf : Mem) (size start : Nat) (i : Fin 4) (s : Xfer × World)
    : Except Fault (Loop.Flow Int (Xfer × World)) :=
  let (x, w) := s
  if 0 < x.remaining then
    match cmalloc env w with
    | (none, w) => return .ret (-1) (x, w)
    | (some blockBuf, w) =>
      match pointerBlock env o i blockBuf w with
      | (false, _, w) => return .ret (-1) (x, w)
      | (true, blockBuf, w) => do
        match ← Loop.run (entry env buf size start) (Loop.range 1024) (x, w, blockBuf) with
        | .ret r (x, w, _) => return .ret r (x, w)
        | .next (x, w, blockBuf) | .stop (x, w, blockBuf) =>
          match writeChBlk env ((w.objects o).indirect i) blockBuf w with
          | (false, w) => return .ret (-1) (x, w)
          | (true, w) => return .next (x, w)
  else
    return .next (x, w)

end objstoreWrite

def objstoreWrite (env : Env) (objid : Int) (buf : Mem) (size offset : Nat) (w : World)
    : Except Fault (Int × World) :=
  if objid < 2 then
    return (-1, w)
  else if size > maxSize then
    return (-1, w)
  else if h : (objid - 2).toNat < maxObjs then do
    let o : Slot := ⟨(objid - 2).toNat, h⟩
    let (temp, w) := cmalloc env w
    let start := startBlock offset
    let x := Xfer.start size offset temp
    match ← Loop.run (objstoreWrite.direct env o buf size start) (Loop.range 4) (x, w) with
    | .ret r (_, w) => return (r, w)
    | .next s | .stop s =>
      match ← Loop.run (objstoreWrite.indirect env o buf size start) (Loop.range 4) s with
      | .ret r (_, w) => return (r, w)
      | .next (_, w) | .stop (_, w) =>
        let w := w.setObj o { w.objects o with size := BitVec.ofNat 64 (offset + size) }
        let w := markObjDirty o w
        return (size, w)
  else
    throw .outOfBounds

-- `get_block_data` with the null pointer for `temp`
def getBlockData.noTemp (env : Env) (b : BlockNo) (x : Xfer) (buf : Mem) (w : World)
    : Except Fault (Int × Xfer × Mem × World) := do
  let w ← readChBlkNull env b w
  return (-1, x, buf, w.unlock .rd)

-- `get_block_data`, with the user's buffer after the call; the result code is discarded as well.
def getBlockData (env : Env) (size : Nat) (b : BlockNo) (x : Xfer) (buf : Mem) (w : World)
    : Except Fault (Int × Xfer × Mem × World) :=
  if 0 < x.remaining then
    match x.temp with
    | none => getBlockData.noTemp env b x buf w
    | some temp =>
      match readChBlk env b temp w with
      | (false, temp, w) => .ok (-1, { x with temp := some temp }, buf, w.unlock .rd)
      | (true, temp, w) =>
        if blockSize < x.shift + curSize x.remaining then
          .error .tempOverrun
        else
          let buf := buf.copy (size - x.remaining) (fun i => temp.get (x.shift + i))
            (curSize x.remaining)
          let x := { x with
            remaining := x.remaining - curSize x.remaining, shift := 0, temp := some temp }
          .ok (0, x, buf, w)
  else
    .ok (0, x, buf, w)

namespace objstoreRead

def direct (env : Env) (o : Slot) (size start : Nat) (i : Fin 4) (s : Xfer × Mem × World)
    : Except Fault (Loop.Flow Int (Xfer × Mem × World)) :=
  let (x, buf, w) := s
  if x.blocksDone < start then
    return .next ({ x with blocksDone := x.blocksDone + 1 }, buf, w)
  else if (w.objects o).direct i ≠ 0#32 then do
    let (_, x, buf, w) ← getBlockData env size ((w.objects o).direct i) x buf w
    return .next (x, buf, w)
  else
    return .stop (x, buf, w)

def entry (env : Env) (size start : Nat) (blockData : Block) (j : Fin 1024)
    (s : Xfer × Mem × World)
    : Except Fault (Loop.Flow Int (Xfer × Mem × World)) :=
  let (x, buf, w) := s
  if x.blocksDone < start then
    return .next ({ x with blocksDone := x.blocksDone + 1 }, buf, w)
  else if ptrAt blockData j ≠ 0#32 then do
    let (_, x, buf, w) ← getBlockData env size (ptrAt blockData j) x buf w
    return .next (x, buf, w)
  else
    return .stop (x, buf, w)

def indirect (env : Env) (o : Slot) (size start : Nat) (i : Fin 4) (s : Xfer × Mem × World)
    : Except Fault (Loop.Flow Int (Xfer × Mem × World)) :=
  let (x, buf, w) := s
  if (w.objects o).indirect i ≠ 0#32 ∧ 0 < x.remaining then
    match cmalloc env w with
    | (none, w) => return .ret (-1) (x, buf, w.unlock .rd)
    | (some blockBuf, w) =>
      match readChBlk env ((w.objects o).indirect i) blockBuf w with
      | (false, _, w) => return .ret (-1) (x, buf, w.unlock .rd)
      | (true, blockData, w) =>
        -- a `break` of the inner loop goes on with the next pointer block
        Loop.run (entry env size start blockData) (Loop.range 1024) (x, buf, w)
  else
    return .stop (x, buf, w)

end objstoreRead

def objstoreRead (env : Env) (objid : Int) (buf : Mem) (size offset : Nat) (w : World)
    : Except Fault (Int × Mem × World) :=
  let w := w.lock .rd
  if objid < 2 then
    return (-1, buf, w.unlock .rd)
  else if size > maxSize then
    return (-1, buf, w.unlock .rd)
  else if h : (objid - 2).toNat < maxObjs then do
    let o : Slot := ⟨(objid - 2).toNat, h⟩
    let (temp, w) := cmalloc env w
    let start := startBlock offset
    let x := Xfer.start size offset temp
    match ← Loop.run (objstoreRead.direct env o size start) (Loop.range 4) (x, buf, w) with
    | .ret r (_, buf, w) => return (r, buf, w)
    | .next s | .stop s =>
      match ← Loop.run (objstoreRead.indirect env o size start) (Loop.range 4) s with
      | .ret r (_, buf, w) => return (r, buf, w)
      | .next (x, buf, w) | .stop (x, buf, w) =>
        -- what could not be read is filled with zeros
        let buf := buf.copy (size - x.remaining) (fun _ => 0#8) x.remaining
        return (size, buf, w.unlock .rd)
  else
    throw .outOfBounds

end ObjStore
