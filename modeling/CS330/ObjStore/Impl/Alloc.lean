import CS330.ObjStore.Impl.Block
import CS330.Lib.Loop

/-!
This module contains the block bitmap and the dirty bits of `objstore.c`.
-/

namespace ObjStore

namespace allocBlock

-- The bits `j, j + 1, ...` of word `i`, `n` of them; `temp` is the word shifted by `j`.
def bits (i : Fin blkBmpLn) : Nat → Nat → BitVec 64 → World → Option BlockNo × World
  | 0, _, _, w => (none, w)
  | n + 1, j, temp, w =>
    let w := w.lock .blkBmp
    if temp &&& 1#64 = 0#64 then
      let w := { w with blkBmp := w.blkBmp.orBit i j }
      (some (BitVec.ofNat 32 (64 * i + j)), w.unlock .blkBmp)
    else
      bits i n (j + 1) (temp >>> 1) (w.unlock .blkBmp)

def words : List (Fin blkBmpLn) → World → BlockNo × World
  | [], w => (-1, w.emit .noSpace)
  | i :: is, w =>
    match bits i 64 0 (w.blkBmp i) w with
    | (some b, w) => (b, w)
    | (none, w) => words is w

end allocBlock

-- The failure value `-1` is returned as the block number `0xFFFFFFFF`.
def allocBlock (w : World) : BlockNo × World :=
  allocBlock.words ((Loop.range blkBmpLn).drop (resBlocks / 64 - 1)) w

-- Always returns 0, which is left out.
def freeBlock (b : BlockNo) (w : World) : Except Fault World :=
  if h : b.toNat / 64 < blkBmpLn then
    let w := w.lock .blkBmp
    let w := { w with blkBmp := w.blkBmp.andNotBit ⟨b.toNat / 64, h⟩ (b.toNat % 64) }
    .ok (w.unlock .blkBmp)
  else
    .error .outOfBounds

-- A pointer block as `uint32_t[1024]`.
def ptrAt (buf : Block) (j : Fin 1024) : BlockNo :=
  buf.word 32 4 j

def setPtr (buf : Block) (j : Fin 1024) (p : BlockNo) : Block :=
  buf.setWord 4 j p

def freePointerBlock.entry (blockData : Block) (j : Fin 1024) (w : World)
    : Except Fault (Loop.Flow Int World) :=
  if ptrAt blockData j ≠ 0#32 then do
    let w ← freeBlock (ptrAt blockData j) w
    return .next w
  else
    return .next w

def freePointerBlock (env : Env) (b : BlockNo) (w : World) : Except Fault (Int × World) :=
  match cmalloc env w with
  | (none, w) => .ok (-1, w)
  | (some buf, w) =>
    match readChBlk env b buf w with
    | (false, _, w) => .ok (-1, w)
    | (true, blockData, w) => do
      match ← Loop.run (freePointerBlock.entry blockData) (Loop.range 1024) w with
      | .ret r w => return (r, w)
      | .next w | .stop w =>
        let w ← freeBlock b w
        return (0, w)

-- `(objid - 2) / 64`
def dirtyWord (o : Slot) : Fin objBmpLn :=
  ⟨o / 64, by
    have := o.isLt
    simp only [objBmpLn]
    omega⟩

def markObjDirty (o : Slot) (w : World) : World :=
  let w := w.lock .objBmp
  let w := { w with objBmp := w.objBmp.orBit (dirtyWord o) (o % 64) }
  w.unlock .objBmp

end ObjStore
