import CS330.ObjStore.Basic

/-!
This module contains block I/O (`lib.c`), page allocation and the block cache of `objstore.c`. A
function that fails returns `false` where the source returns `-1`.
-/

namespace ObjStore

-- The buffer after the call comes back with the result.
def readBlock (env : Env) (b : BlockNo) (w : World) : Bool × Block × World :=
  if env.fails w.log.length then
    (false, env.junk w.log.length, w.emit (.readBlock b false))
  else
    (true, w.disk b, w.emit (.readBlock b true))

def writeBlock (env : Env) (b : BlockNo) (buf : Block) (w : World) : Bool × World :=
  if env.fails w.log.length then
    (false, w.emit (.writeBlock b false))
  else
    (true, { w with disk := Function.update w.disk b buf }.emit (.writeBlock b true))

-- A zero filled page, or `NULL`.
def cmalloc (env : Env) (w : World) : Option Block × World :=
  if env.fails w.log.length then
    (none, w.emit (.cmalloc false))
  else
    (some (Buf.zero blockSize), w.emit (.cmalloc true))

-- `block_num % CACHE_LEN`
def cacheIndex (b : BlockNo) : Fin cacheLen :=
  ⟨b.toNat % cacheLen, Nat.mod_lt _ (by decide)⟩

def flushChBlk (env : Env) (index : Fin cacheLen) (w : World) : Bool × World :=
  match writeBlock env (w.cacheInfo index) (w.cache index) w with
  | (false, w) => (false, w)
  | (true, w) => (true, { w with cacheInfo := Function.update w.cacheInfo index 0#32 })

-- `buf` is what the caller's buffer holds before the call.
def readChBlk (env : Env) (b : BlockNo) (buf : Block) (w : World) : Bool × Block × World :=
  if env.cached then
    let index := cacheIndex b
    let w := w.lock .ch
    if w.cacheInfo index ≠ b then
      match flushChBlk env index w with
      | (false, w) => (false, buf, w.unlock .ch)
      | (true, w) =>
        let w := { w with cacheInfo := Function.update w.cacheInfo index b }
        -- the line is the buffer of this read, so that a failure leaves junk under the new tag
        match readBlock env b w with
        | (false, line, w) =>
          (false, buf, { w with cache := Function.update w.cache index line }.unlock .ch)
        | (true, line, w) =>
          (true, line, { w with cache := Function.update w.cache index line }.unlock .ch)
    else
      (true, w.cache index, w.unlock .ch)
  else
    readBlock env b w

-- The buffer is the null pointer: `pread` refuses it, `memcpy` does not.
def readChBlkNull (env : Env) (b : BlockNo) (w : World) : Except Fault World :=
  if env.cached then
    match readChBlk env b (Buf.zero blockSize) w with
    | (false, _, w) => .ok w
    | (true, _, _) => .error .nullPointer
  else
    .ok (w.emit (.readBlock b false))

def writeChBlk (env : Env) (b : BlockNo) (buf : Block) (w : World) : Bool × World :=
  if env.cached then
    let index := cacheIndex b
    let w := w.lock .ch
    if w.cacheInfo index ≠ b then
      match flushChBlk env index w with
      | (false, w) => (false, w.unlock .ch)
      | (true, w) =>
        let w := { w with cacheInfo := Function.update w.cacheInfo index b }
        (true, { w with cache := Function.update w.cache index buf }.unlock .ch)
    else
      (true, { w with cache := Function.update w.cache index buf }.unlock .ch)
  else
    writeBlock env b buf w

end ObjStore
