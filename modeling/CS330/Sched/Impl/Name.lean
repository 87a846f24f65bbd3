import CS330.Sched.Basic

/-!
This module contains how `do_clone` builds the name of a new process: the parent's name and its pid in
decimal, put together in local buffers that are not initialised.
-/

namespace Sched

-- `none` when no terminator is found inside the buffer
def strlen (b : Buf cnameMax) : Option Nat :=
  ((Loop.range cnameMax).find? (fun i => b i == 0#8)).map Fin.val

def poke (b : Buf cnameMax) (i : Nat) (v : Byte) : Except Fault (Buf cnameMax) :=
  if h : i < cnameMax then .ok (Function.update b ⟨i, h⟩ v) else .error .outOfBounds

namespace numToStr

-- the first loop; `num` passes are enough
def reverse : Nat → Nat → Nat → Except Fault Nat
  | 0, _, rev => .ok rev
  | n + 1, num, rev =>
    if 0 < num then
      if rev * 10 + num % 10 < 2 ^ 31 then
        reverse n (num / 10) (rev * 10 + num % 10)
      else
        .error .overflow
    else
      .ok rev

-- the second loop, then the terminator
def digits : Nat → Nat → Nat → Buf cnameMax → Except Fault (Buf cnameMax)
  | 0, _, i, str => poke str i 0#8
  | n + 1, rev, i, str =>
    if 0 < rev then do
      let str ← poke str i (BitVec.ofNat 8 (48 + rev % 10))
      digits n (rev / 10) (i + 1) str
    else
      poke str i 0#8

end numToStr

-- A number that is not positive ends both loops at once.
def numToStr (str : Buf cnameMax) (num : Int) : Except Fault (Buf cnameMax) := do
  let rev ← numToStr.reverse num.toNat num.toNat 0
  numToStr.digits rev rev 0 str

-- `strcat(dst, src)` for a `src` of length `len`
def strcat (dst src : Buf cnameMax) (len : Nat) : Except Fault (Buf cnameMax) :=
  match strlen dst with
  | none => .error .outOfBounds
  | some n => if n + len + 1 ≤ cnameMax then .ok (dst.copy n src.get (len + 1)) else .error .outOfBounds

-- The name of the new context. `name` and `pid` are the local buffers before they are written, `old` is what
-- the name field of the new context held.
def cloneName (parent : Buf cnameMax) (num : Nat) (name pid old : Buf cnameMax)
    : Except Fault (Buf cnameMax) :=
  match strlen parent with
  | none => .error .outOfBounds
  | some length => do
    let name := name.copy 0 parent.get length
    -- a `u32` is passed as an `int`
    let pid ← numToStr pid (BitVec.ofNat 32 num).toInt
    match strlen pid with
    | none => throw .outOfBounds
    | some pidLen =>
      let name ← if length + pidLen + 1 < cnameMax then strcat name pid pidLen else pure name
      if length + pidLen + 1 ≤ cnameMax then
        poke (old.copy 0 name.get (length + pidLen + 1)) (length + pidLen + 1) 0#8
      else
        throw .outOfBounds

end Sched
