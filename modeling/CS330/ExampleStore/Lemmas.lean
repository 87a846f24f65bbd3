import CS330.ExampleStore.Impl
import CS330.ObjStore.Lemmas.Object
import Mathlib.Data.List.TakeWhile

/-!
This module contains that the table comes back from its block as it was, and what the functions of the small
store do when no request fails.
-/

namespace ExampleStore

open ObjStore (Block CStr Mem Env Fault blockSize)

variable {env : Env} {w : World} {t : Table} {i j : Slot}

namespace Object

theorem byte_id (obj : Object) {k : Nat} (hk : k < 8) : obj.byte k = LE.byte obj.id k := by
  simp [byte, hk]

theorem byte_size (obj : Object) {k : Nat} (hk : k < 8) : obj.byte (8 + k) = LE.byte obj.size k := by
  have h1 : 8 + k < 16 := by omega
  simp [byte, h1]

theorem byte_cacheIndex (obj : Object) {k : Nat} (hk : k < 4) : obj.byte (16 + k) = LE.byte obj.cacheIndex k := by
  have h1 : ¬ 16 + k < 8 := by omega
  have h2 : 16 + k < 20 := by omega
  simp [byte, h1, h2]

theorem byte_dirty (obj : Object) {k : Nat} (hk : k < 4) : obj.byte (20 + k) = LE.byte obj.dirty k := by
  have h1 : ¬ 20 + k < 8 := by omega
  have h2 : ¬ 20 + k < 16 := by omega
  have h3 : 20 + k < 24 := by omega
  simp [byte, h1, h2, h3]

theorem byte_key (obj : Object) (k : Fin keySize) : obj.byte (24 + k) = obj.key k := by
  have h1 : ¬ 24 + k.val < 8 := by omega
  have h2 : ¬ 24 + k.val < 16 := by omega
  have h3 : ¬ 24 + k.val < 20 := by omega
  simp [byte, h1, h2, h3]

theorem ofBytes_eq (obj : Object) (f : Nat → Byte) (h : ∀ (k : Nat), k < sizeof → f k = obj.byte k)
    : ofBytes f = obj := by
  obtain ⟨id, size, cacheIndex, dirty, key⟩ := obj
  simp only [sizeof] at h
  unfold ofBytes
  congr 1
  . rw [LE.word_congr _ (LE.byte id)]
    . exact LE.word_byte _ _ rfl
    . intro k hk
      rw [h k (by omega), byte_id _ hk]
  . rw [LE.word_congr _ (LE.byte size)]
    . exact LE.word_byte _ _ rfl
    . intro k hk
      rw [h (8 + k) (by omega), byte_size _ hk]
  . rw [LE.word_congr _ (LE.byte cacheIndex)]
    . exact LE.word_byte _ _ rfl
    . intro k hk
      rw [h (16 + k) (by omega), byte_cacheIndex _ hk]
  . rw [LE.word_congr _ (LE.byte dirty)]
    . exact LE.word_byte _ _ rfl
    . intro k hk
      rw [h (20 + k) (by omega), byte_dirty _ hk]
  . funext k
    have hk := k.isLt
    simp only [keySize] at hk
    rw [h (24 + k) (by omega), byte_key]

end Object

namespace Table

theorem decode_encode (t : Table) : decode t.encode = t := by
  obtain ⟨objs, tail⟩ := t
  unfold decode
  congr 1
  . funext i
    apply Object.ofBytes_eq
    intro k hk
    have hi := i.isLt
    simp only [Object.sizeof, pageObjs] at hk hi
    have hlt : Object.sizeof * i.val + k < blockSize := by
      simp only [Object.sizeof, blockSize]
      omega
    have hdiv : (Object.sizeof * i.val + k) / Object.sizeof = i := by
      simp only [Object.sizeof]
      omega
    have hmod : (Object.sizeof * i.val + k) % Object.sizeof = k := by
      simp only [Object.sizeof]
      omega
    rw [Buf.get_lt _ _ hlt]
    simp only [encode, hdiv, hmod, i.isLt, ↓reduceDIte, Fin.eta]
  . funext k
    have hk := k.isLt
    have hlt : Object.sizeof * pageObjs + k.val < blockSize := by
      simp only [Object.sizeof, pageObjs, blockSize]
      omega
    have hdiv : ¬ (Object.sizeof * pageObjs + k.val) / Object.sizeof < pageObjs := by
      simp only [Object.sizeof, pageObjs]
      omega
    rw [Buf.get_lt _ _ hlt]
    simp [encode, hdiv]

theorem decode_zero : decode (Buf.zero blockSize) = zero := by
  have hobj : Object.ofBytes (fun _ => 0#8) = Object.zero := by
    unfold Object.ofBytes Object.zero
    simp only [LE.word_zero]
    rfl
  unfold decode zero
  congr 1
  . funext i
    simp only [Buf.get_zero]
    exact hobj
  . funext k
    simp [Buf.zero]

end Table

theorem cstr_eq_iff {n : Nat} (b : Buf n) (hnul : ∃ (k : Fin n), b k = 0#8) (key : CStr)
    : b.cstr = key.chars ↔ key.strcmp b.get = true := by
  rw [CStr.strcmp_iff]
  by_cases hlen : key.len < n
  . exact Buf.cstr_eq_iff b key.mem key.len hlen key.nul key.nonzero
  . -- the terminator of the field comes first
    obtain ⟨k₀, hk₀⟩ := hnul
    constructor
    . intro heq
      have hle : (List.ofFn b).length ≤ b.cstr.length := by
        rw [heq, CStr.length_chars, List.length_ofFn]
        omega
      have hall := (List.takeWhile_prefix (p := fun c => decide (c ≠ 0#8)) (l := List.ofFn b)).eq_of_length_le hle
      have hmem : b k₀ ∈ (List.ofFn b).takeWhile (fun c => decide (c ≠ 0#8)) := by
        rw [hall, List.mem_ofFn]
        exact ⟨k₀, rfl⟩
      have hne := List.mem_takeWhile_imp hmem
      rw [hk₀] at hne
      simp at hne
    . intro hall
      have hk := k₀.isLt
      have heq := hall k₀ (by omega)
      rw [Buf.get_val, hk₀] at heq
      exact absurd heq.symm (key.nonzero k₀ (by omega))

theorem Slot.index_inj : i.index = j.index ↔ i = j := by
  simp [Slot.index, Fin.ext_iff]

@[simp]
theorem Table.setObj_self (t : Table) (i : Fin pageObjs) (obj : Object) : (t.setObj i obj).objs i = obj := by
  simp [setObj]

theorem Table.setObj_ne (t : Table) {i j : Fin pageObjs} (obj : Object) (h : j ≠ i)
    : (t.setObj i obj).objs j = t.objs j := by
  simp [setObj, h]

section

variable (hr : env.Reliable)

include hr

theorem readBlock_eq (b : Nat) (w : World) : readBlock env b w = (true, w.disk b, w.request) := by
  simp [readBlock, hr w.requests]

theorem writeBlock_eq (b : Nat) (buf : Block) (w : World)
    : writeBlock env b buf w = (true, { w with disk := Function.update w.disk b buf }.request) := by
  simp [writeBlock, hr w.requests]

theorem malloc4k_eq (w : World) : malloc4k env w = (some (Buf.zero blockSize), w.request) := by
  simp [malloc4k, hr w.requests]

end

end ExampleStore
