import CS330.Lib.Bytes

/-!
This module contains byte addressed memory with 64 bit addresses, and the words that are stored in it.
-/

abbrev Memory := BitVec 64 → Byte

namespace Memory

def load (m : Memory) (a : BitVec 64) : BitVec 64 :=
  LE.word 64 (fun k => m (a + BitVec.ofNat 64 k)) 8

def store (m : Memory) (a : BitVec 64) (v : BitVec 64) : Memory :=
  fun x => if (x - a).toNat < 8 then LE.byte v (x - a).toNat else m x

theorem load_store (m : Memory) (a v : BitVec 64) : (m.store a v).load a = v := by
  unfold load
  rw [LE.word_congr _ (LE.byte v)]
  . apply LE.word_byte
    omega
  . intro k hk
    have hpos : (a + BitVec.ofNat 64 k - a).toNat = k := by
      rw [BitVec.add_comm, BitVec.add_sub_cancel, BitVec.toNat_ofNat]
      omega
    simp only [store, hpos, hk, ↓reduceIte]

-- nothing changes exactly if the word is there already
theorem store_eq_self_iff (m : Memory) (a v : BitVec 64) : m.store a v = m ↔ m.load a = v := by
  constructor
  . intro h
    rw [← h]
    apply load_store
  . intro h
    funext x
    unfold store
    split
    . next hx =>
      have hpos : a + BitVec.ofNat 64 (x - a).toNat = x := by
        rw [BitVec.ofNat_toNat, BitVec.setWidth_eq, BitVec.add_comm, BitVec.sub_add_cancel]
      rw [← h, load, LE.byte_word _ _ _ (by omega) hx, hpos]
    . rfl

end Memory
