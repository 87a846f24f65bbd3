import CS330.ObjStore.Impl.Object

/-!
This module contains that objects and their in-memory representation determine each other, and which
field a byte of the representation belongs to.
-/

namespace ObjStore

namespace Obj

@[ext]
theorem ext {a b : Obj} (h1 : a.size = b.size) (h2 : a.key = b.key) (h3 : a.direct = b.direct)
    (h4 : a.indirect = b.indirect)
    : a = b := by
  cases a
  cases b
  simp_all

theorem byte_size (obj : Obj) (k : Nat) (hk : k < 8) : obj.byte k = LE.byte obj.size k := by
  simp [byte, hk]

theorem byte_key (obj : Obj) (k : Fin keySize) : obj.byte (8 + k) = obj.key k := by
  have hk := k.isLt
  simp only [keySize] at hk
  have h1 : ¬ 8 + k.val < 8 := by omega
  have h2 : 8 + k.val < 40 := by omega
  simp [byte, h1, h2]

theorem byte_direct (obj : Obj) (i : Fin 4) (k : Nat) (hk : k < 4)
    : obj.byte (40 + 4 * i + k) = LE.byte (obj.direct i) k := by
  have h1 : ¬ 40 + 4 * i.val + k < 8 := by omega
  have h2 : ¬ 40 + 4 * i.val + k < 40 := by omega
  have h3 : 40 + 4 * i.val + k < 56 := by omega
  have h4 : (40 + 4 * i.val + k - 40) / 4 = i := by omega
  have h5 : (40 + 4 * i.val + k - 40) % 4 = k := by omega
  simp [byte, h1, h2, h3, h4, h5]

theorem byte_indirect (obj : Obj) (i : Fin 4) (k : Nat) (hk : k < 4)
    : obj.byte (56 + 4 * i + k) = LE.byte (obj.indirect i) k := by
  have h1 : ¬ 56 + 4 * i.val + k < 8 := by omega
  have h2 : ¬ 56 + 4 * i.val + k < 40 := by omega
  have h3 : ¬ 56 + 4 * i.val + k < 56 := by omega
  have h4 : 56 + 4 * i.val + k < 72 := by omega
  have h5 : (56 + 4 * i.val + k - 56) / 4 = i := by omega
  have h6 : (56 + 4 * i.val + k - 56) % 4 = k := by omega
  simp [byte, h1, h2, h3, h4, h5, h6]

theorem ofBytes_eq (obj : Obj) (f : Nat → Byte) (h : ∀ (k : Nat), k < sizeof → f k = obj.byte k)
    : ofBytes f = obj := by
  simp only [sizeof] at h
  apply ext
  . simp only [ofBytes]
    rw [LE.word_congr _ (LE.byte obj.size)]
    . exact LE.word_byte _ _ rfl
    . intro k hk
      rw [h k (by omega), byte_size _ _ hk]
  . funext i
    have hi := i.isLt
    simp only [keySize] at hi
    simp only [ofBytes]
    rw [h (8 + i) (by omega), byte_key]
  . funext i
    simp only [ofBytes]
    rw [LE.word_congr _ (LE.byte (obj.direct i))]
    . exact LE.word_byte _ _ rfl
    . intro k hk
      rw [h (40 + 4 * i + k) (by omega), byte_direct _ _ _ hk]
  . funext i
    simp only [ofBytes]
    rw [LE.word_congr _ (LE.byte (obj.indirect i))]
    . exact LE.word_byte _ _ rfl
    . intro k hk
      rw [h (56 + 4 * i + k) (by omega), byte_indirect _ _ _ hk]

theorem byte_setKey (obj : Obj) (key : Buf keySize) (k : Nat) (hk : k < 8 ∨ 40 ≤ k)
    : { obj with key := key }.byte k = obj.byte k := by
  unfold byte
  split
  . rfl
  . split
    . omega
    . rfl

theorem setByte_key (obj : Obj) (k : Fin keySize) (v : Byte)
    : obj.setByte (8 + k) v = { obj with key := Function.update obj.key k v } := by
  apply ofBytes_eq
  intro i hi
  by_cases hkey : 8 ≤ i ∧ i < 40
  . obtain ⟨j, rfl⟩ : ∃ (j : Fin keySize), i = 8 + j.val :=
      ⟨⟨i - 8, show i - 8 < 32 by omega⟩, show i = 8 + (i - 8) by omega⟩
    rw [byte_key, byte_key]
    simp only [Function.update_apply, Nat.add_left_cancel_iff, Fin.ext_iff]
  . have hk := k.isLt
    simp only [keySize] at hk
    rw [if_neg (by omega)]
    exact (byte_setKey obj _ i (by omega)).symm

end Obj

namespace World

theorem objMem_slot (w : World) (o : Slot) {i : Nat} (hi : i < Obj.sizeof)
    : w.objMem (Obj.sizeof * o + i) = (w.objects o).byte i := by
  have ho := o.isLt
  have haddr : Obj.sizeof * o.val + i < Obj.sizeof * maxObjs := by
    simp only [Obj.sizeof, maxObjs] at hi ho ⊢
    omega
  have hdiv : (Obj.sizeof * o.val + i) / Obj.sizeof = o := by
    simp only [Obj.sizeof] at hi ⊢
    omega
  have hmod : (Obj.sizeof * o.val + i) % Obj.sizeof = i := by
    simp only [Obj.sizeof] at hi ⊢
    omega
  simp only [objMem, haddr, ↓reduceDIte, hdiv, hmod]

theorem objMem_key (w : World) (o : Slot) (k : Fin keySize)
    : w.objMem (Obj.sizeof * o + 8 + k) = (w.objects o).key k := by
  have hk : 8 + k.val < Obj.sizeof := by
    have := k.isLt
    simp only [keySize, Obj.sizeof] at this ⊢
    omega
  rw [Nat.add_assoc, objMem_slot w o hk, Obj.byte_key]

end World

namespace createObject

theorem poke_key (objects : Slot → Obj) (o : Slot) (k : Fin keySize) (v : Byte)
    : poke objects (Obj.sizeof * o + 8 + k) v
        =
      .ok (Function.update objects o
        { objects o with key := Function.update (objects o).key k v }) := by
  have ho := o.isLt
  have hk := k.isLt
  simp only [keySize, maxObjs] at hk ho
  have h1 : (Obj.sizeof * o.val + 8 + k.val) / Obj.sizeof = o := by
    simp only [Obj.sizeof]
    omega
  have h2 : (Obj.sizeof * o.val + 8 + k.val) % Obj.sizeof = 8 + k := by
    simp only [Obj.sizeof]
    omega
  simp only [poke, h1, o.isLt, ↓reduceDIte, h2, Obj.setByte_key]

def copied (key : CStr) (k n : Nat) (old : Buf keySize) : Buf keySize :=
  fun i => if k ≤ i.val ∧ i.val < k + n then key.mem i else old i

-- `strcpy` stays inside the key field as long as the string does.
theorem strcpy_eq (o : Slot) (key : CStr) (n k : Nat) (objects : Slot → Obj) (hn : k + n ≤ keySize)
    : strcpy o key n k objects
        =
      .ok (Function.update objects o
        { objects o with key := copied key k n (objects o).key }) := by
  induction n generalizing k objects with
  | zero =>
    have : copied key k 0 (objects o).key = (objects o).key := by
      funext i
      have : ¬ (k ≤ i.val ∧ i.val < k + 0) := by omega
      simp only [copied, this, ↓reduceIte]
    simp [strcpy, this]
  | succ n ih =>
    have hk : k < keySize := by omega
    have hpoke := poke_key objects o ⟨k, hk⟩ (key.mem k)
    simp only at hpoke
    simp only [strcpy, hpoke, bind, Except.bind]
    rw [ih (k + 1) _ (by omega)]
    simp only [Function.update_self, Function.update_idem]
    congr 3
    funext i
    simp only [copied, Function.update_apply]
    by_cases hi : i = ⟨k, hk⟩
    . subst hi
      simp
    . have hne : i.val ≠ k := fun h => hi (Fin.ext h)
      have hiff : (k + 1 ≤ i.val ∧ i.val < k + 1 + n) ↔ (k ≤ i.val ∧ i.val < k + (n + 1)) := by
        omega
      simp only [hiff, hi, ↓reduceIte]

end createObject

end ObjStore
