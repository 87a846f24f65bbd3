import CS330.ObjStore.Clashes

/-!
This module contains what `create_object` and `rename_object` do for keys of any length. A key that does not end in its
field goes on in the block pointers of the object and in the objects after it: `create_object` writes there, and lookups
compare what is there.
-/

namespace ObjStore

-- The slot that `create_object` looks for, whatever its key is.
structure World.FirstFree (w : World) (o : Slot) : Prop where
  free : (w.objects o).size = 0#64
  first : ∀ (j : Slot), j < o → (w.objects j).size ≠ 0#64

-- What a lookup of `s` at slot `o` compares behind the key field. The dirty bits come after the objects.
def World.Tail (w : World) (o : Slot) (s : CStr) : Prop :=
  ∀ (k : Nat), keySize ≤ k → k ≤ s.len → (markObjDirty o w).objMem (Obj.sizeof * o + 8 + k) = s.mem k

-- From the key field of slot `j` on, the table spells `s` up to its last byte, a 1 that falls on the size of slot `o`.
def World.SpellsUpTo (w : World) (s : CStr) (j o : Slot) : Prop :=
  ∃ (n : Nat), s.len = n + 1 ∧ Obj.sizeof * j + 8 + n = Obj.sizeof * o ∧ s.mem n = 1#8
    ∧ ∀ (k : Nat), k < n → w.objMem (Obj.sizeof * j + 8 + k) = s.mem k

/--
The part of `key` behind the field of slot `o` lies in the object table and is there already, and the size 1 of the slot
does not complete the key for a slot before it.
-/
structure createObject.Fits (key : CStr) (w : World) (o : Slot) : Prop where
  inside : Obj.sizeof * o + 8 + key.len < Obj.sizeof * maxObjs
  tail : w.Tail o key
  alone : ∀ (j : Slot), ¬ w.SpellsUpTo key j o

def World.Unchanged (w w' : World) : Prop :=
  ∃ (log : List Event), w' = { w with log := log }

def World.setName (w : World) (o : Slot) (size : BitVec 64) (field : Buf keySize) (log : List Event) : World :=
  { w with
    objects := Function.update w.objects o { w.objects o with size := size, key := field }
    objBmp := w.objBmp.set o
    log := log }

/-- The whole string leads to slot `o`, and nothing is different but its key, its size and its dirty bit. -/
structure World.Renamed (w : World) (s : CStr) (o : Slot) (size : BitVec 64) (w' : World) : Prop where
  found : findObjectId s w' = o.id
  frame : ∃ (field : Buf keySize) (log : List Event), w' = w.setName o size field log

def createObject.Framed (key : CStr) (w : World) : Prop :=
  ∃ (r : Int) (w' : World), createObject key w = .ok (r, w')
    ∧ ((r = -1 ∧ w.Unchanged w') ∨ ∃ (o : Slot), r = o.id ∧ w.Renamed key o 1#64 w')

def renameObject.Framed (key newname : CStr) (w : World) : Prop :=
  ((renameObject key newname w).1 = -1 ∧ w.Unchanged (renameObject key newname w).2)
    ∨ ∃ (o : Slot), (renameObject key newname w).1 = o.id
      ∧ w.Renamed newname o (w.objects o).size (renameObject key newname w).2

variable {w w' : World} {o : Slot} {s key newname : CStr}

/-! Which slot the two scans end with. -/

namespace createObject

theorem scan_taken (is : List Slot) (res : Option Slot)
    : scan w key is (some o) = some res ↔ res = some o ∧ ∀ (j : Slot), j ∈ is → w.keyEq j key = false := by
  induction is with
  | nil =>
    simp only [scan, Option.some.injEq, List.not_mem_nil, false_implies, implies_true, and_true]
    exact eq_comm
  | cons i is ih =>
    unfold scan
    rw [if_neg (by simp)]
    by_cases hdup : w.keyEq i key = true
    . rw [if_pos hdup]
      constructor
      . intro h
        cases h
      . rintro ⟨-, hother⟩
        rw [hother i List.mem_cons_self] at hdup
        cases hdup
    . rw [if_neg hdup, ih, List.forall_mem_cons, Bool.eq_false_iff.mpr hdup]
      simp only [true_and]

theorem scan_free (is : List Slot)
    : scan w key is none = some (some o) ↔ ∃ (pre post : List Slot), is = pre ++ o :: post
        ∧ (∀ (j : Slot), j ∈ pre → (w.objects j).size ≠ 0#64 ∧ w.keyEq j key = false)
        ∧ (w.objects o).size = 0#64 ∧ ∀ (j : Slot), j ∈ post → w.keyEq j key = false := by
  induction is with
  | nil =>
    constructor
    . intro h
      cases h
    . rintro ⟨pre, post, hnil, -⟩
      exact absurd hnil.symm (by simp)
  | cons i is ih =>
    unfold scan
    by_cases hfree : (w.objects i).size = 0#64
    . rw [if_pos ⟨rfl, hfree⟩, scan_taken]
      constructor
      . rintro ⟨ho, hother⟩
        cases ho
        exact ⟨[], is, rfl, fun j hj => absurd hj List.not_mem_nil, hfree, hother⟩
      . rintro ⟨pre, post, hsplit, hpre, -, hpost⟩
        cases pre with
        | nil =>
          cases hsplit
          exact ⟨rfl, hpost⟩
        | cons i' pre =>
          cases hsplit
          exact absurd hfree (hpre i List.mem_cons_self).1
    . rw [if_neg (fun h => hfree h.2)]
      by_cases hdup : w.keyEq i key = true
      . rw [if_pos hdup]
        constructor
        . intro h
          cases h
        . rintro ⟨pre, post, hsplit, hpre, hsize, -⟩
          cases pre with
          | nil =>
            cases hsplit
            exact absurd hsize hfree
          | cons i' pre =>
            cases hsplit
            rw [(hpre i List.mem_cons_self).2] at hdup
            cases hdup
      . rw [if_neg hdup, ih]
        constructor
        . rintro ⟨pre, post, rfl, hpre, hsize, hpost⟩
          have hpre' := List.forall_mem_cons.mpr ⟨⟨hfree, Bool.eq_false_iff.mpr hdup⟩, hpre⟩
          exact ⟨i :: pre, post, rfl, hpre', hsize, hpost⟩
        . rintro ⟨pre, post, hsplit, hpre, hsize, hpost⟩
          cases pre with
          | nil =>
            cases hsplit
            exact absurd hsize hfree
          | cons i' pre =>
            cases hsplit
            exact ⟨pre, post, rfl, (List.forall_mem_cons.mp hpre).2, hsize, hpost⟩

theorem scan_eq_some (w : World) (key : CStr) (o : Slot)
    : scan w key (Loop.range maxObjs) none = some (some o)
        ↔ w.FirstFree o ∧ ∀ (j : Slot), j ≠ o → w.keyEq j key = false := by
  rw [scan_free]
  constructor
  . rintro ⟨pre, post, hsplit, hpre, hsize, hpost⟩
    obtain ⟨hbefore, hafter⟩ := Loop.mem_range_split hsplit
    refine ⟨⟨hsize, fun j hj => (hpre j ((hbefore j).mpr hj)).1⟩, fun j hj => ?_⟩
    rcases lt_or_gt_of_ne hj with hlt | hlt
    . exact (hpre j ((hbefore j).mpr hlt)).2
    . exact hpost j ((hafter j).mpr hlt)
  . rintro ⟨hfirst, hother⟩
    obtain ⟨pre, post, hsplit⟩ := List.append_of_mem (Loop.mem_range o)
    obtain ⟨hbefore, hafter⟩ := Loop.mem_range_split hsplit
    refine ⟨pre, post, hsplit, fun j hj => ?_, hfirst.free, fun j hj => ?_⟩
    . have hlt := (hbefore j).mp hj
      exact ⟨hfirst.first j hlt, hother j (ne_of_lt hlt)⟩
    . exact hother j (ne_of_gt ((hafter j).mp hj))

end createObject

namespace renameObject

theorem scan_split (is : List Slot) (found : Option Slot)
    : scan w key newname is found = some (some o) ↔ (∀ (j : Slot), j ∈ is → w.keyEq j newname = false)
        ∧ ((found = some o ∧ ∀ (j : Slot), j ∈ is → w.keyEq j key = false)
          ∨ ∃ (pre post : List Slot), is = pre ++ o :: post ∧ w.keyEq o key = true
            ∧ ∀ (j : Slot), j ∈ post → w.keyEq j key = false) := by
  induction is generalizing found with
  | nil =>
    simp only [scan, Option.some.injEq, List.not_mem_nil, false_implies, implies_true, and_true, true_and]
    constructor
    . exact .inl
    . rintro (h | ⟨pre, post, hnil, -⟩)
      . exact h
      . exact absurd hnil.symm (by simp)
  | cons i is ih =>
    unfold scan
    dsimp only
    by_cases hnew : w.keyEq i newname = true
    . rw [if_pos hnew]
      constructor
      . intro h
        cases h
      . rintro ⟨hfresh, -⟩
        rw [hfresh i List.mem_cons_self] at hnew
        cases hnew
    . rw [if_neg hnew, ih, List.forall_mem_cons, Bool.eq_false_iff.mpr hnew]
      simp only [true_and]
      refine and_congr_right fun _ => ?_
      by_cases hkey : w.keyEq i key = true
      . rw [if_pos hkey]
        constructor
        . rintro (⟨ho, hpost⟩ | ⟨pre, post, rfl, hpost⟩)
          . cases ho
            exact .inr ⟨[], is, rfl, hkey, hpost⟩
          . exact .inr ⟨i :: pre, post, rfl, hpost⟩
        . rintro (⟨-, hnone⟩ | ⟨pre, post, hsplit, hfound, hpost⟩)
          . rw [hnone i List.mem_cons_self] at hkey
            cases hkey
          . cases pre with
            | nil =>
              cases hsplit
              exact .inl ⟨rfl, hpost⟩
            | cons i' pre =>
              cases hsplit
              exact .inr ⟨pre, post, rfl, hfound, hpost⟩
      . rw [if_neg hkey, List.forall_mem_cons, Bool.eq_false_iff.mpr hkey]
        simp only [true_and]
        refine or_congr_right ?_
        constructor
        . rintro ⟨pre, post, rfl, hpost⟩
          exact ⟨i :: pre, post, rfl, hpost⟩
        . rintro ⟨pre, post, hsplit, hfound, hpost⟩
          cases pre with
          | nil =>
            cases hsplit
            exact absurd hfound hkey
          | cons i' pre =>
            cases hsplit
            exact ⟨pre, post, rfl, hfound, hpost⟩

theorem scan_eq_some (w : World) (key newname : CStr) (o : Slot)
    : scan w key newname (Loop.range maxObjs) none = some (some o)
        ↔ w.keyEq o key = true ∧ (∀ (j : Slot), o < j → w.keyEq j key = false)
          ∧ ∀ (j : Slot), w.keyEq j newname = false := by
  rw [scan_split]
  constructor
  . rintro ⟨hfresh, ⟨hnone, -⟩ | ⟨pre, post, hsplit, hfound, hpost⟩⟩
    . cases hnone
    . have hafter := (Loop.mem_range_split hsplit).2
      exact ⟨hfound, fun j hj => hpost j ((hafter j).mpr hj), fun j => hfresh j (Loop.mem_range j)⟩
  . rintro ⟨hfound, hlast, hfresh⟩
    obtain ⟨pre, post, hsplit⟩ := List.append_of_mem (Loop.mem_range o)
    have hafter := (Loop.mem_range_split hsplit).2
    exact ⟨fun j _ => hfresh j, .inr ⟨pre, post, hsplit, hfound, fun j hj => hlast j ((hafter j).mp hj)⟩⟩

end renameObject

/-! The object table as memory. -/

-- Where a string occurs twice, the first occurrence ends before the second one.
theorem CStr.strcmp_lt {mem : Nat → Byte} {p q : Nat} (hp : s.strcmp (fun k => mem (p + k)) = true)
    (hq : s.strcmp (fun k => mem (q + k)) = true) (hlt : p < q)
    : p + s.len < q := by
  rw [CStr.strcmp_iff] at hp hq
  by_contra hle
  have hnul := hp s.len le_rfl
  have hbyte := hq (p + s.len - q) (by omega)
  rw [Nat.add_sub_cancel' (by omega), hnul, s.nul] at hbyte
  exact s.nonzero (p + s.len - q) (by omega) hbyte.symm

theorem findObjectId_eq_id
    : findObjectId s w = o.id ↔ w.keyEq o s = true ∧ ∀ (j : Slot), j < o → w.keyEq j s = false := by
  rw [← Loop.find?_range (fun o => w.keyEq o s) o]
  unfold findObjectId findObject
  cases (Loop.range maxObjs).find? (fun o => w.keyEq o s) with
  | none =>
    constructor
    . intro h
      have hge := o.id_ge
      rw [← h] at hge
      exact absurd (by decide) hge
    . intro h
      cases h
  | some o' =>
    constructor
    . intro h
      exact congrArg some (Slot.id_inj h)
    . intro h
      cases h
      rfl

theorem Obj.byte_behind {a b : Obj} (hdirect : a.direct = b.direct) (hindirect : a.indirect = b.indirect) {k : Nat}
    (hk : 8 + keySize ≤ k)
    : a.byte k = b.byte k := by
  simp only [keySize] at hk
  have hsize : ¬ k < 8 := by omega
  have hkey : ¬ k < 40 := by omega
  simp only [Obj.byte, hsize, hkey, ↓reduceIte, ↓reduceDIte, hdirect, hindirect]

namespace World

theorem objMem_congr {addr : Nat}
    (hobjects : ∀ (h : addr / Obj.sizeof < maxObjs),
      (w'.objects ⟨addr / Obj.sizeof, h⟩).byte (addr % Obj.sizeof)
        = (w.objects ⟨addr / Obj.sizeof, h⟩).byte (addr % Obj.sizeof))
    (hbmp : Obj.sizeof * maxObjs ≤ addr → w'.objBmp = w.objBmp ∧ w'.blkBmp = w.blkBmp)
    : w'.objMem addr = w.objMem addr := by
  unfold objMem
  by_cases haddr : addr < Obj.sizeof * maxObjs
  . rw [dif_pos haddr, dif_pos haddr]
    exact hobjects (Nat.div_lt_of_lt_mul haddr)
  . obtain ⟨hobj, hblk⟩ := hbmp (Nat.le_of_not_lt haddr)
    rw [dif_neg haddr, dif_neg haddr, hobj, hblk]

section

variable {size : BitVec 64} {field : Buf keySize} {log : List Event}

theorem setName_before {addr : Nat} (haddr : addr < Obj.sizeof * o)
    : (w.setName o size field log).objMem addr = w.objMem addr := by
  apply objMem_congr
  . intro h
    have hne : (⟨addr / Obj.sizeof, h⟩ : Slot) ≠ o := by
      intro heq
      have hval := congrArg Fin.val heq
      simp only [Obj.sizeof] at haddr hval
      omega
    simp only [setName, Function.update_of_ne hne]
  . intro hle
    have ho := o.isLt
    simp only [Obj.sizeof, maxObjs] at haddr hle ho
    omega

theorem setName_size {i : Nat} (hi : i < 8)
    : (w.setName o size field log).objMem (Obj.sizeof * o + i) = LE.byte size i := by
  rw [objMem_slot _ o (by simp only [Obj.sizeof]; omega)]
  simp only [setName, Function.update_self]
  exact Obj.byte_size _ _ hi

theorem setName_key (i : Fin keySize)
    : (w.setName o size field log).objMem (Obj.sizeof * o + 8 + i) = field i := by
  rw [objMem_key]
  simp only [setName, Function.update_self]

theorem setName_tail {k : Nat} (hk : keySize ≤ k)
    : (w.setName o size field log).objMem (Obj.sizeof * o + 8 + k)
        = (markObjDirty o w).objMem (Obj.sizeof * o + 8 + k) := by
  rw [markObjDirty_eq]
  apply objMem_congr
  . intro h
    by_cases ho : (⟨(Obj.sizeof * o + 8 + k) / Obj.sizeof, h⟩ : Slot) = o
    . have hval := congrArg Fin.val ho
      simp only [setName, ho, Function.update_self]
      refine Obj.byte_behind ?_ ?_ ?_
      . rfl
      . rfl
      . simp only [Obj.sizeof, keySize] at hval hk ⊢
        omega
    . simp only [setName, Function.update_of_ne ho]
  . intro _
    exact ⟨rfl, rfl⟩

theorem setName_keyEq (hfield : ∀ (i : Fin keySize), i.val ≤ s.len → field i = s.mem i)
    : (w.setName o size field log).keyEq o s = true ↔ w.Tail o s := by
  unfold keyEq
  rw [CStr.strcmp_iff]
  constructor
  . intro h k hk hlen
    have htail : (w.setName o size field log).objMem _ = _ := setName_tail hk
    rw [← htail]
    exact h k hlen
  . intro h k hlen
    by_cases hk : k < keySize
    . rw [← hfield ⟨k, hk⟩ hlen]
      exact setName_key ⟨k, hk⟩
    . rw [setName_tail (Nat.le_of_not_lt hk)]
      exact h k (Nat.le_of_not_lt hk) hlen

-- Slot `o` spells `s` itself, so an earlier match ends before the key field of `o`.
theorem setName_match (hfield : ∀ (i : Fin keySize), i.val ≤ s.len → field i = s.mem i) (htail : w.Tail o s) {j : Slot}
    (hj : j < o) (heq : (w.setName o size field log).keyEq j s = true)
    : Obj.sizeof * j + s.len < Obj.sizeof * o := by
  have hself : (w.setName o size field log).keyEq o s = true := (setName_keyEq hfield).mpr htail
  have hlt := CStr.strcmp_lt heq hself (by
    have hval : j.val < o.val := hj
    simp only [Obj.sizeof]
    omega)
  omega

/-- `rename_object` makes a fresh name lead to the slot as soon as what lies behind the field belongs to the name. -/
theorem findObjectId_renamed (hfield : ∀ (i : Fin keySize), i.val ≤ s.len → field i = s.mem i)
    (hfresh : ∀ (j : Slot), w.keyEq j s = false)
    : findObjectId s (w.setName o (w.objects o).size field log) = o.id ↔ w.Tail o s := by
  rw [findObjectId_eq_id, setName_keyEq hfield, and_iff_left_iff_imp]
  intro htail j hj
  rw [← Bool.not_eq_true]
  intro heq
  have hend := setName_match hfield htail hj heq
  have hsame : w.keyEq j s = true := by
    unfold keyEq at heq ⊢
    rw [CStr.strcmp_iff] at heq ⊢
    intro k hk
    rw [← heq k hk]
    by_cases hbefore : Obj.sizeof * j.val + 8 + k < Obj.sizeof * o
    . exact (setName_before hbefore).symm
    . obtain ⟨i, hi⟩ : ∃ (i : Nat), Obj.sizeof * j.val + 8 + k = Obj.sizeof * o + i :=
        Nat.exists_eq_add_of_le (by omega)
      rw [hi, setName_size (by omega), objMem_slot _ _ (by simp only [Obj.sizeof]; omega), Obj.byte_size _ _ (by omega)]
  rw [hfresh j] at hsame
  cases hsame

/-- After `create_object` an earlier slot can only match with the help of the size 1. -/
theorem findObjectId_created (hfield : ∀ (i : Fin keySize), i.val ≤ s.len → field i = s.mem i)
    (hother : ∀ (j : Slot), j ≠ o → w.keyEq j s = false)
    : findObjectId s (w.setName o 1#64 field log) = o.id ↔ w.Tail o s ∧ ∀ (j : Slot), ¬ w.SpellsUpTo s j o := by
  rw [findObjectId_eq_id, setName_keyEq hfield]
  apply and_congr_right
  intro htail
  have hone : (w.setName o 1#64 field log).objMem (Obj.sizeof * o + 0) = 1#8 := setName_size (by decide)
  have hzero : (w.setName o 1#64 field log).objMem (Obj.sizeof * o + 1) = 0#8 := setName_size (by decide)
  constructor
  . rintro hnone j ⟨n, hlen, haddr, hlast, hbefore⟩
    have hj : j < o := by
      rw [Fin.lt_def]
      simp only [Obj.sizeof] at haddr
      omega
    have heq : (w.setName o 1#64 field log).keyEq j s = true := by
      unfold keyEq
      rw [CStr.strcmp_iff]
      intro k hk
      rcases lt_trichotomy k n with hlt | rfl | hgt
      . rw [setName_before (by omega), hbefore k hlt]
      . rw [haddr, hlast]
        exact hone
      . obtain rfl : k = n + 1 := by omega
        rw [← Nat.add_assoc, haddr, hzero, ← hlen, s.nul]
    rw [hnone j hj] at heq
    cases heq
  . intro halone j hj
    rw [← Bool.not_eq_true]
    intro heq
    have hend := setName_match hfield htail hj heq
    unfold keyEq at heq
    rw [CStr.strcmp_iff] at heq
    by_cases hbefore : Obj.sizeof * j.val + 8 + s.len < Obj.sizeof * o
    . have hsame : w.keyEq j s = true := by
        unfold keyEq
        rw [CStr.strcmp_iff]
        intro k hk
        rw [← heq k hk]
        exact (setName_before (by omega)).symm
      rw [hother j (ne_of_lt hj)] at hsame
      cases hsame
    . obtain ⟨n, haddr⟩ : ∃ (n : Nat), Obj.sizeof * o.val = Obj.sizeof * j.val + 8 + n :=
        Nat.exists_eq_add_of_le (by
          have hval : j.val < o.val := hj
          simp only [Obj.sizeof]
          omega)
      have hlast : s.mem n = 1#8 := by
        rw [← heq n (by omega), ← haddr]
        exact hone
      have hlt : n < s.len := by
        apply Nat.lt_of_le_of_ne (by omega)
        rintro rfl
        rw [s.nul] at hlast
        cases hlast
      have hnul : s.mem (n + 1) = 0#8 := by
        rw [← heq (n + 1) hlt, ← Nat.add_assoc, ← haddr]
        exact hzero
      have hlen : s.len = n + 1 := by
        by_contra hne
        exact s.nonzero (n + 1) (by omega) hnul
      refine halone j ⟨n, hlen, haddr.symm, hlast, fun k hk => ?_⟩
      rw [← heq k (by omega)]
      exact (setName_before (by omega)).symm

end

end World

/-! The unbounded copy. -/

theorem Obj.setByte_byte (obj : Obj) (k : Nat) : obj.setByte k (obj.byte k) = obj := by
  apply ofBytes_eq
  intro i hi
  split
  . next h => rw [h]
  . rfl

namespace createObject

theorem poke_objMem (w : World) {addr : Nat} (haddr : addr < Obj.sizeof * maxObjs)
    : poke w.objects addr (w.objMem addr) = .ok w.objects := by
  unfold poke World.objMem
  rw [dif_pos (Nat.div_lt_of_lt_mul haddr), dif_pos haddr]
  simp only [Obj.setByte_byte, Function.update_eq_self]

theorem strcpy_append (o : Slot) (key : CStr) (m n k : Nat) (objects : Slot → Obj)
    : strcpy o key (m + n) k objects = strcpy o key m k objects >>= strcpy o key n (k + m) := by
  induction m generalizing k objects with
  | zero =>
    rw [Nat.zero_add]
    rfl
  | succ m ih =>
    rw [Nat.succ_add]
    simp only [strcpy]
    cases poke objects (Obj.sizeof * o + 8 + k) (key.mem k) with
    | error e => rfl
    | ok objects =>
      simp only [bind, Except.bind] at ih ⊢
      rw [ih, Nat.add_right_comm, Nat.add_assoc]

-- A copy of what is there already changes nothing, wherever it leads.
theorem strcpy_same (w : World) (o : Slot) (key : CStr) (n k : Nat)
    (hinside : Obj.sizeof * o + 8 + k + n ≤ Obj.sizeof * maxObjs)
    (hsame : ∀ (i : Nat), k ≤ i → i < k + n → w.objMem (Obj.sizeof * o + 8 + i) = key.mem i)
    : strcpy o key n k w.objects = .ok w.objects := by
  induction n generalizing k with
  | zero => rfl
  | succ n ih =>
    simp only [strcpy]
    rw [← hsame k le_rfl (by omega), poke_objMem w (by omega)]
    exact ih (k + 1) (by omega) (fun i hi hin => hsame i (by omega) (by omega))

theorem strcpy_inside (n k : Nat) {objects objects' : Slot → Obj} (h : strcpy o key n k objects = .ok objects')
    : ∀ (i : Nat), i < n → Obj.sizeof * o + 8 + k + i < Obj.sizeof * maxObjs := by
  induction n generalizing k objects with
  | zero =>
    intro i hi
    exact absurd hi (Nat.not_lt_zero i)
  | succ n ih =>
    intro i hi
    obtain ⟨objects₁, hpoke, hrest⟩ := Loop.bind_eq_ok.mp h
    cases i with
    | zero =>
      unfold poke at hpoke
      split at hpoke
      . next hlt =>
        simp only [Obj.sizeof, maxObjs] at hlt ⊢
        omega
      . cases hpoke
    | succ i =>
      have hlt := ih (k + 1) hrest i (by omega)
      omega

theorem strcpy_fits (hinside : Obj.sizeof * o + 8 + key.len < Obj.sizeof * maxObjs) (htail : w.Tail o key)
    : strcpy o key (key.len + 1) 0 w.objects
        =
      .ok (Function.update w.objects o
        { w.objects o with key := copied key 0 (key.len + 1) (w.objects o).key }) := by
  by_cases hlen : key.len < keySize
  . exact strcpy_eq o key (key.len + 1) 0 w.objects (by omega)
  . obtain ⟨n, hn⟩ : ∃ (n : Nat), key.len + 1 = keySize + n := Nat.exists_eq_add_of_le (by omega)
    have hcopied : copied key 0 (key.len + 1) (w.objects o).key = copied key 0 keySize (w.objects o).key := by
      funext i
      have hi := i.isLt
      simp only [copied]
      rw [if_pos ⟨by omega, by omega⟩, if_pos ⟨by omega, by omega⟩]
    rw [hcopied, hn, strcpy_append, strcpy_eq o key keySize 0 w.objects (by omega)]
    refine strcpy_same
      (w.setName o (w.objects o).size (copied key 0 keySize (w.objects o).key) w.log) o key n (0 + keySize) ?_ ?_
    . omega
    . intro i hi hin
      rw [World.setName_tail (by omega)]
      exact htail i (by omega) (by omega)

end createObject

/-! The two calls. -/

theorem createObject_taken (hscan : createObject.scan (w.lock .objCl) key (Loop.range maxObjs) none = some (some o))
    (hinside : Obj.sizeof * o + 8 + key.len < Obj.sizeof * maxObjs) (htail : w.Tail o key)
    : ∃ (log : List Event), createObject key w
        = .ok (o.id, w.setName o 1#64 (createObject.copied key 0 (key.len + 1) (w.objects o).key) log) := by
  have hcopy : createObject.strcpy o key (key.len + 1) 0 (w.lock .objCl).objects = _ :=
    createObject.strcpy_fits hinside htail
  refine ⟨.unlock .objBmp :: .lock .objBmp :: .unlock .objCl :: .lock .objCl :: w.log, ?_⟩
  unfold createObject
  rw [hscan]
  simp only [createObject.finish]
  rw [hcopy]
  simp only [bind, Except.bind, markObjDirty_eq, World.setObj, World.unlock, World.lock, World.emit,
    Function.update_self, Function.update_idem]
  rfl

theorem createObject_framed_iff (key : CStr) (w : World)
    : createObject.Framed key w ↔ ∀ (o : Slot), w.FirstFree o → (∀ (j : Slot), j ≠ o → w.keyEq j key = false)
        → createObject.Fits key w o := by
  constructor
  . rintro ⟨r, w', hcreate, hframed⟩ o hfirst hother
    have hscan := (createObject.scan_eq_some (w.lock .objCl) key o).mpr ⟨⟨hfirst.free, hfirst.first⟩, hother⟩
    unfold createObject at hcreate
    rw [hscan] at hcreate
    obtain ⟨objects, hcopy, hok⟩ := Loop.bind_eq_ok.mp hcreate
    have hr : r = o.id := by
      cases hok
      rfl
    subst hr
    rcases hframed with ⟨hneg, -⟩ | ⟨o', hid, hfound, field, log, rfl⟩
    . have hlow : o.id < 2 := lt_of_eq_of_lt hneg (by decide)
      exact absurd hlow o.id_ge
    . cases Slot.id_inj hid
      have hkey := (findObjectId_eq_id.mp hfound).1
      unfold World.keyEq at hkey
      rw [CStr.strcmp_iff] at hkey
      have hfield : ∀ (i : Fin keySize), i.val ≤ key.len → field i = key.mem i := by
        intro i hi
        rw [← hkey i hi]
        exact (World.setName_key i).symm
      obtain ⟨htail, halone⟩ := (World.findObjectId_created hfield hother).mp hfound
      exact ⟨createObject.strcpy_inside (key.len + 1) 0 hcopy key.len (Nat.lt_succ_self key.len), htail, halone⟩
  . intro hfits
    cases hscan : createObject.scan (w.lock .objCl) key (Loop.range maxObjs) none with
    | none =>
      refine ⟨-1, (w.lock .objCl).unlock .objCl, ?_, .inl ⟨rfl, _, rfl⟩⟩
      unfold createObject
      rw [hscan]
      rfl
    | some free =>
      cases free with
      | none =>
        refine ⟨-1, (w.lock .objCl).unlock .objCl, ?_, .inl ⟨rfl, _, rfl⟩⟩
        unfold createObject
        rw [hscan]
        rfl
      | some o =>
        obtain ⟨hfirst, hother⟩ := (createObject.scan_eq_some (w.lock .objCl) key o).mp hscan
        obtain ⟨hinside, htail, halone⟩ := hfits o ⟨hfirst.free, hfirst.first⟩ hother
        obtain ⟨log, hcreate⟩ := createObject_taken hscan hinside htail
        refine ⟨o.id, _, hcreate, .inr ⟨o, rfl, ?_, _, _, rfl⟩⟩
        refine (World.findObjectId_created ?_ hother).mpr ⟨htail, halone⟩
        intro i hi
        simp only [createObject.copied]
        rw [if_pos ⟨by omega, by omega⟩]

theorem renameObject_found
    (hscan : renameObject.scan (w.lock .objCl) key newname (Loop.range maxObjs) none = some (some o))
    : ∃ (log : List Event), renameObject key newname w
        = (o.id, w.setName o (w.objects o).size (fun i => newname.mem i) log) := by
  refine ⟨.unlock .objBmp :: .lock .objBmp :: .unlock .objCl :: .lock .objCl :: w.log, ?_⟩
  unfold renameObject
  rw [hscan]
  simp only [renameObject.finish, markObjDirty_eq, World.setObj, World.unlock, World.lock, World.emit]
  rfl

theorem renameObject_refused {found : Option (Option Slot)} (hfound : ∀ (o : Slot), found ≠ some (some o))
    (hscan : renameObject.scan (w.lock .objCl) key newname (Loop.range maxObjs) none = found)
    : renameObject key newname w = (-1, (w.lock .objCl).unlock .objCl) := by
  unfold renameObject
  rw [hscan]
  cases found with
  | none => rfl
  | some res =>
    cases res with
    | none => rfl
    | some o => exact absurd rfl (hfound o)

theorem renameObject_framed_iff (key newname : CStr) (w : World)
    : renameObject.Framed key newname w ↔ ∀ (o : Slot), w.keyEq o key = true
        → (∀ (j : Slot), o < j → w.keyEq j key = false) → (∀ (j : Slot), w.keyEq j newname = false)
        → w.Tail o newname := by
  constructor
  . intro hframed o hfound hlast hfresh
    have hscan := (renameObject.scan_eq_some (w.lock .objCl) key newname o).mpr ⟨hfound, hlast, hfresh⟩
    obtain ⟨log, hrename⟩ := renameObject_found hscan
    unfold renameObject.Framed at hframed
    rw [hrename] at hframed
    rcases hframed with ⟨hneg, -⟩ | ⟨o', hid, hnamed⟩
    . have hlow : o.id < 2 := lt_of_eq_of_lt hneg (by decide)
      exact absurd hlow o.id_ge
    . cases Slot.id_inj hid
      exact (World.findObjectId_renamed (fun _ _ => rfl) hfresh).mp hnamed.found
  . intro htail
    unfold renameObject.Framed
    by_cases hfound : ∃ (o : Slot),
        renameObject.scan (w.lock .objCl) key newname (Loop.range maxObjs) none = some (some o)
    . obtain ⟨o, hscan⟩ := hfound
      obtain ⟨log, hrename⟩ := renameObject_found hscan
      obtain ⟨hfound, hlast, hfresh⟩ := (renameObject.scan_eq_some (w.lock .objCl) key newname o).mp hscan
      rw [hrename]
      refine .inr ⟨o, rfl, ?_, _, _, rfl⟩
      exact (World.findObjectId_renamed (fun _ _ => rfl) hfresh).mpr (htail o hfound hlast hfresh)
    . rw [renameObject_refused (fun o ho => hfound ⟨o, ho⟩) rfl]
      exact .inl ⟨rfl, _, rfl⟩

/-! Which names fit. -/

theorem World.tail_short (w : World) (o : Slot) (hs : s.len < keySize) : w.Tail o s := by
  intro k hk hlen
  omega

theorem createObject.fits_short (w : World) (o : Slot) (hkey : key.len < keySize) : createObject.Fits key w o where
  inside := by
    have ho := o.isLt
    simp only [Obj.sizeof, maxObjs, keySize] at ho hkey ⊢
    omega
  tail := w.tail_short o hkey
  alone := by
    rintro j ⟨n, hlen, haddr, -⟩
    simp only [Obj.sizeof, keySize] at haddr hkey
    omega

-- With 32 characters only the terminator is outside of the field, in the first byte of a block pointer.
theorem World.tail_full (w : World) (o : Slot) (hs : s.len = keySize)
    : w.Tail o s ↔ LE.byte ((w.objects o).direct 0) 0 = 0#8 := by
  have hbyte : (markObjDirty o w).objMem (Obj.sizeof * o + 8 + keySize) = LE.byte ((w.objects o).direct 0) 0 := by
    rw [Nat.add_assoc, objMem_slot _ _ (by decide), markObjDirty_eq]
    exact (w.objects o).byte_direct 0 0 (by decide)
  constructor
  . intro h
    rw [← hbyte, h keySize le_rfl hs.ge, ← hs, s.nul]
  . intro h k hk hlen
    obtain rfl : k = keySize := by omega
    rw [hbyte, h, ← hs, s.nul]

theorem naming_framed_short (w : World) (key : CStr) (hnew : newname.len < keySize)
    : createObject.Framed newname w ∧ renameObject.Framed key newname w := by
  rw [createObject_framed_iff, renameObject_framed_iff]
  exact ⟨fun o _ _ => createObject.fits_short w o hnew, fun o _ _ _ => w.tail_short o hnew⟩

/--
For every object table, whatever calls and failures it is the outcome of: creation is right exactly for the keys that
fit where they are copied to, renaming exactly for the new names whose tail is in the table already.
-/
theorem naming_framed_iff (w : World)
    : (∀ (key : CStr), createObject.Framed key w ↔ ∀ (o : Slot), w.FirstFree o
        → (∀ (j : Slot), j ≠ o → w.keyEq j key = false) → createObject.Fits key w o)
      ∧ ∀ (key newname : CStr), renameObject.Framed key newname w ↔ ∀ (o : Slot), w.keyEq o key = true
        → (∀ (j : Slot), o < j → w.keyEq j key = false) → (∀ (j : Slot), w.keyEq j newname = false)
        → w.Tail o newname :=
  ⟨fun key => createObject_framed_iff key w, fun key newname => renameObject_framed_iff key newname w⟩

-- `"aaa...a"`, 33 characters long
def keyLong : CStr where
  mem := fun k => if k < keySize + 1 then 97#8 else 0#8
  len := keySize + 1
  nul := rfl
  nonzero := by
    intro k hk
    rw [if_pos hk]
    decide

/-- The first key of a blank store ends up in its block pointers. -/
theorem not_framed_long : ∃ (w : World), Reaches (steady true) blankDisk w ∧ 0 < keyLong.len
    ∧ ¬ createObject.Framed keyLong w := by
  obtain ⟨w, hinit, hblank, -⟩ := destroyObject.exists_blank (steady true) (steady_reliable true)
  refine ⟨w, ⟨w, [], hinit, .nil⟩, by decide, ?_⟩
  rw [createObject_framed_iff]
  intro hfits
  have hfirst : w.FirstFree 0 := by
    refine ⟨?_, fun j hj => absurd hj (Fin.not_lt_zero j)⟩
    rw [hblank]
    rfl
  have hother : ∀ (j : Slot), j ≠ 0 → w.keyEq j keyLong = false := by
    intro j _
    rw [← Bool.not_eq_true]
    unfold World.keyEq
    rw [CStr.strcmp_iff]
    intro heq
    have hbyte := heq 0 (Nat.zero_le keyLong.len)
    rw [Nat.add_assoc, World.objMem_slot _ _ (by decide), hblank] at hbyte
    exact absurd hbyte (by decide)
  have htail := (hfits 0 hfirst hother).tail keySize le_rfl (by decide)
  rw [Nat.add_assoc, World.objMem_slot _ _ (by decide), markObjDirty_eq] at htail
  simp only [hblank] at htail
  exact absurd htail (by decide)

end ObjStore
