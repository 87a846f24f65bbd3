import CS330.ObjStore.Impl.Objfs
import CS330.ObjStore.Space

/-!
This module contains how the requests of FUSE come down to calls of the object store: which call a request
makes, what its reply turns into, and which handle and which attributes stand for an object.
-/

namespace ObjStore

namespace Path

theorem chars_root_iff (path : Path) : Path.root.strcmp path.str.mem = true ↔ path.key.chars = [] := by
  have hlen : path.key.chars.length = path.str.len - 1 := CStr.length_chars
  have hpos := path.len_pos
  rw [CStr.strcmp_iff]
  constructor
  . intro h
    have hend : path.str.mem 1 = 0#8 := h 1 (Nat.le_refl 1)
    apply List.eq_nil_of_length_eq_zero
    apply Classical.byContradiction
    intro hne
    exact path.str.nonzero 1 (by omega) hend
  . intro h k hk
    rw [h, List.length_nil] at hlen
    have hend := path.str.nul
    rw [show path.str.len = 1 by omega] at hend
    have hk' : k = 0 ∨ k = 1 := by
      have : k ≤ 1 := hk
      omega
    cases hk' with
    | inl hk => rw [hk]; exact path.slash
    | inr hk => rw [hk]; exact hend

theorem short_iff (path : Path) (hlen : path.key.len < keySize) : path.key.Short ↔ path.key.chars ≠ [] := by
  constructor
  . intro h
    exact h.chars_ne_nil
  . intro h
    have := List.length_pos_of_ne_nil h
    rw [CStr.length_chars] at this
    exact ⟨this, hlen⟩

end Path

namespace Objfs

-- The handle of an object, which is its inode number as well.
def fhOf (o : Slot) : BitVec 64 := BitVec.ofNat 64 (o + 2)

theorem toNat_fhOf (o : Slot) : (fhOf o).toNat = o + 2 := by
  have := o.isLt
  simp only [maxObjs] at this
  simp only [fhOf, BitVec.toNat_ofNat]
  omega

theorem fhOf_inj {o o' : Slot} (h : fhOf o = fhOf o') : o = o' := by
  have := congrArg BitVec.toNat h
  rw [toNat_fhOf, toNat_fhOf] at this
  exact Fin.ext (by omega)

theorem ofInt_id (o : Slot) : BitVec.ofInt 64 o.id = fhOf o := by
  unfold Slot.id fhOf
  rw [← BitVec.ofInt_natCast]
  rfl

theorem objidOf_fhOf (o : Slot) : objidOf (fhOf o) = o.id := by
  have hlt := o.isLt
  simp only [maxObjs] at hlt
  have hnat : ((fhOf o).setWidth 32).toNat = o + 2 := by
    rw [BitVec.toNat_setWidth, toNat_fhOf]
    omega
  unfold objidOf Slot.id
  rw [BitVec.toInt_eq_toNat_of_lt (by omega), hnat]
  rfl

variable {objfs : Objfs} {env : Env} {w w' : World}

-- The call of the object store that a request comes down to.
def Request.op : Request → Option Op
  | .getattr _ => none
  | .unlink key => some (.destroy key.key)
  | .rename oldkey newkey => some (.rename oldkey.key newkey.key)
  | .create key => some (.create key.key)
  | .openFile key => some (.find key.key)
  | .read buf size offset fh => some (.read (objidOf fh) buf size offset)
  | .write buf size offset fh => some (.write (objidOf fh) buf size offset)
  | .release _ => none

-- What the reply to that call is turned into.
def Request.answer (reply : Reply) : Request → Answer
  | .getattr _ => { value := 0 }
  | .unlink _ => { value := 0 }
  | .rename _ _ => { value := if reply.value < 0 then -einval else 0 }
  | .create _ =>
    if reply.value < 0 then
      { value := -eexist }
    else
      { value := 0, fh := some (BitVec.ofInt 64 reply.value) }
  | .openFile _ =>
    if reply.value < 0 then
      { value := -enoent }
    else
      { value := 0, fh := some (BitVec.ofInt 64 reply.value) }
  | .read _ _ _ _ => { value := if reply.value < 0 then -einval else reply.value, buf := reply.buf }
  | .write _ _ _ _ => { value := if reply.value < 0 then -einval else reply.value }
  | .release _ => { value := 0 }

theorem serve_op {r : Request} {op : Op} (h : r.op = some op)
    : serve objfs env w r = (op.exec env w).map (fun res => (r.answer res.1, res.2)) := by
  cases r with
  | getattr key => cases h
  | release fh => cases h
  | unlink key =>
    cases h
    simp only [serve, objfsUnlink, Op.exec, bind, Except.bind, pure, Except.pure]
    cases destroyObject env key.key w <;> rfl
  | rename oldkey newkey =>
    cases h
    simp only [serve, objfsRenameKey, Op.exec, pure, Except.pure, Except.map, Request.answer]
    split <;> rfl
  | create key =>
    cases h
    simp only [serve, objfsCreate, Op.exec, bind, Except.bind, pure, Except.pure]
    cases createObject key.key w with
    | error e => rfl
    | ok res =>
      simp only [Except.map, Request.answer]
      by_cases hneg : res.1 < 0 <;> simp only [hneg, ↓reduceIte]
  | openFile key =>
    cases h
    simp only [serve, objfsOpen, Op.exec, pure, Except.pure, Except.map, Request.answer]
    split <;> rfl
  | read buf size offset fh =>
    cases h
    simp only [serve, objfsRead, Op.exec, bind, Except.bind, pure, Except.pure]
    cases objstoreRead env (objidOf fh) buf size offset w with
    | error e => rfl
    | ok res =>
      simp only [Except.map, Request.answer]
      by_cases hneg : res.1 < 0 <;> simp only [hneg, ↓reduceIte]
  | write buf size offset fh =>
    cases h
    simp only [serve, objfsWrite, Op.exec, bind, Except.bind, pure, Except.pure]
    cases objstoreWrite env (objidOf fh) buf size offset w with
    | error e => rfl
    | ok res =>
      simp only [Except.map, Request.answer]
      by_cases hneg : res.1 < 0 <;> simp only [hneg, ↓reduceIte]

theorem serve_op_eq_ok {r : Request} {op : Op} (h : r.op = some op) {a : Answer}
    : serve objfs env w r = .ok (a, w')
        ↔ ∃ (reply : Reply), op.exec env w = .ok (reply, w') ∧ a = r.answer reply := by
  rw [serve_op h]
  cases op.exec env w with
  | error e => simp [Except.map]
  | ok res =>
    obtain ⟨reply, u⟩ := res
    simp only [Except.map, Except.ok.injEq, Prod.mk.injEq]
    constructor
    . rintro ⟨rfl, rfl⟩
      exact ⟨reply, ⟨rfl, rfl⟩, rfl⟩
    . rintro ⟨reply', ⟨rfl, rfl⟩, rfl⟩
      exact ⟨rfl, rfl⟩

-- `st_blocks` is the size in units of 512 bytes, rounded up.
theorem blocks_eq (n : Nat) (hn : n < 2 ^ 63)
    : (if (BitVec.ofNat 64 n >>> 9) <<< 9 ≠ BitVec.ofNat 64 n then BitVec.ofNat 64 n >>> 9 + 1
        else BitVec.ofNat 64 n >>> 9)
      = BitVec.ofNat 64 ((n + 511) / 512) := by
  have hshift : BitVec.ofNat 64 n >>> 9 = BitVec.ofNat 64 (n / 512) := by
    apply BitVec.eq_of_toNat_eq
    rw [BitVec.toNat_ushiftRight, BitVec.toNat_ofNat, BitVec.toNat_ofNat, Nat.shiftRight_eq_div_pow]
    omega
  have hback : (BitVec.ofNat 64 n >>> 9) <<< 9 = BitVec.ofNat 64 n ↔ 512 * (n / 512) = n := by
    rw [hshift, BitVec.toNat_eq, BitVec.toNat_shiftLeft, BitVec.toNat_ofNat, BitVec.toNat_ofNat,
      Nat.shiftLeft_eq]
    omega
  by_cases h : 512 * (n / 512) = n
  . rw [if_neg (not_not.mpr (hback.mpr h)), hshift]
    congr 1
    omega
  . have hone : BitVec.ofNat 64 (n / 512) + 1 = BitVec.ofNat 64 (n / 512 + 1) :=
      (BitVec.ofNat_add (n / 512) 1).symm
    rw [if_pos (fun heq => h (hback.mp heq)), hshift, hone]
    congr 1
    omega

theorem fillupSizeDetails_id (o : Slot) (n : Nat) (hn : n < 2 ^ 63)
    (hsize : (w.objects o).size = BitVec.ofNat 64 n)
    : fillupSizeDetails (fhOf o).toNat w
        = .ok (some (BitVec.ofNat 64 n, BitVec.ofNat 64 ((n + 511) / 512))) := by
  have h1 : ¬ o.val + 2 < 2 := by omega
  have h2 : o.val + 2 - 2 < maxObjs := by
    have := o.isLt
    omega
  have h3 : (⟨o.val + 2 - 2, h2⟩ : Slot) = o := Fin.ext (by simp)
  rw [toNat_fhOf]
  unfold fillupSizeDetails
  simp only [h1, h2, ↓reduceIte, ↓reduceDIte, h3, hsize]
  rw [blocks_eq n hn]

theorem objfsInit_eq {r : Int} (h : objstoreInit env w = .ok (r, w')) : objfsInit env w = .ok w' := by
  simp only [objfsInit, h, bind, Except.bind]
  rfl

theorem objfsDestroy_eq {r : Int} (h : objstoreDestroy env w = .ok (r, w')) : objfsDestroy env w = .ok w' := by
  simp only [objfsDestroy, h, bind, Except.bind]
  rfl

theorem getattr_root {path : Path} (hroot : path.key.chars = [])
    : objfsGetattr objfs path w
        = .ok (0, { objfs.defDirstat with ino := rootObjid, uid := objfs.uid, gid := objfs.gid }) := by
  unfold objfsGetattr
  rw [if_pos (path.chars_root_iff.mpr hroot)]

theorem getattr_missing {path : Path} (hroot : path.key.chars ≠ []) (hfind : findObjectId path.key w = -1)
    : objfsGetattr objfs path w = .ok (-enoent, objfs.defFstat) := by
  have hroot' : ¬ Path.root.strcmp path.str.mem = true := fun h => hroot (path.chars_root_iff.mp h)
  unfold objfsGetattr
  rw [if_neg hroot', hfind]
  rfl

theorem getattr_found {path : Path} (hroot : path.key.chars ≠ []) {o : Slot}
    (hfind : findObjectId path.key w = o.id) (n : Nat) (hn : n < 2 ^ 63)
    (hsize : (w.objects o).size = BitVec.ofNat 64 n)
    : objfsGetattr objfs path w
        = .ok (0, { objfs.defFstat with
            ino := fhOf o, size := BitVec.ofNat 64 n, blocks := BitVec.ofNat 64 ((n + 511) / 512)
            uid := objfs.uid, gid := objfs.gid }) := by
  have hroot' : ¬ Path.root.strcmp path.str.mem = true := fun h => hroot (path.chars_root_iff.mp h)
  have hid : ¬ o.id < 0 := by
    unfold Slot.id
    omega
  unfold objfsGetattr
  rw [if_neg hroot']
  simp only [hfind, hid, ↓reduceIte, ofInt_id, fillupSizeDetails_id o n hn hsize, bind, Except.bind]
  rfl

end Objfs

end ObjStore
