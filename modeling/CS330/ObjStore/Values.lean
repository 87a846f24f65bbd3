import CS330.ObjStore.Lemmas.Pieces
import Mathlib.Order.Interval.Finset.Nat

/-!
This module contains what `kvstore.c` makes of the mounted store: a map from keys to values. A value is there
under its key from the `put_key` on, also after renames and unmounts, until the `delete_key`.
-/

namespace ObjStore

open View Objfs

namespace Kvstore

/-- The keys in use and their values. -/
abbrev Values := List Byte → Option (List Byte)

/--
What a caller expects: the result, the value in the buffer, and the values afterwards. A value has to be
deleted before the key can be used again.
-/
def Values.Step (kv : Values) (c : Call × Reply) (kv' : Values) : Prop :=
  match c.1 with
  | .lookup key =>
    kv' = kv ∧ c.2.value = (kv key.chars).elim (-1) (fun val => ((max 1 val.length : Nat) : Int))
  | .put key val size =>
    (kv key.chars ≠ none → c.2.value = -1 ∧ kv' = kv)
    ∧ (kv key.chars = none → c.2.value = 0
        ∧ kv' = Function.update kv key.chars (some ((List.range size).map val)))
  | .get key _ =>
    kv' = kv
    ∧ (kv key.chars = none → c.2.value = -1)
    ∧ ∀ (val : List Byte), kv key.chars = some val → c.2.value = 0
        ∧ ∃ (buf : Mem), c.2.val = some buf ∧ ∀ (p : Nat), p < val.length → val[p]? = some (buf p)
  | .rename old new =>
    ((kv old.chars = none ∨ kv new.chars ≠ none) → c.2.value = -1 ∧ kv' = kv)
    ∧ (¬ (kv old.chars = none ∨ kv new.chars ≠ none) → c.2.value = 0
        ∧ kv' = Function.update (Function.update kv old.chars none) new.chars (kv old.chars))
  | .delete key =>
    (kv key.chars = none → c.2.value = -1 ∧ kv' = kv)
    ∧ (kv key.chars ≠ none → c.2.value = 0 ∧ kv' = Function.update kv key.chars none)

-- The blocks that a value of `n` bytes takes: its pages, and pointer blocks for those behind the fourth.
def blocksFor (n : Nat) : Nat :=
  (n + 4095) / 4096 + ((n + 4095) / 4096 - 4 + 1023) / 1024

structure KeyOk (key : CStr) : Prop where
  short : key.Short
  plain : Plain (makeKey key)

/-- What a caller has to see to; a value needs an object and free blocks. -/
def Call.Accepts (w : World) : Call → Prop
  | .lookup key => KeyOk key
  | .put key _ size =>
    KeyOk key ∧ size ≤ maxSize ∧ blocksFor size ≤ w.blkBmp.free ∧ ∃ (o : Slot), (w.objects o).size = 0#64
  | .get key _ => KeyOk key
  | .rename old new => KeyOk old ∧ KeyOk new ∧ old.chars ≠ new.chars
  | .delete key => KeyOk key

inductive Turn where
  | call (c : Call) (r : Reply)
  | remount

def Serves (posix : Posix) (env : Env) (w : World) (turn : Turn) (w' : World) : Prop :=
  match turn with
  | .call c r => c.Accepts w ∧ c.exec posix w = .ok (r, w')
  | .remount =>
    Flushed env w ∧ ∃ (w₁ : World), objfsDestroy env w = .ok w₁ ∧ objfsInit env (World.ofDisk w₁.disk) = .ok w'

def Values.Turn (kv : Values) (turn : Turn) (kv' : Values) : Prop :=
  match turn with
  | .call c r => kv.Step (c, r) kv'
  | .remount => kv' = kv

-- The values that the files stand for.
def valuesOf (m : Files) : Values :=
  fun k => (m.names k).map m.content

variable {objfs : Objfs} {env : Env} {posix : Posix} {w w' : World} {m m' : Files} {o : Slot}

theorem makeKey_chars (key : CStr) : (makeKey key).key.chars = key.chars := by
  simp [CStr.chars, makeKey, Path.key]

theorem makeKey_short {key : CStr} (h : key.Short) : (makeKey key).key.Short :=
  ⟨h.pos, h.lt⟩

theorem need_le_blocksFor (env : Env) (w : World) (o : Slot) (n : Nat) : w.need env o n 0 ≤ blocksFor n := by
  have hstart : startBlock 0 = 0 := rfl
  unfold World.need blocksFor
  apply Nat.add_le_add
  . rw [← Finset.card_range ((n + 4095) / 4096)]
    apply Finset.card_le_card
    intro t ht
    simp only [Finset.mem_filter, Finset.mem_range, hstart] at ht ⊢
    omega
  . rw [← Finset.card_range (((n + 4095) / 4096 - 4 + 1023) / 1024)]
    apply Finset.card_le_card_of_injOn (fun i => i.val)
    . intro i hi
      simp only [Finset.coe_filter, Finset.mem_univ, true_and, Set.mem_ofPred_eq, Finset.coe_range, Set.mem_Iio,
        hstart] at hi ⊢
      omega
    . intro i _ j _ hij
      exact Fin.ext hij

theorem lookup_spec (objfs : Objfs) (h : m.Represents env w) {path : Path} (hkey : path.key.Short)
    : lookup objfs env path w = .ok ((m.names path.key.chars).map (m.stat objfs), w) := by
  obtain ⟨a, hserve, -, -, hmissing, hfound⟩ := h.step_getattr objfs hkey.lt
  simp only [lookup, hserve, bind, Except.bind, pure, Except.pure]
  cases hname : m.names path.key.chars with
  | none =>
    have hvalue := hmissing hkey.chars_ne_nil hname
    simp only at hvalue
    rw [hvalue]
    rfl
  | some o =>
    obtain ⟨hvalue, hstat⟩ := hfound o hname
    simp only at hvalue hstat
    rw [hvalue, hstat]
    rfl

theorem size_lt (h : m.Represents env w) {k : List Byte} (hname : m.names k = some o) : m.size o ≤ maxSize := by
  have hlen := (h.holds o (h.live hname)).filled.length_le
  have hpos : 1 ≤ maxSize := by decide
  unfold Files.size
  omega

theorem toNat_size (objfs : Objfs) (h : m.Represents env w) {k : List Byte} (hname : m.names k = some o)
    : (m.stat objfs o).size.toNat = m.size o := by
  have hlt := size_lt h hname
  simp only [maxSize, blockSize] at hlt
  simp only [Files.stat, BitVec.toNat_ofNat]
  omega

theorem serve_create (objfs : Objfs) (hr : env.Reliable) (h : m.Represents env w) {path : Path} (hkey : path.key.Short)
    (hnew : m.names path.key.chars = none) (hslot : ∃ (o : Slot), (w.objects o).size = 0#64)
    : ∃ (a : Answer) (o : Slot) (w' : World) (m' : Files), serve objfs env w (.create path) = .ok (a, w')
        ∧ a.fh = some (fhOf o) ∧ m'.Represents env w' ∧ (∀ (k : List Byte), m.names k ≠ some o)
        ∧ m'.content = Function.update m.content o []
        ∧ (∀ (k : List Byte), m'.names k = if k = path.key.chars then some o else m.names k)
        ∧ w'.blkBmp = w.blkBmp := by
  have hacc : (Request.create path).Accepts w := hkey
  obtain ⟨a, w', hserve⟩ := h.serve_returns objfs hr hacc
  have hnot : ¬ (Request.create path).Starves env w := by
    rintro ⟨op, hop, hstarves⟩
    cases hop
    exact hstarves
  obtain ⟨m', hstep, hrep⟩ := h.step_request hr hacc hnot hserve
  have hcond : ¬ (m.names path.key.chars ≠ none ∨ m.names.Full) := by
    rintro (hsome | hfull)
    . exact hsome hnew
    . obtain ⟨o, hfree⟩ := hslot
      obtain ⟨k, hname⟩ := hfull o
      exact h.live hname hfree
  obtain ⟨o, hunused, -, hfh, hcontent, hnames⟩ := hstep.2 hcond
  refine ⟨a, o, w', m', hserve, hfh, hrep, hunused, hcontent, hnames, ?_⟩
  obtain ⟨reply, hexec, -⟩ := (serve_op_eq_ok rfl).mp hserve
  have heff := Op.effect_of_room hr h.ok (hacc.op rfl).safe hexec (fun hstarves => hstarves)
  cases heff with
  | createFailed key w' _ hreads => exact congrArg View.blkBmp hreads.view_eq
  | created key o' w' _ _ hedit => exact congrArg View.blkBmp hedit.view_eq

theorem Over.close (hover : Over objfs env posix) (fd : File) (w : World) : posix.close fd w = .ok w := by
  rw [hover.close_eq]
  rfl

section Calls

variable (hover : Over objfs env posix)

include hover

theorem lookup_call (h : m.Represents env w) {key : CStr} (hkey : KeyOk key)
    : ∃ (reply : Reply), (Call.lookup key).exec posix w = .ok (reply, w)
        ∧ (valuesOf m).Step (.lookup key, reply) (valuesOf m) := by
  have hstat := hover.stat_eq (makeKey key) w hkey.plain
  rw [lookup_spec objfs h (makeKey_short hkey.short), makeKey_chars] at hstat
  simp only [Call.exec, lookupKey, hstat, bind, Except.bind, pure, Except.pure]
  cases hname : m.names key.chars with
  | none =>
    refine ⟨_, rfl, rfl, ?_⟩
    simp only [valuesOf, hname]
    rfl
  | some o =>
    have hsize := toNat_size objfs h hname
    have hlt := size_lt h hname
    simp only [maxSize, blockSize] at hlt
    refine ⟨_, rfl, rfl, ?_⟩
    simp only [Option.map_some, valuesOf, hname, Option.elim_some]
    rw [BitVec.toInt_eq_toNat_of_lt (by omega), hsize]
    rfl

theorem put_call (hr : env.Reliable) (h : m.Represents env w) {key : CStr} {val : Mem} {size : Nat}
    (hacc : (Call.put key val size).Accepts w)
    : ∃ (reply : Reply) (w' : World) (m' : Files), (Call.put key val size).exec posix w = .ok (reply, w')
        ∧ (valuesOf m).Step (.put key val size, reply) (valuesOf m') ∧ m'.Represents env w' := by
  obtain ⟨hkey, hsize, hroom, hslot⟩ := hacc
  have hcreate := hover.create_eq (makeKey key) w hkey.plain
  rw [lookup_spec objfs h (makeKey_short hkey.short), makeKey_chars] at hcreate
  simp only [Call.exec, putKey, bind, Except.bind, pure, Except.pure] at hcreate ⊢
  cases hname : m.names key.chars with
  | some o =>
    simp only [hname, Option.map_some] at hcreate
    rw [hcreate]
    refine ⟨_, w, m, rfl, ⟨fun _ => ⟨rfl, rfl⟩, ?_⟩, h⟩
    intro hnone
    simp only [valuesOf, hname] at hnone
    cases hnone
  | none =>
    obtain ⟨a, o, w₁, m₁, hserve, hfh, hrep, hunused, hcontent, hnames, hbmp⟩ := serve_create objfs hr h
      (makeKey_short hkey.short) (by rw [makeKey_chars]; exact hname) hslot
    rw [makeKey_chars] at hnames
    simp only [hname, Option.map_none, hserve, hfh, Option.map_some] at hcreate
    obtain ⟨sizes, hpaged, hsum, hwrite⟩ := hover.write_eq ⟨makeKey key, fhOf o⟩ val size hsize
    have hneed := need_le_blocksFor env w₁ o size
    obtain ⟨w₂, m₂, hpieces, hrep₂, hnames₂, hcontent₂⟩ := writePieces_spec objfs val (o := o) hr
      hsize sizes 0 hpaged (by omega) hrep (by rw [hnames, if_pos rfl]) (by rw [hcontent, Function.update_self]; rfl)
      (by rw [hbmp]; omega)
    rw [hcreate]
    simp only [hwrite, hpieces, hover.close]
    refine ⟨_, w₂, m₂, rfl, ⟨?_, ?_⟩, hrep₂⟩
    . intro hsome
      simp only [valuesOf, hname] at hsome
      exact absurd rfl hsome
    . intro _
      refine ⟨rfl, ?_⟩
      funext k
      simp only [valuesOf, hnames₂, hnames, hcontent₂, hcontent, Function.update_idem, Function.update_apply]
      by_cases hk : k = key.chars
      . simp only [hk, ↓reduceIte, Option.map_some, Function.update_self]
      . simp only [hk, ↓reduceIte]
        cases hname' : m.names k with
        | none => rfl
        | some o' =>
          have ho : o' ≠ o := by
            rintro rfl
            exact hunused k hname'
          simp only [Option.map_some, Function.update_of_ne ho]

theorem get_call (hr : env.Reliable) (h : m.Represents env w) {key : CStr} {val : Mem} (hkey : KeyOk key)
    : ∃ (reply : Reply) (w' : World), (Call.get key val).exec posix w = .ok (reply, w')
        ∧ (valuesOf m).Step (.get key val, reply) (valuesOf m) ∧ m.Represents env w' := by
  have hopen := hover.openFile_eq (makeKey key) w hkey.plain
  have hshort := makeKey_short hkey.short
  rw [lookup_spec objfs h hshort, makeKey_chars] at hopen
  simp only [Call.exec, getKey, bind, Except.bind, pure, Except.pure] at hopen ⊢
  cases hname : m.names key.chars with
  | none =>
    simp only [hname, Option.map_none] at hopen
    rw [hopen]
    refine ⟨_, w, rfl, ⟨rfl, fun _ => rfl, ?_⟩, h⟩
    intro content hsome
    simp only [valuesOf, hname] at hsome
    cases hsome
  | some o =>
    obtain ⟨a, w₁, m₁, hserve, ⟨hsame, -, hfound⟩, hrep⟩ := h.serve_step objfs hr (r := .openFile (makeKey key)) hshort
      (by rintro op ⟨⟩; exact id)
    rw [show m₁ = m from hsame] at hrep
    obtain ⟨-, hfh⟩ := hfound o (by rw [makeKey_chars]; exact hname)
    simp only at hfh
    simp only [hname, Option.map_some, hserve, hfh] at hopen
    -- The size is read off after the file is open, and nothing is cut off where it is put in an `int`.
    have hlookup := lookup_spec objfs hrep hshort
    rw [makeKey_chars, hname, Option.map_some] at hlookup
    have hsize := toNat_size objfs hrep hname
    have hlt := size_lt hrep hname
    simp only [maxSize, blockSize] at hlt
    have hint : ((m.stat objfs o).size.setWidth 32).toInt = m.size o := by
      rw [BitVec.toInt_eq_toNat_of_lt]
      all_goals
        rw [BitVec.toNat_setWidth, hsize]
        omega
    have hmin : min (if (m.size o : Int) < 4096 then (4096 : Int) else m.size o).toNat (m.stat objfs o).size.toNat
        = m.size o := by
      rw [hsize]
      split
      . omega
      . omega
    obtain ⟨sizes, hpaged, hle, hread⟩ := hover.read_eq ⟨makeKey key, fhOf o⟩ val
      (if (m.size o : Int) < 4096 then (4096 : Int) else m.size o).toNat (m.stat objfs o) w₁ hlookup
      (by rw [hmin]; exact size_lt hrep hname)
    rw [hmin] at hle hread
    obtain ⟨pages, w₂, hpieces, hrep₂, hbytes⟩ :=
      readPieces_spec objfs hr sizes 0 (fun _ => 0#8) hpaged hrep hname (fun p hp => absurd hp (by omega))
    rw [hopen]
    simp only [hover.fstat_eq, hlookup, hint, hread, hpieces, hover.close, bind, Except.bind, pure, Except.pure]
    refine ⟨_, w₂, rfl, ⟨rfl, ?_, ?_⟩, hrep₂⟩
    . intro hnone
      simp only [valuesOf, hname] at hnone
      cases hnone
    . intro content hsome
      simp only [valuesOf, hname, Option.map_some, Option.some.injEq] at hsome
      subst hsome
      refine ⟨rfl, _, rfl, ?_⟩
      intro p hp
      have hlen : (m.content o).length ≤ m.size o := Nat.le_max_right 1 _
      rw [Mem.copy_in _ _ _ _ _ (Nat.zero_le p) (by omega)]
      exact hbytes p (by omega) hp

theorem rename_call (hr : env.Reliable) (h : m.Represents env w) {old new : CStr}
    (hacc : (Call.rename old new).Accepts w)
    : ∃ (reply : Reply) (w' : World) (m' : Files), (Call.rename old new).exec posix w = .ok (reply, w')
        ∧ (valuesOf m).Step (.rename old new, reply) (valuesOf m') ∧ m'.Represents env w' := by
  obtain ⟨hold, hnew, hne⟩ := hacc
  have hrename := hover.rename_eq (makeKey old) (makeKey new) w hold.plain hnew.plain
    (by rw [makeKey_chars, makeKey_chars]; exact hne)
  rw [lookup_spec objfs h (makeKey_short hold.short), makeKey_chars] at hrename
  simp only [Call.exec, renameKey, bind, Except.bind, pure, Except.pure] at hrename ⊢
  cases hname : m.names old.chars with
  | none =>
    simp only [hname, Option.map_none] at hrename
    rw [hrename]
    refine ⟨_, w, m, rfl, ⟨fun _ => ⟨rfl, rfl⟩, ?_⟩, h⟩
    intro hnot
    refine absurd (.inl ?_) hnot
    simp only [valuesOf, hname]
    rfl
  | some o =>
    simp only [hname, Option.map_some, lookup_spec objfs h (makeKey_short hnew.short)] at hrename
    obtain ⟨a, w', m', hserve, hstep, hrep⟩ := h.serve_step objfs hr
      (r := .rename (makeKey old) (makeKey new)) ⟨makeKey_short hold.short, makeKey_short hnew.short⟩
      (by rintro op ⟨⟩; exact id)
    rw [hserve] at hrename
    rw [hrename]
    obtain ⟨hcontent, hfail, hok⟩ := hstep
    simp only [makeKey_chars] at hcontent hfail hok
    have hiff : (m.names old.chars = none ∨ m.names new.chars ≠ none)
        ↔ (valuesOf m old.chars = none ∨ valuesOf m new.chars ≠ none) := by
      simp only [valuesOf, ne_eq, Option.map_eq_none_iff]
    refine ⟨_, w', m', rfl, ⟨?_, ?_⟩, hrep⟩
    . intro hcond
      obtain ⟨hvalue, hsame⟩ := hfail (hiff.mpr hcond)
      refine ⟨?_, ?_⟩
      . simp only [hvalue]
        rfl
      . funext k
        simp only [valuesOf, hsame, hcontent]
    . intro hcond
      obtain ⟨hvalue, hnames⟩ := hok (fun hbad => hcond (hiff.mp hbad))
      refine ⟨?_, ?_⟩
      . simp only [hvalue]
        rfl
      . funext k
        simp only [valuesOf, hcontent, hnames, Function.update_apply]
        split
        . rfl
        . split
          . rfl
          . rfl

theorem delete_call (hr : env.Reliable) (h : m.Represents env w) {key : CStr} (hkey : KeyOk key)
    : ∃ (reply : Reply) (w' : World) (m' : Files), (Call.delete key).exec posix w = .ok (reply, w')
        ∧ (valuesOf m).Step (.delete key, reply) (valuesOf m') ∧ m'.Represents env w' := by
  have hunlink := hover.unlink_eq (makeKey key) w hkey.plain
  rw [lookup_spec objfs h (makeKey_short hkey.short), makeKey_chars] at hunlink
  simp only [Call.exec, deleteKey, bind, Except.bind, pure, Except.pure] at hunlink ⊢
  cases hname : m.names key.chars with
  | none =>
    simp only [hname, Option.map_none] at hunlink
    rw [hunlink]
    refine ⟨_, w, m, rfl, ⟨fun _ => ⟨rfl, rfl⟩, ?_⟩, h⟩
    intro hsome
    simp only [valuesOf, hname] at hsome
    exact absurd rfl hsome
  | some o =>
    simp only [hname, Option.map_some] at hunlink
    obtain ⟨a, w', m', hserve, ⟨hvalue, hcontent, hnames⟩, hrep⟩ := h.serve_step objfs hr
      (r := .unlink (makeKey key)) (makeKey_short hkey.short) (by rintro op ⟨⟩; exact id)
    simp only [makeKey_chars] at hvalue hnames
    rw [hserve] at hunlink
    rw [hunlink]
    refine ⟨_, w', m', rfl, ⟨?_, ?_⟩, hrep⟩
    . intro hnone
      simp only [valuesOf, hname] at hnone
      cases hnone
    . intro _
      refine ⟨?_, ?_⟩
      . simp only [hvalue]
        rfl
      . funext k
        simp only [valuesOf, hcontent, hnames, Function.update_apply]
        split
        . rfl
        . rfl

theorem call (hr : env.Reliable) (h : m.Represents env w) {c : Call} (hacc : c.Accepts w)
    : ∃ (reply : Reply) (w' : World) (m' : Files), c.exec posix w = .ok (reply, w')
        ∧ (valuesOf m).Step (c, reply) (valuesOf m') ∧ m'.Represents env w' := by
  cases c with
  | lookup key =>
    obtain ⟨reply, hexec, hstep⟩ := lookup_call hover h hacc
    exact ⟨reply, w, m, hexec, hstep, h⟩
  | put key val size => exact put_call hover hr h hacc
  | get key val =>
    obtain ⟨reply, w', hexec, hstep, hrep⟩ := get_call hover hr h hacc
    exact ⟨reply, w', m, hexec, hstep, hrep⟩
  | rename old new => exact rename_call hover hr h hacc
  | delete key => exact delete_call hover hr h hacc

end Calls

section Paging

-- Whole pages, and what is left of the last one.
def pagesOf (n : Nat) : List Nat :=
  List.replicate (n / blockSize) blockSize ++ if n % blockSize = 0 then [] else [n % blockSize]

theorem sum_pagesOf (n : Nat) : (pagesOf n).sum = n := by
  have hrest : (if n % blockSize = 0 then [] else [n % blockSize]).sum = n % blockSize := by
    split
    . next h => exact h.symm
    . exact Nat.add_zero _
  unfold pagesOf
  rw [List.sum_append, List.sum_replicate_nat, hrest]
  exact Nat.div_add_mod' n blockSize

theorem paged_replicate (k : Nat) (sizes : List Nat) (offset : Nat) (hoffset : offset % blockSize = 0)
    (h : Paged sizes (offset + k * blockSize))
    : Paged (List.replicate k blockSize ++ sizes) offset := by
  induction k generalizing offset with
  | zero => simpa using h
  | succ k ih =>
    refine ⟨hoffset, by decide, by decide, ih (offset + blockSize) ?_ ?_⟩
    . rw [Nat.add_mod_right, hoffset]
    . rwa [Nat.add_assoc, Nat.add_comm blockSize, ← Nat.succ_mul]

theorem paged_pagesOf (n : Nat) : Paged (pagesOf n) 0 := by
  apply paged_replicate
  . rfl
  . split
    . trivial
    . refine ⟨?_, by omega, ?_, trivial⟩
      . rw [Nat.zero_add, Nat.mul_mod_left]
      . have := Nat.mod_lt n (show 0 < blockSize by decide)
        simp only [maxSize, blockSize] at this ⊢
        omega

-- A kernel that makes its transfers page by page.
def pagewise (objfs : Objfs) (env : Env) : Posix where
  stat := lookup objfs env
  create path w := do
    match ← lookup objfs env path w with
    | (some _, w) => return (none, w)
    | (none, w) =>
      let (a, w) ← serve objfs env w (.create path)
      return (a.fh.map (File.mk path), w)
  openFile path w := do
    match ← lookup objfs env path w with
    | (none, w) => return (none, w)
    | (some _, w) =>
      let (a, w) ← serve objfs env w (.openFile path)
      return (a.fh.map (File.mk path), w)
  fstat fd := lookup objfs env fd.path
  write fd buf n := writePieces objfs env fd.fh buf (pagesOf n) 0
  read fd buf n w := do
    match ← lookup objfs env fd.path w with
    | (none, w) => return (none, buf, w)
    | (some sbuf, w) =>
      match ← readPieces objfs env fd.fh (pagesOf (min n sbuf.size.toNat)) 0 (fun _ => 0#8) w with
      | (none, w) => return (none, buf, w)
      | (some pages, w) => return (some (min n sbuf.size.toNat), buf.copy 0 pages (min n sbuf.size.toNat), w)
  close fd w := do
    let (_, w) ← serve objfs env w (.release fd.fh)
    return w
  rename old new w := do
    match ← lookup objfs env old w with
    | (none, w) => return (none, w)
    | (some _, w) =>
      let (_, w) ← lookup objfs env new w
      let (a, w) ← serve objfs env w (.rename old new)
      return (if a.value < 0 then none else some (), w)
  unlink path w := do
    match ← lookup objfs env path w with
    | (none, w) => return (none, w)
    | (some _, w) =>
      let (a, w) ← serve objfs env w (.unlink path)
      return (if a.value < 0 then none else some (), w)

theorem over_pagewise (objfs : Objfs) (env : Env) : Over objfs env (pagewise objfs env) where
  stat_eq _ _ _ := rfl
  create_eq _ _ _ := rfl
  openFile_eq _ _ _ := rfl
  fstat_eq _ _ := rfl
  write_eq _ _ n _ := ⟨pagesOf n, paged_pagesOf n, sum_pagesOf n, fun _ => rfl⟩
  read_eq fd buf n sbuf w hlookup _ := by
    refine ⟨pagesOf (min n sbuf.size.toNat), paged_pagesOf _, Nat.le_of_eq (sum_pagesOf _).symm, ?_⟩
    exact congrArg (fun found => found >>= _) hlookup
  close_eq _ _ := rfl
  rename_eq _ _ _ _ _ _ := rfl
  unlink_eq _ _ _ := rfl

theorem free_blank : 64 * blkBmpLn - resBlocks ≤ (diskBmp blankDisk).free := by
  rw [← Nat.card_Ico]
  apply Finset.card_le_card
  intro k hk
  simp only [Finset.mem_Ico] at hk
  simp only [Finset.mem_filter, Finset.mem_range, bit_diskBmp_blank, decide_eq_false_iff_not]
  omega

theorem keyA_ok : KeyOk keyA :=
  ⟨keyA_short, by decide⟩

end Paging

end Kvstore

end ObjStore
