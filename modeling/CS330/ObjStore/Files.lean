import CS330.ObjStore.Growth
import CS330.ObjStore.Lemmas.Objfs
import CS330.ObjStore.Lemmas.Places
import CS330.ObjStore.Names
import CS330.ObjStore.Remount

/-!
This module contains the mounted store as the programs that use it think of it: names, the files they name,
and a string of bytes in each file. Every run of requests, also with unmounts and mounts in it, is a run of
this file system.
-/

namespace ObjStore

open View

theorem Job.Progress.byteAt_before {v₀ v : View} {o : Slot} {buf : Mem} {n offset : Nat} {hfit : InBlock n offset}
    (h : (Job.ofWrite o buf n offset hfit).Progress v₀ v 4100) (hmax : offset + n ≤ maxSize) (hpos : 0 < n)
    (p : Nat) (hp : p < offset) (b : Byte) (hb : v₀.byteAt o p = some b)
    : v.byteAt o p = some b := by
  by_cases hsame : p / 4096 = offset / 4096
  . exact h.byteAt_old hmax (by omega) hpos p hp hsame b hb
  . have hmax' : offset + n ≤ 4096 * 4100 := hmax
    rw [h.byteAt_frame p ?_ (by omega), hb]
    simp only [Job.Touched, Job.ofWrite, startBlock_eq (show offset ≤ maxSize by omega)]
    omega

-- What a write leaves of a file: what was before its offset, and the bytes written.
theorem View.Filled.cut {v₀ v : View} {o : Slot} {content : List Byte} (h : v₀.Filled o content) {buf : Mem}
    {n offset : Nat} {hfit : InBlock n offset} (hprog : (Job.ofWrite o buf n offset hfit).Progress v₀ v 4100)
    (hpos : 0 < n) (hle : offset ≤ content.length) (hmax : offset + n ≤ maxSize)
    : v.Filled o (content.take offset ++ (List.range n).map buf) := by
  have htake : (content.take offset).length = offset := by
    rw [List.length_take]
    omega
  refine ⟨?_, ?_⟩
  . rw [List.length_append, htake, List.length_map, List.length_range]
    exact hmax
  . intro p hp
    rw [List.length_append, htake, List.length_map, List.length_range] at hp
    by_cases hlt : p < offset
    . have hold := h.byteAt_eq p (by omega)
      rw [List.getElem?_append_left (by omega), List.getElem?_take_of_lt hlt]
      rw [List.getElem?_eq_getElem (by omega)] at hold ⊢
      exact hprog.byteAt_before hmax hpos p hlt _ hold
    . rw [List.getElem?_append_right (by omega), htake, List.getElem?_map, List.getElem?_range (by omega)]
      exact hprog.byteAt_new hmax p (by omega) hp

theorem objstoreRead_filled {env : Env} {w : World} {o : Slot} {content : List Byte} (hr : env.Reliable)
    (htag : w.Tagged) (h : (w.view env).Filled o content) (buf : Mem) (n offset : Nat) (hn : n ≤ maxSize)
    (hfit : InBlock n offset)
    : ∃ (buf' : Mem) (w' : World), objstoreRead env o.id buf n offset w = .ok (n, buf', w')
        ∧ ∀ (p : Nat), offset ≤ p → p < offset + n → p < content.length
          → content[p]? = some (buf' (p - offset)) := by
  have hptr : ∀ (t : Nat), 4096 * t < content.length → (w.view env).ptr (dataRef o t) ≠ 0#32 := by
    intro t ht
    have := h.byteAt_eq (4096 * t) ht
    rw [List.getElem?_eq_getElem ht] at this
    exact ptr_ne_zero_of_byteAt this
  have hindirects : ∀ (i : Fin 4), 4096 * (4 + 1024 * i.val) < content.length
      → (w.objects o).indirect i ≠ 0#32 := by
    intro i hi
    have hne := indirect_of_ptr (by omega) (by omega) (hptr (4 + 1024 * i.val) hi)
    have hindex : (⟨(4 + 1024 * i.val - 4) / 1024, by omega⟩ : Fin 4) = i := Fin.ext (by simp only; omega)
    rw [hindex] at hne
    exact hne
  obtain ⟨buf', u, heq, hbytes⟩ := objstoreRead_present hr htag o buf n offset hn hfit content.length
    h.length_le (fun t _ ht => hptr t ht) hindirects
  refine ⟨buf', u, heq, ?_⟩
  intro p h1 h2 h3
  rw [← h.byteAt_eq p h3]
  exact hbytes p h1 h2 h3

-- An object without blocks reads as zeros.
theorem View.served_fresh {v : View} {o : Slot} (htidy : (v.objects o).Tidy)
    (h : ∀ (r : Ref), r.slot = o → v.ptr r = 0#32) (start p : Nat)
    : v.served o start p = 0#8 := by
  have hroute : v.route o start = [] := by
    apply List.eq_nil_iff_forall_not_mem.mpr
    intro t ht
    obtain ⟨-, hstart, hpresent⟩ := (mem_route htidy).mp ht
    exact hpresent t hstart (loopStart_le t) (Nat.le_refl t) (h _ (dataRef_slot o t))
  unfold served
  rw [hroute]
  rfl

theorem Names.Describes.eq {m m' : Names} {w : World} (h : m.Describes w) (h' : m'.Describes w) : m = m' := by
  apply PEquiv.ext
  intro k
  apply Option.ext
  intro o
  rw [h k o, h' k o]

namespace Objfs

/-- The names in use, the files they name and what is in the files. -/
structure Files where
  names : Names
  content : Slot → List Byte

namespace Files

def empty : Files where
  names := ⊥
  content := fun _ => []

-- A file counts as one byte long until it is written to.
def size (m : Files) (o : Slot) : Nat :=
  max 1 (m.content o).length

def stat (objfs : Objfs) (m : Files) (o : Slot) : Stat :=
  { objfs.defFstat with
    ino := fhOf o
    size := BitVec.ofNat 64 (m.size o)
    blocks := BitVec.ofNat 64 ((m.size o + 511) / 512)
    uid := objfs.uid
    gid := objfs.gid }

def rootStat (objfs : Objfs) : Stat :=
  { objfs.defDirstat with ino := rootObjid, uid := objfs.uid, gid := objfs.gid }

-- A read is never short; what comes behind the end of the file is left open, unless the file is empty.
def Delivers (m : Files) (o : Slot) (out : Mem) (size offset : Nat) : Prop :=
  (∀ (p : Nat), offset ≤ p → p < offset + size → p < (m.content o).length
    → (m.content o)[p]? = some (out (p - offset)))
  ∧ (m.content o = [] → offset % blockSize = 0 → ∀ (k : Nat), k < size → out k = 0#8)

/--
What a client expects of a request: the answer, and the files afterwards. A write cuts the file off behind
the bytes that it writes, and an existing name is not replaced by a rename.
-/
def Step (objfs : Objfs) (m : Files) (c : Request × Answer) (m' : Files) : Prop :=
  match c.1 with
  | .getattr path =>
    m' = m
    ∧ (path.key.chars = [] → c.2.value = 0 ∧ c.2.stat = some (rootStat objfs))
    ∧ (path.key.chars ≠ [] → m.names path.key.chars = none → c.2.value = -enoent)
    ∧ ∀ (o : Slot), m.names path.key.chars = some o → c.2.value = 0 ∧ c.2.stat = some (m.stat objfs o)
  | .unlink path =>
    c.2.value = 0 ∧ m'.content = m.content
    ∧ ∀ (k : List Byte), m'.names k = if k = path.key.chars then none else m.names k
  | .rename oldkey newkey =>
    m'.content = m.content
    ∧ ((m.names oldkey.key.chars = none ∨ m.names newkey.key.chars ≠ none)
      → c.2.value = -einval ∧ m'.names = m.names)
    ∧ (¬ (m.names oldkey.key.chars = none ∨ m.names newkey.key.chars ≠ none)
      → c.2.value = 0 ∧ ∀ (k : List Byte), m'.names k
        = if k = newkey.key.chars then m.names oldkey.key.chars
          else if k = oldkey.key.chars then none else m.names k)
  | .create path =>
    ((m.names path.key.chars ≠ none ∨ m.names.Full) → c.2.value = -eexist ∧ c.2.fh = none ∧ m' = m)
    ∧ (¬ (m.names path.key.chars ≠ none ∨ m.names.Full) → ∃ (o : Slot), (∀ (k : List Byte), m.names k ≠ some o)
        ∧ c.2.value = 0 ∧ c.2.fh = some (fhOf o) ∧ m'.content = Function.update m.content o []
        ∧ ∀ (k : List Byte), m'.names k = if k = path.key.chars then some o else m.names k)
  | .openFile path =>
    m' = m
    ∧ (m.names path.key.chars = none → c.2.value = -enoent ∧ c.2.fh = none)
    ∧ ∀ (o : Slot), m.names path.key.chars = some o → c.2.value = 0 ∧ c.2.fh = some (fhOf o)
  | .read _ size offset fh =>
    m' = m ∧ c.2.value = size
    ∧ ∃ (out : Mem), c.2.buf = some out ∧ ∀ (o : Slot), fh = fhOf o → m.Delivers o out size offset
  | .write buf size offset fh =>
    c.2.value = size ∧ m'.names = m.names
    ∧ ∀ (o : Slot), fh = fhOf o → m'.content
        = Function.update m.content o ((m.content o).take offset ++ (List.range size).map buf)
  | .release _ => c.2.value = -einval ∧ m' = m

-- The object in slot `o` is the file.
structure Holds (m : Files) (env : Env) (w : World) (o : Slot) : Prop where
  size_eq : (w.objects o).size = BitVec.ofNat 64 (m.size o)
  filled : (w.view env).Filled o (m.content o)
  fresh : m.content o = [] → ∀ (r : Ref), r.slot = o → (w.view env).ptr r = 0#32

/-- The store holds the files, and is in order. -/
structure Represents (m : Files) (env : Env) (w : World) : Prop where
  ok : w.Ok env
  table : Table w.objects
  tidy : Tidy w.objects
  clean : (w.view env).Clean
  names : m.names.Describes w
  holds : ∀ (o : Slot), (w.objects o).size ≠ 0#64 → m.Holds env w o

end Files

-- The write begins at the start of the file or, in one that has been written to, not behind its end.
inductive Reached (w : World) (o : Slot) (offset : Nat) : Prop where
  | start (hzero : offset = 0)
  | behind (hfirst : (w.objects o).direct 0 ≠ 0#32) (hle : offset ≤ (w.objects o).size.toNat)

/-- What a client of the file system has to see to. -/
def Request.Accepts (w : World) : Request → Prop
  | .getattr path => path.key.len < keySize
  | .unlink path => path.key.Short
  | .rename oldkey newkey => oldkey.key.Short ∧ newkey.key.Short
  | .create path => path.key.Short
  | .openFile path => path.key.Short
  | .read _ size offset fh =>
    ∃ (o : Slot), fh = fhOf o ∧ (w.objects o).size ≠ 0#64 ∧ size ≤ maxSize ∧ InBlock size offset
  | .write _ size offset fh =>
    ∃ (o : Slot), fh = fhOf o ∧ (w.objects o).size ≠ 0#64 ∧ 1 ≤ size ∧ InBlock size offset
      ∧ offset + size ≤ maxSize ∧ Reached w o offset
  | .release _ => True

-- There are not the free blocks that a write needs.
def Request.Starves (env : Env) (w : World) (r : Request) : Prop :=
  ∃ (op : Op), r.op = some op ∧ op.Starves env w

-- Every block in use is on the disk as it is in the cache.
def Flushed (env : Env) (w : World) : Prop :=
  ∀ (b : BlockNo), b ≠ 0#32 → (w.view env).Used b → w.look env b = w.disk b

/-- What happens to a mounted store. -/
inductive Turn where
  | request (r : Request) (a : Answer)
  | remount

def Serves (objfs : Objfs) (env : Env) (w : World) (turn : Turn) (w' : World) : Prop :=
  match turn with
  | .request r a => r.Accepts w ∧ ¬ r.Starves env w ∧ serve objfs env w r = .ok (a, w')
  | .remount =>
    Flushed env w ∧ ∃ (w₁ : World), objfsDestroy env w = .ok w₁ ∧ objfsInit env (World.ofDisk w₁.disk) = .ok w'

-- An unmount and a mount are not seen by the clients.
def Files.Turn (objfs : Objfs) (m : Files) (turn : Turn) (m' : Files) : Prop :=
  match turn with
  | .request r a => m.Step objfs (r, a) m'
  | .remount => m' = m

variable {objfs : Objfs} {env : Env} {w w' : World} {m m' : Files} {o : Slot}

theorem flushed_uncached (hc : env.cached = false) : Flushed env w := by
  intro b _ _
  simp [World.look, hc]

theorem Request.Accepts.op {r : Request} (h : r.Accepts w) {op : Op} (hop : r.op = some op) : op.Accepts w := by
  cases r with
  | getattr path => cases hop
  | release fh => cases hop
  | unlink path =>
    cases hop
    exact h
  | rename oldkey newkey =>
    cases hop
    exact h
  | create path =>
    cases hop
    exact h
  | openFile path =>
    cases hop
    exact h
  | read buf size offset fh =>
    cases hop
    obtain ⟨o, rfl, hlive, -, hfit⟩ := h
    rw [objidOf_fhOf]
    exact ⟨⟨o, rfl, hlive⟩, hfit⟩
  | write buf size offset fh =>
    cases hop
    obtain ⟨o, rfl, hlive, hpos, hfit, hmax, -⟩ := h
    rw [objidOf_fhOf]
    refine ⟨⟨o, rfl, hlive⟩, hpos, hfit, ?_⟩
    simp only [maxSize, blockSize] at hmax
    omega

namespace Files

theorem Holds.same (h : m.Holds env w o) (hsize : (w'.objects o).size = (w.objects o).size)
    (hsame : SameContents o (w.view env) (w'.view env)) (hcontent : m'.content o = m.content o)
    : m'.Holds env w' o where
  size_eq := by
    rw [hsize, h.size_eq, size, size, hcontent]
  filled := by
    rw [hcontent]
    exact h.filled.same hsame
  fresh := by
    rw [hcontent]
    intro hnil r hr
    have hold := h.fresh hnil r hr
    cases r with
    | direct o' i =>
      have hcell := hsame.cell_eq _ rfl hr
      rwa [cell_eq_none.mpr hold, eq_comm, cell_eq_none] at hcell
    | indirect o' i =>
      cases hr
      exact (hsame.indirect_iff i).mp hold
    | entry o' i j =>
      have hcell := hsame.cell_eq _ rfl hr
      rwa [cell_eq_none.mpr hold, eq_comm, cell_eq_none] at hcell

-- A file has content as soon as its first block is there, and then its size is that of the content.
theorem Holds.reached (h : m.Holds env w o) {offset : Nat} (hreached : Reached w o offset)
    : offset ≤ (m.content o).length := by
  cases hreached with
  | start hzero => omega
  | behind hfirst hsize =>
    have hne : m.content o ≠ [] := fun hnil => hfirst (h.fresh hnil (.direct o 0) rfl)
    have hpos := List.length_pos_of_ne_nil hne
    have hlen := h.filled.length_le
    simp only [maxSize, blockSize] at hlen
    rw [h.size_eq, size, BitVec.toNat_ofNat] at hsize
    omega

namespace Represents

variable {op : Op} {reply : Reply}

theorem names_eq (h : m.Represents env w) : m.names = h.table.names :=
  h.names.eq h.table.describes

theorem names_step (h : m.Represents env w) (heff : Effect env w op reply w') (hacc : op.Accepts w)
    : Names.Step m.names (op, reply) (heff.table hacc h.table).names := by
  rw [h.names_eq]
  exact heff.names hacc h.table (heff.table hacc h.table)

-- What is left to show of a call is which files it has changed.
theorem after (h : m.Represents env w) (heff : Effect env w op reply w') (hacc : op.Accepts w)
    (content : Slot → List Byte)
    (hholds : ∀ (o : Slot), (w'.objects o).size ≠ 0#64
      → (⟨(heff.table hacc h.table).names, content⟩ : Files).Holds env w' o)
    : (⟨(heff.table hacc h.table).names, content⟩ : Files).Represents env w' where
  ok := heff.ok h.ok
  table := heff.table hacc h.table
  tidy := heff.tidy hacc h.tidy
  clean := heff.clean h.clean
  names := (heff.table hacc h.table).describes
  holds := hholds

theorem findObjectId_eq (h : m.Represents env w) {key : CStr} (hkey : key.Short)
    : findObjectId key w = (m.names key.chars).elim (-1) Slot.id := by
  have hfind := h.names_step (.found key) hkey
  exact hfind.1

theorem step_getattr (objfs : Objfs) (h : m.Represents env w) {path : Path} (hkey : path.key.len < keySize)
    : ∃ (a : Answer), serve objfs env w (.getattr path) = .ok (a, w) ∧ m.Step objfs (.getattr path, a) m := by
  by_cases hroot : path.key.chars = []
  . refine ⟨{ value := 0, stat := some (rootStat objfs) }, ?_, rfl, fun _ => ⟨rfl, rfl⟩, ?_, ?_⟩
    . simp only [serve, getattr_root hroot, bind, Except.bind]
      rfl
    . intro hne
      exact absurd hroot hne
    . intro o ho
      have hlive := (h.names _ _).mp ho
      exact absurd (hlive.2.trans hroot) (h.table.live o hlive.1).1
  . have hfind := h.findObjectId_eq ((path.short_iff hkey).mpr hroot)
    cases hname : m.names path.key.chars with
    | none =>
      rw [hname] at hfind
      refine ⟨{ value := -enoent, stat := some objfs.defFstat }, ?_, rfl, ?_, fun _ _ => rfl, ?_⟩
      . simp only [serve, getattr_missing hroot hfind, bind, Except.bind]
        rfl
      . intro hnil
        exact absurd hnil hroot
      . intro o ho
        rw [hname] at ho
        cases ho
    | some o =>
      rw [hname] at hfind
      have hholds := h.holds o ((h.names _ _).mp hname).1
      have hlen := hholds.filled.length_le
      simp only [maxSize, blockSize] at hlen
      have hsize : m.size o < 2 ^ 63 := by
        unfold size
        omega
      refine ⟨{ value := 0, stat := some (m.stat objfs o) }, ?_, rfl, ?_, ?_, ?_⟩
      . simp only [serve, getattr_found hroot hfind _ hsize hholds.size_eq, bind, Except.bind]
        rfl
      . intro hnil
        exact absurd hnil hroot
      . intro _ hnone
        rw [hname] at hnone
        cases hnone
      . intro o' ho'
        rw [hname] at ho'
        cases ho'
        exact ⟨rfl, rfl⟩

theorem step_unlink (h : m.Represents env w) {path : Path} (hkey : path.key.Short)
    (heff : Effect env w (.destroy path.key) reply w')
    : ∃ (m' : Files), m.Step objfs (.unlink path, Request.answer reply (.unlink path)) m' ∧ m'.Represents env w' := by
  have hacc : (Op.destroy path.key).Accepts w := hkey
  have hnames := h.names_step heff hacc
  refine ⟨⟨(heff.table hacc h.table).names, m.content⟩, ⟨rfl, rfl, ?_⟩, h.after heff hacc m.content ?_⟩
  . intro k
    by_cases hnone : m.names path.key.chars = none
    . simp only [(hnames.1 hnone).2]
      split
      . next hk => rw [hk, hnone]
      . rfl
    . exact (hnames.2 hnone).2 k
  . intro o hlive
    cases heff with
    | destroyFailed key hfail =>
      exact (h.holds o hlive).same rfl (SameContents.refl o _) rfl
    | destroyed key o' w' hfind hsize hgone =>
      have ho : o ≠ o' := by
        rintro rfl
        rw [hgone.objects_eq, Function.update_self] at hlive
        exact hlive rfl
      have hobj : w'.objects o = w.objects o := by rw [hgone.objects_eq, Function.update_of_ne ho]
      rw [hobj] at hlive
      refine (h.holds o hlive).same (by rw [hobj]) ?_ rfl
      have heff : Effect env w (.destroy path.key) ⟨0, none⟩ w' :=
        .destroyed path.key o' w' hfind hsize hgone
      apply heff.sameContents o
      intro hfind'
      rw [hfind] at hfind'
      exact ho (Option.some.inj hfind').symm

theorem step_rename (h : m.Represents env w) {oldkey newkey : Path}
    (hkey : oldkey.key.Short ∧ newkey.key.Short)
    (heff : Effect env w (.rename oldkey.key newkey.key) reply w')
    : ∃ (m' : Files), m.Step objfs (.rename oldkey newkey, Request.answer reply (.rename oldkey newkey)) m'
        ∧ m'.Represents env w' := by
  have hacc : (Op.rename oldkey.key newkey.key).Accepts w := hkey
  have hnames := h.names_step heff hacc
  refine ⟨⟨(heff.table hacc h.table).names, m.content⟩, ⟨rfl, ?_, ?_⟩, h.after heff hacc m.content ?_⟩
  . intro hfail
    obtain ⟨hvalue, hsame⟩ := hnames.1 hfail
    simp only at hvalue
    refine ⟨?_, hsame⟩
    simp only [Request.answer, hvalue]
    rfl
  . intro hok
    obtain ⟨o, hold, hvalue, hnew⟩ := hnames.2 hok
    simp only at hvalue
    have hid : ¬ o.id < 0 := by
      unfold Slot.id
      omega
    refine ⟨?_, ?_⟩
    . simp only [Request.answer, hvalue, hid, ↓reduceIte]
    . rw [hold]
      exact hnew
  . intro o hlive
    cases heff with
    | renameFailed key newname w' _ hreads =>
      rw [hreads.objects_eq] at hlive
      exact (h.holds o hlive).same (by rw [hreads.objects_eq]) (hreads.sameContents o) rfl
    | renamed key newname o' w' _ _ hedit =>
      have hsize : (w'.objects o).size = (w.objects o).size := by
        rw [hedit.objects_eq, Function.update_apply]
        split
        . next ho =>
          rw [ho]
          rfl
        . rfl
      rw [hsize] at hlive
      exact (h.holds o hlive).same hsize (hedit.sameContents o) rfl

theorem step_create (h : m.Represents env w) {path : Path} (hkey : path.key.Short)
    (heff : Effect env w (.create path.key) reply w')
    : ∃ (m' : Files), m.Step objfs (.create path, Request.answer reply (.create path)) m' ∧ m'.Represents env w' := by
  have hacc : (Op.create path.key).Accepts w := hkey
  have hnames := h.names_step heff hacc
  cases heff with
  | createFailed key w' hfail hreads =>
    have heff : Effect env w (.create path.key) ⟨-1, none⟩ w' := .createFailed path.key w' hfail hreads
    have hcond : m.names path.key.chars ≠ none ∨ m.names.Full := by
      apply Classical.byContradiction
      intro hnot
      obtain ⟨o, -, hvalue, -⟩ := hnames.2 hnot
      have := o.id_ge
      simp only at hvalue
      omega
    have hsame : (heff.table hacc h.table).names = m.names := (hnames.1 hcond).2
    have hrep := h.after heff hacc m.content (by
      intro o hlive
      rw [hreads.objects_eq] at hlive
      exact (h.holds o hlive).same (by rw [hreads.objects_eq]) (hreads.sameContents o) rfl)
    rw [hsame] at hrep
    exact ⟨m, ⟨fun _ => ⟨rfl, rfl, rfl⟩, fun hnot => absurd hcond hnot⟩, hrep⟩
  | created key o w' hsize hnew hedit =>
    have heff : Effect env w (.create path.key) ⟨o.id, none⟩ w' := .created path.key o w' hsize hnew hedit
    have hid : ¬ o.id < 0 := by
      unfold Slot.id
      omega
    have hcond : ¬ (m.names path.key.chars ≠ none ∨ m.names.Full) := by
      intro hfail
      have hvalue := (hnames.1 hfail).1
      simp only at hvalue
      have := o.id_ge
      omega
    obtain ⟨o', hunused, hvalue, -, hname⟩ := hnames.2 hcond
    simp only at hvalue
    have := Slot.id_inj hvalue
    subst this
    refine ⟨⟨(heff.table hacc h.table).names, Function.update m.content o []⟩,
      ⟨fun hfail => absurd hfail hcond, fun _ => ⟨o, hunused, ?_, ?_, rfl, hname⟩⟩,
      h.after heff hacc (Function.update m.content o []) ?_⟩
    . simp only [Request.answer, hid, ↓reduceIte]
    . simp only [Request.answer, hid, ↓reduceIte, ofInt_id]
    . intro o' hlive
      by_cases ho : o' = o
      . subst ho
        have hobj : (w'.objects o').size = 1#64 := by
          rw [hedit.objects_eq, Function.update_self]
          rfl
        have hptr : ∀ (r : Ref), r.slot = o' → (w'.view env).ptr r = 0#32 := by
          intro r hslot
          rw [hedit.view_eq, View.ptr_edit o' _ hedit.direct_eq hedit.indirect_eq]
          exact Tidy.ptr_free h.tidy hsize r hslot
        refine ⟨?_, ?_, fun _ => hptr⟩
        . rw [hobj]
          simp [size]
        . simp only [Function.update_self]
          refine ⟨by decide, ?_⟩
          intro p hp
          simp at hp
      . have hobj : w'.objects o' = w.objects o' := by rw [hedit.objects_eq, Function.update_of_ne ho]
        rw [hobj] at hlive
        exact (h.holds o' hlive).same (by rw [hobj]) (hedit.sameContents o') (Function.update_of_ne ho _ _)

theorem step_open (h : m.Represents env w) {path : Path} (hkey : path.key.Short)
    (heff : Effect env w (.find path.key) reply w')
    : ∃ (m' : Files), m.Step objfs (.openFile path, Request.answer reply (.openFile path)) m'
        ∧ m'.Represents env w' := by
  cases heff with
  | found key =>
    have hfind := h.findObjectId_eq hkey
    refine ⟨m, ⟨rfl, ?_, ?_⟩, h⟩
    . intro hnone
      rw [hnone] at hfind
      have hneg : findObjectId path.key w < 0 := by
        rw [hfind]
        decide
      simp only [Request.answer, hneg, ↓reduceIte, and_self]
    . intro o ho
      rw [ho] at hfind
      simp only [Option.elim_some] at hfind
      have hid : ¬ o.id < 0 := by
        unfold Slot.id
        omega
      simp only [Request.answer, hfind, hid, ↓reduceIte, ofInt_id, and_self]

theorem step_read (hr : env.Reliable) (h : m.Represents env w) {buf : Mem} {size offset : Nat} {fh : BitVec 64}
    (hacc : (Request.read buf size offset fh).Accepts w)
    (hexec : (Op.read (objidOf fh) buf size offset).exec env w = .ok (reply, w'))
    (heff : Effect env w (.read (objidOf fh) buf size offset) reply w')
    : ∃ (m' : Files), m.Step objfs (.read buf size offset fh, Request.answer reply (.read buf size offset fh)) m'
        ∧ m'.Represents env w' := by
  have hacc' := Request.Accepts.op hacc rfl
  have hsame : (heff.table hacc' h.table).names = m.names := h.names_step heff hacc'
  have hrep := h.after heff hacc' m.content (by
    intro o hlive
    cases heff with
    | read objid buf size offset r buf' w' hreads =>
      rw [hreads.objects_eq] at hlive
      exact (h.holds o hlive).same (by rw [hreads.objects_eq]) (hreads.sameContents o) rfl)
  rw [hsame] at hrep
  obtain ⟨o, rfl, hlive, hsize, hfit⟩ := hacc
  have hholds := h.holds o hlive
  obtain ⟨out, hreply, hread⟩ := Op.read_of_exec hexec
  rw [objidOf_fhOf] at hread
  obtain ⟨out', u, heq, hbytes⟩ :=
    objstoreRead_filled hr h.ok.tagged hholds.filled buf size offset hsize hfit
  rw [hread] at heq
  obtain ⟨hvalue, hout⟩ := Prod.mk.inj (Except.ok.inj heq)
  obtain ⟨rfl, rfl⟩ := Prod.mk.inj hout
  have hpos : ¬ ((size : Int) < 0) := by omega
  refine ⟨m, ⟨rfl, ?_, out, ?_, ?_⟩, hrep⟩
  . simp only [Request.answer, hvalue, hpos, ↓reduceIte]
  . rw [hreply]
    rfl
  . intro o' ho'
    have := fhOf_inj ho'
    subst this
    refine ⟨hbytes, ?_⟩
    intro hnil haligned k hk
    obtain ⟨out', u', heq', -, hserved⟩ :=
      objstoreRead_route hr h.ok.tagged o buf size offset hsize haligned
    rw [hread] at heq'
    obtain ⟨-, hout'⟩ := Prod.mk.inj (Except.ok.inj heq')
    rw [(Prod.mk.inj hout').1, hserved k hk]
    exact View.served_fresh (h.tidy o) (hholds.fresh hnil) _ _

theorem step_write (hr : env.Reliable) (h : m.Represents env w) {buf : Mem} {size offset : Nat} {fh : BitVec 64}
    (hacc : (Request.write buf size offset fh).Accepts w)
    (hroom : ¬ (Request.write buf size offset fh).Starves env w)
    (hexec : (Op.write (objidOf fh) buf size offset).exec env w = .ok (reply, w'))
    : ∃ (m' : Files), m.Step objfs (.write buf size offset fh, Request.answer reply (.write buf size offset fh)) m'
        ∧ m'.Represents env w' := by
  have hacc' := Request.Accepts.op hacc rfl
  have hstep : RoomyStep env w (.write (objidOf fh) buf size offset, reply) w' :=
    ⟨hacc', hexec, fun hstarves => hroom ⟨_, rfl, hstarves⟩⟩
  obtain ⟨o, rfl, hlive, hpos, hfit, hmax, hreached⟩ := hacc
  rw [objidOf_fhOf] at hexec hstep hacc'
  have hholds := h.holds o hlive
  have hle := hholds.reached hreached
  have hvalue := objstoreWrite_reports hr h.ok o buf size offset _ _ (Op.write_of_exec hexec)
  rw [if_pos (by omega)] at hvalue
  obtain ⟨htag, hnoTable, v, hprog, hview⟩ := hstep.written hr h.ok (by omega) hfit
  have heff := Effect.written o buf size offset (by omega) hfit w' v hprog hview htag hnoTable
  obtain ⟨hother, -, hsize⟩ := Effect.written_objects hprog hview
  have hlen : ((m.content o).take offset ++ (List.range size).map buf).length = offset + size := by
    rw [List.length_append, List.length_take, List.length_map, List.length_range]
    omega
  have hneg : ¬ ((size : Int) < 0) := by omega
  refine ⟨⟨(heff.table hacc' h.table).names,
      Function.update m.content o ((m.content o).take offset ++ (List.range size).map buf)⟩,
    ⟨?_, h.names_step heff hacc', ?_⟩, h.after heff hacc' _ ?_⟩
  . simp only [Request.answer, hvalue, hneg, ↓reduceIte]
  . intro o' ho'
    cases fhOf_inj ho'
    rfl
  . intro o' hlive'
    by_cases ho : o' = o
    . subst ho
      refine ⟨?_, ?_, ?_⟩
      . simp only [Files.size, Function.update_self, hlen, hsize]
        congr 1
        omega
      . simp only [Function.update_self]
        have hcut := hholds.filled.cut hprog hpos hle hmax
        refine ⟨hcut.length_le, ?_⟩
        intro p hp
        rw [hview, View.byteAt_finish]
        exact hcut.byteAt_eq p hp
      . simp only [Function.update_self]
        intro hnil
        rw [hnil, List.length_nil] at hlen
        omega
    . have hobj := hother o' ho
      rw [hobj] at hlive'
      refine (h.holds o' hlive').same (by rw [hobj]) ?_ (Function.update_of_ne ho _ _)
      apply heff.sameContents o'
      intro hid
      exact ho (Slot.id_inj hid).symm

theorem step_request (hr : env.Reliable) (h : m.Represents env w) {r : Request} {a : Answer} (hacc : r.Accepts w)
    (hroom : ¬ r.Starves env w) (hserve : serve objfs env w r = .ok (a, w'))
    : ∃ (m' : Files), m.Step objfs (r, a) m' ∧ m'.Represents env w' := by
  have heffect : ∀ (op : Op), r.op = some op → ∃ (reply : Reply), a = r.answer reply
      ∧ op.exec env w = .ok (reply, w') ∧ Effect env w op reply w' := by
    intro op hop
    obtain ⟨reply, hexec, ha⟩ := (serve_op_eq_ok hop).mp hserve
    exact ⟨reply, ha, hexec,
      Op.effect_of_room hr h.ok (hacc.op hop).safe hexec (fun hstarves => hroom ⟨op, hop, hstarves⟩)⟩
  cases r with
  | getattr path =>
    obtain ⟨a', heq, hstep⟩ := step_getattr objfs h hacc
    rw [hserve] at heq
    cases heq
    exact ⟨m, hstep, h⟩
  | unlink path =>
    obtain ⟨reply, rfl, -, heff⟩ := heffect _ rfl
    exact step_unlink h hacc heff
  | rename oldkey newkey =>
    obtain ⟨reply, rfl, -, heff⟩ := heffect _ rfl
    exact step_rename h hacc heff
  | create path =>
    obtain ⟨reply, rfl, -, heff⟩ := heffect _ rfl
    exact step_create h hacc heff
  | openFile path =>
    obtain ⟨reply, rfl, -, heff⟩ := heffect _ rfl
    exact step_open h hacc heff
  | read buf size offset fh =>
    obtain ⟨reply, rfl, hexec, heff⟩ := heffect _ rfl
    exact step_read hr h hacc hexec heff
  | write buf size offset fh =>
    obtain ⟨reply, rfl, hexec, -⟩ := heffect _ rfl
    exact step_write hr h hacc hroom hexec
  | release fh =>
    cases hserve
    exact ⟨m, ⟨rfl, rfl⟩, h⟩

theorem step_remount (hr : env.Reliable) (h : m.Represents env w) (hflushed : Flushed env w) {w₁ : World}
    (hdestroy : objfsDestroy env w = .ok w₁) (hinit : objfsInit env (World.ofDisk w₁.disk) = .ok w')
    : m.Represents env w' := by
  obtain ⟨u₁, u₂, hdestroy', hinit', hremounted, hsurvives, hok⟩ := exists_remounted hr h.ok h.clean hflushed
  have heq₁ : w₁ = u₁ := Except.ok.inj (hdestroy.symm.trans (objfsDestroy_eq hdestroy'))
  subst heq₁
  have heq₂ : w' = u₂ := Except.ok.inj (hinit.symm.trans (objfsInit_eq hinit'))
  subst heq₂
  refine ⟨hok, ?_, ?_, hremounted.clean_view, ?_, ?_⟩
  . rw [hremounted.objects_eq]
    exact h.table
  . rw [hremounted.objects_eq]
    exact h.tidy
  . intro k o
    rw [hremounted.objects_eq]
    exact h.names k o
  . intro o hlive
    rw [hremounted.objects_eq] at hlive
    exact (h.holds o hlive).same (by rw [hremounted.objects_eq]) (hsurvives.sameContents h.ok.own o) rfl

theorem blank (hr : env.Reliable) (hinit : objfsInit env (World.ofDisk blankDisk) = .ok w)
    : empty.Represents env w := by
  obtain ⟨u, hinit', hmounted⟩ := objstoreInit_spec hr (World.ofDisk blankDisk)
  have heq : w = u := Except.ok.inj (hinit.symm.trans (objfsInit_eq hinit'))
  subst heq
  have hobj : ∀ (o : Slot), w.objects o = Obj.zero := by
    intro o
    rw [hmounted.objects_eq]
    exact diskObj_blank o
  have htable : Table w.objects := by
    rw [hmounted.objects_eq]
    exact table_blank
  refine ⟨hmounted.ok ?_, htable, ?_, ?_, ?_, ?_⟩
  . rw [hmounted.view_eq]
    exact own_blank
  . rw [hmounted.objects_eq]
    exact tidy_blank
  . rw [hmounted.view_eq]
    exact diskView_clean blankDisk
  . intro k o
    rw [hobj]
    constructor
    . intro hsome
      cases hsome
    . intro hlive
      exact absurd rfl hlive.1
  . intro o hlive
    rw [hobj] at hlive
    exact absurd rfl hlive

theorem turn (hr : env.Reliable) (h : m.Represents env w) {turn : Objfs.Turn} (hserves : Serves objfs env w turn w')
    : ∃ (m' : Files), m.Turn objfs turn m' ∧ m'.Represents env w' := by
  cases turn with
  | request r a => exact step_request hr h hserves.1 hserves.2.1 hserves.2.2
  | remount =>
    obtain ⟨hflushed, w₁, hdestroy, hinit⟩ := hserves
    exact ⟨m, rfl, h.step_remount hr hflushed hdestroy hinit⟩

-- A request that a client may make is served.
theorem serve_returns (objfs : Objfs) (hr : env.Reliable) (h : m.Represents env w) {r : Request} (hacc : r.Accepts w)
    : ∃ (a : Answer) (w' : World), serve objfs env w r = .ok (a, w') := by
  cases hop : r.op with
  | some op =>
    obtain ⟨reply, w', hexec, -⟩ := op.exec_cases hr h.ok (hacc.op hop).safe
    exact ⟨_, w', (serve_op_eq_ok hop).mpr ⟨reply, hexec, rfl⟩⟩
  | none =>
    cases r with
    | getattr path =>
      obtain ⟨a, heq, -⟩ := step_getattr objfs h hacc
      exact ⟨a, w, heq⟩
    | release fh => exact ⟨_, w, rfl⟩
    | unlink | rename | create | openFile | read | write => cases hop

theorem serve_step (objfs : Objfs) (hr : env.Reliable) (h : m.Represents env w) {r : Request} (hacc : r.Accepts w)
    (hroom : ∀ (op : Op), r.op = some op → ¬ op.Starves env w)
    : ∃ (a : Answer) (w' : World) (m' : Files), serve objfs env w r = .ok (a, w')
        ∧ m.Step objfs (r, a) m' ∧ m'.Represents env w' := by
  obtain ⟨a, w', hserve⟩ := h.serve_returns objfs hr hacc
  obtain ⟨m', hstep, hrep⟩ := h.step_request hr hacc (fun ⟨op, hop, hstarves⟩ => hroom op hop hstarves) hserve
  exact ⟨a, w', m', hserve, hstep, hrep⟩

end Represents

end Files

theorem objfsInit_returns (hr : env.Reliable) (w : World) : ∃ (w' : World), objfsInit env w = .ok w' := by
  obtain ⟨w', hinit, -⟩ := objstoreInit_spec hr w
  exact ⟨w', objfsInit_eq hinit⟩

theorem objfsDestroy_returns (hr : env.Reliable) (w : World) : ∃ (w' : World), objfsDestroy env w = .ok w' := by
  obtain ⟨w', hdestroy, -⟩ := objstoreDestroy_spec hr w
  exact ⟨w', objfsDestroy_eq hdestroy⟩

-- `"/a"`
def pathA : Path where
  str := {
    mem := fun k => if k = 0 then 47#8 else if k = 1 then 97#8 else 0#8
    len := 2
    nul := rfl
    nonzero := by
      intro k hk
      have hk' : k = 0 ∨ k = 1 := Nat.le_one_iff_eq_zero_or_eq_one.mp (Nat.le_of_lt_succ hk)
      cases hk' with
      | inl hk => rw [hk]; decide
      | inr hk => rw [hk]; decide }
  slash := rfl

theorem pathA_short : pathA.key.Short :=
  ⟨by decide, by decide⟩

theorem serves_op {r : Request} {a : Answer} {op : Op} (hop : r.op = some op) (hacc : r.Accepts w)
    (hroom : ¬ op.Starves env w) (hserve : serve objfs env w r = .ok (a, w'))
    : Serves objfs env w (.request r a) w' := by
  refine ⟨hacc, ?_, hserve⟩
  rintro ⟨op', hop', hstarves⟩
  rw [hop] at hop'
  cases hop'
  exact hroom hstarves

-- What `stat` says of a file or a directory of the first user.
def statOf (mode : BitVec 32) (ino : BitVec 64) : Stat where
  dev := 2049
  ino := ino
  mode := mode
  nlink := 1
  uid := 1000
  gid := 1000
  rdev := 0
  size := 0
  blksize := 4096
  blocks := 0
  atime := 0
  mtime := 0
  ctime := 0

def firstUser : Objfs where
  defFstat := statOf 0x81a4 132
  defDirstat := statOf 0x41ed 131
  uid := 1000
  gid := 1000

end Objfs

end ObjStore
