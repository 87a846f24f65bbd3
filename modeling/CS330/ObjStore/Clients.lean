import CS330.ObjStore.Files
import Mathlib.Data.Set.BooleanAlgebra
import Mathlib.Order.CompletePartialOrder

/-!
This module contains clients that share a mounted store, each with keys of its own. However their requests are
interleaved, every client sees a file system that it has to itself.
-/

namespace ObjStore

open View

namespace Objfs

/-- The request is about one of the given names, or about a file that has one of them. -/
def Request.About (K : Set (List Byte)) (w : World) : Request → Prop
  | .getattr path => path.key.chars ∈ K
  | .unlink path => path.key.chars ∈ K
  | .rename oldkey newkey => oldkey.key.chars ∈ K ∧ newkey.key.chars ∈ K
  | .create path => path.key.chars ∈ K
  | .openFile path => path.key.chars ∈ K
  | .read _ _ _ fh => ∃ (o : Slot), fh = fhOf o ∧ (w.objects o).size ≠ 0#64 ∧ (w.objects o).name ∈ K
  | .write _ _ _ fh => ∃ (o : Slot), fh = fhOf o ∧ (w.objects o).size ≠ 0#64 ∧ (w.objects o).name ∈ K
  | .release fh => ∃ (o : Slot), fh = fhOf o ∧ (w.objects o).size ≠ 0#64 ∧ (w.objects o).name ∈ K

-- There is an object left for a new file.
def Request.Finds (w : World) : Request → Prop
  | .create _ => ∃ (o : Slot), (w.objects o).size = 0#64
  | _ => True

/-- A turn of one of the clients, which keeps to its own keys. Any of them may unmount and mount the store. -/
def ClientServes {ι : Type} (objfs : Objfs) (env : Env) (K : ι → Set (List Byte)) (w : World) (c : ι × Turn)
    (w' : World) : Prop :=
  Serves objfs env w c.2 w'
  ∧ match c.2 with
    | .request r _ => r.About (K c.1) w ∧ r.Finds w
    | .remount => True

-- The files with the given names, as a file system of their own.
structure Files.Part (K : Set (List Byte)) (m part : Files) : Prop where
  names_in : ∀ (k : List Byte), k ∈ K → part.names k = m.names k
  names_out : ∀ (k : List Byte), k ∉ K → part.names k = none
  content_eq : ∀ (k : List Byte), k ∈ K → ∀ (o : Slot), m.names k = some o → part.content o = m.content o

noncomputable def Files.namesIn (K : Set (List Byte)) (m : Files) : Names := by
  classical
  exact (PEquiv.ofSet K).trans m.names

namespace Files

variable {objfs : Objfs} {w : World} {m m' part : Files} {K L : Set (List Byte)} {r : Request} {a : Answer}

theorem namesIn_of_mem {k : List Byte} (hk : k ∈ K) : m.namesIn K k = m.names k := by
  classical
  have hself : (PEquiv.ofSet K : List Byte ≃. List Byte) k = some k := PEquiv.ofSet_eq_some_self_iff.mpr hk
  have hbind : m.namesIn K k = (PEquiv.ofSet K k).bind m.names := rfl
  rw [hbind, hself]
  rfl

theorem namesIn_of_notMem {k : List Byte} (hk : k ∉ K) : m.namesIn K k = none := by
  classical
  have hnone : (PEquiv.ofSet K : List Byte ≃. List Byte) k = none := by
    rw [Option.eq_none_iff_forall_ne_some]
    intro k' hk'
    obtain ⟨rfl, hmem⟩ := PEquiv.ofSet_eq_some_iff.mp hk'
    exact hk hmem
  have hbind : m.namesIn K k = (PEquiv.ofSet K k).bind m.names := rfl
  rw [hbind, hnone]
  rfl

theorem Part.empty (K : Set (List Byte)) : Files.empty.Part K Files.empty :=
  ⟨fun _ _ => rfl, fun _ _ => rfl, fun _ _ _ _ => rfl⟩

theorem part_namesIn {content : Slot → List Byte}
    (hcontent : ∀ (k : List Byte), k ∈ K → ∀ (o : Slot), m.names k = some o → content o = m.content o)
    : m.Part K ⟨m.namesIn K, content⟩ :=
  ⟨fun _ hk => namesIn_of_mem hk, fun _ hk => namesIn_of_notMem hk, hcontent⟩

namespace Part

-- What the others do with their files is not seen.
theorem apart (h : m.Part K part) (hdisj : Disjoint K L) (hnames : m.names.Describes w)
    (hstep : m.Step objfs (r, a) m') (habout : r.About L w)
    : m'.Part K part := by
  have hother : ∀ (k k' : List Byte), k ∈ K → k' ∈ L → k ≠ k' := by
    rintro k k' hk hk' rfl
    exact Set.disjoint_left.mp hdisj hk hk'
  have hkeep : ∀ (content : Slot → List Byte), m'.content = content
      → (∀ (k : List Byte), k ∈ K → m'.names k = m.names k)
      → (∀ (k : List Byte), k ∈ K → ∀ (o : Slot), m.names k = some o → content o = m.content o)
      → m'.Part K part := by
    rintro content rfl hsame hcontent
    refine ⟨?_, h.names_out, ?_⟩
    . intro k hk
      rw [h.names_in k hk, hsame k hk]
    . intro k hk o ho
      rw [hsame k hk] at ho
      rw [h.content_eq k hk o ho, hcontent k hk o ho]
  cases r with
  | getattr path =>
    rw [show m' = m from hstep.1]
    exact h
  | openFile path =>
    rw [show m' = m from hstep.1]
    exact h
  | read buf size offset fh =>
    rw [show m' = m from hstep.1]
    exact h
  | release fh =>
    rw [show m' = m from hstep.2]
    exact h
  | unlink path =>
    obtain ⟨-, hcontent, hunlink⟩ := hstep
    apply hkeep _ hcontent _ (fun _ _ _ _ => rfl)
    intro k hk
    rw [hunlink, if_neg (hother k _ hk habout)]
  | rename oldkey newkey =>
    obtain ⟨hcontent, hfail, hok⟩ := hstep
    apply hkeep _ hcontent _ (fun _ _ _ _ => rfl)
    intro k hk
    by_cases hcond : m.names oldkey.key.chars = none ∨ m.names newkey.key.chars ≠ none
    . rw [(hfail hcond).2]
    . rw [(hok hcond).2, if_neg (hother k _ hk habout.2), if_neg (hother k _ hk habout.1)]
  | create path =>
    by_cases hcond : m.names path.key.chars ≠ none ∨ m.names.Full
    . rw [show m' = m from (hstep.1 hcond).2.2]
      exact h
    . obtain ⟨o, hunused, -, -, hcontent, hcreate⟩ := hstep.2 hcond
      apply hkeep _ hcontent
      . intro k hk
        rw [hcreate, if_neg (hother k _ hk habout)]
      . intro k hk o' ho'
        apply Function.update_of_ne
        rintro rfl
        exact hunused k ho'
  | write buf size offset fh =>
    obtain ⟨-, hsame, hwrite⟩ := hstep
    obtain ⟨o, hfh, hlive, hname⟩ := habout
    apply hkeep _ (hwrite o hfh) (fun k _ => by rw [hsame])
    intro k hk o' ho'
    apply Function.update_of_ne
    rintro rfl
    exact hother k _ hk hname ((hnames k o').mp ho').2.symm

theorem content_of (h : m.Part K part) (hnames : m.names.Describes w) {o : Slot}
    (hlive : (w.objects o).size ≠ 0#64) (hname : (w.objects o).name ∈ K)
    : part.content o = m.content o :=
  h.content_eq _ hname o ((hnames _ o).mpr ⟨hlive, rfl⟩)

-- What is done with these files happens in the part as it happens in the whole.
theorem within (h : m.Part K part) (hnames : m.names.Describes w) (hstep : m.Step objfs (r, a) m')
    (habout : r.About K w) (hfinds : r.Finds w)
    : ∃ (part' : Files), part.Step objfs (r, a) part' ∧ m'.Part K part' := by
  cases r with
  | getattr path =>
    obtain ⟨hsame, hroot, hmissing, hfound⟩ := hstep
    rw [show m' = m from hsame]
    refine ⟨part, ⟨rfl, hroot, ?_, ?_⟩, h⟩
    . rw [h.names_in _ habout]
      exact hmissing
    . intro o ho
      rw [h.names_in _ habout] at ho
      have hstat : part.stat objfs o = m.stat objfs o := by
        simp only [Files.stat, Files.size, h.content_eq _ habout o ho]
      rw [hstat]
      exact hfound o ho
  | openFile path =>
    obtain ⟨hsame, hopen⟩ := hstep
    rw [show m' = m from hsame]
    refine ⟨part, ⟨rfl, ?_⟩, h⟩
    rw [h.names_in _ habout]
    exact hopen
  | read buf size offset fh =>
    obtain ⟨hsame, hvalue, out, hout, hread⟩ := hstep
    rw [show m' = m from hsame]
    refine ⟨part, ⟨rfl, hvalue, out, hout, ?_⟩, h⟩
    obtain ⟨o, hfh, hlive, hname⟩ := habout
    intro o' ho'
    cases fhOf_inj (hfh.symm.trans ho')
    unfold Delivers
    rw [h.content_of hnames hlive hname]
    exact hread o hfh
  | release fh =>
    obtain ⟨hvalue, hsame⟩ := hstep
    rw [show m' = m from hsame]
    exact ⟨part, ⟨hvalue, rfl⟩, h⟩
  | unlink path =>
    obtain ⟨hvalue, hcontent, hunlink⟩ := hstep
    refine ⟨⟨m'.namesIn K, part.content⟩, ⟨hvalue, rfl, ?_⟩, part_namesIn ?_⟩
    . intro k
      by_cases hk : k ∈ K
      . rw [namesIn_of_mem hk, hunlink, h.names_in k hk]
      . rw [namesIn_of_notMem hk, h.names_out k hk, ite_self]
    . intro k hk o ho
      rw [hunlink] at ho
      split at ho
      . cases ho
      . rw [hcontent, h.content_eq k hk o ho]
  | rename oldkey newkey =>
    obtain ⟨hcontent, hfail, hok⟩ := hstep
    have hcond : (part.names oldkey.key.chars = none ∨ part.names newkey.key.chars ≠ none)
        ↔ (m.names oldkey.key.chars = none ∨ m.names newkey.key.chars ≠ none) := by
      rw [h.names_in _ habout.1, h.names_in _ habout.2]
    by_cases hbad : m.names oldkey.key.chars = none ∨ m.names newkey.key.chars ≠ none
    . obtain ⟨hvalue, hsame⟩ := hfail hbad
      refine ⟨part, ⟨rfl, fun _ => ⟨hvalue, rfl⟩, fun hnot => absurd (hcond.mpr hbad) hnot⟩, ?_, h.names_out, ?_⟩
      . rw [hsame]
        exact h.names_in
      . rw [hsame, hcontent]
        exact h.content_eq
    . obtain ⟨hvalue, hrename⟩ := hok hbad
      refine ⟨⟨m'.namesIn K, part.content⟩,
        ⟨rfl, fun hnot => absurd (hcond.mp hnot) hbad, fun _ => ⟨hvalue, ?_⟩⟩, part_namesIn ?_⟩
      . intro k
        by_cases hk : k ∈ K
        . rw [namesIn_of_mem hk, hrename, h.names_in k hk, h.names_in _ habout.1]
        . have hnew : k ≠ newkey.key.chars := fun heq => hk (heq ▸ habout.2)
          rw [namesIn_of_notMem hk, h.names_out k hk, if_neg hnew, ite_self]
      . intro k hk o ho
        rw [hrename] at ho
        rw [hcontent]
        split at ho
        . exact h.content_eq _ habout.1 o ho
        . split at ho
          . cases ho
          . exact h.content_eq k hk o ho
  | create path =>
    have hnotFull : ¬ m.names.Full := by
      intro hfull
      obtain ⟨o, hfree⟩ := hfinds
      obtain ⟨k, hk⟩ := hfull o
      exact ((hnames k o).mp hk).1 hfree
    have hpartFull : ¬ part.names.Full := by
      intro hfull
      apply hnotFull
      intro o
      obtain ⟨k, hk⟩ := hfull o
      by_cases hmem : k ∈ K
      . exact ⟨k, by rw [← h.names_in k hmem]; exact hk⟩
      . rw [h.names_out k hmem] at hk
        cases hk
    by_cases hbad : m.names path.key.chars ≠ none
    . obtain ⟨hvalue, hfh, hsame⟩ := hstep.1 (.inl hbad)
      rw [show m' = m from hsame]
      refine ⟨part, ⟨fun _ => ⟨hvalue, hfh, rfl⟩, fun hnot => absurd (.inl ?_) hnot⟩, h⟩
      rw [h.names_in _ habout]
      exact hbad
    . obtain ⟨o, hunused, hvalue, hfh, hcontent, hcreate⟩ := hstep.2 (not_or_intro hbad hnotFull)
      refine ⟨⟨m'.namesIn K, Function.update part.content o []⟩,
        ⟨fun hnot => ?_, fun _ => ⟨o, ?_, hvalue, hfh, rfl, ?_⟩⟩, part_namesIn ?_⟩
      . rcases hnot with hsome | hfull
        . rw [h.names_in _ habout] at hsome
          exact absurd hsome hbad
        . exact absurd hfull hpartFull
      . intro k hk
        by_cases hmem : k ∈ K
        . rw [h.names_in k hmem] at hk
          exact hunused k hk
        . rw [h.names_out k hmem] at hk
          cases hk
      . intro k
        by_cases hk : k ∈ K
        . rw [namesIn_of_mem hk, hcreate, h.names_in k hk]
        . have hnew : k ≠ path.key.chars := fun heq => hk (heq ▸ habout)
          rw [namesIn_of_notMem hk, h.names_out k hk, if_neg hnew]
      . intro k hk o' ho'
        rw [hcreate] at ho'
        rw [hcontent, Function.update_apply, Function.update_apply]
        split
        . rfl
        . next ho =>
          split at ho'
          . exact absurd (Option.some.inj ho').symm ho
          . exact h.content_eq k hk o' ho'
  | write buf size offset fh =>
    obtain ⟨hvalue, hsame, hwrite⟩ := hstep
    obtain ⟨o, hfh, hlive, hname⟩ := habout
    have hcontent := h.content_of hnames hlive hname
    refine ⟨⟨part.names, Function.update part.content o ((part.content o).take offset ++ (List.range size).map buf)⟩,
      ⟨hvalue, rfl, ?_⟩, ?_, h.names_out, ?_⟩
    . intro o' ho'
      cases fhOf_inj (hfh.symm.trans ho')
      rfl
    . rw [hsame]
      exact h.names_in
    . intro k hk o' ho'
      rw [hsame] at ho'
      simp only [hwrite o hfh, Function.update_apply, hcontent]
      split
      . rfl
      . exact h.content_eq k hk o' ho'

end Part

end Files

-- `"/b"`
def pathB : Path where
  str := {
    mem := fun k => if k = 0 then 47#8 else if k = 1 then 98#8 else 0#8
    len := 2
    nul := rfl
    nonzero := by
      intro k hk
      have hk' : k = 0 ∨ k = 1 := Nat.le_one_iff_eq_zero_or_eq_one.mp (Nat.le_of_lt_succ hk)
      cases hk' with
      | inl hk => rw [hk]; decide
      | inr hk => rw [hk]; decide }
  slash := rfl

theorem pathB_short : pathB.key.Short :=
  ⟨by decide, by decide⟩

theorem Files.Represents.exists_free {env : Env} {w : World} {m : Files} (h : m.Represents env w)
    (hfull : ¬ m.names.Full)
    : ∃ (o : Slot), (w.objects o).size = 0#64 := by
  obtain ⟨o, ho⟩ := not_forall.mp hfull
  refine ⟨o, ?_⟩
  apply Classical.byContradiction
  intro hlive
  exact ho ⟨_, (h.names _ o).mpr ⟨hlive, rfl⟩⟩

-- One client has the file `"a"` and the other one `"b"`.
def keysOf (c : Bool) : Set (List Byte) :=
  if c then {pathA.key.chars} else {pathB.key.chars}

theorem keysOf_disjoint (i j : Bool) (hij : i ≠ j) : Disjoint (keysOf i) (keysOf j) := by
  have hne : pathA.key.chars ≠ pathB.key.chars := by decide
  cases i with
  | false =>
    cases j with
    | false => exact absurd rfl hij
    | true => exact Set.disjoint_singleton.mpr hne.symm
  | true =>
    cases j with
    | false => exact Set.disjoint_singleton.mpr hne
    | true => exact absurd rfl hij

end Objfs

end ObjStore
