import CS330.Sched.Lemmas.Numeral
import CS330.Sched.Lemmas.Settled

/-!
This module contains which names cloned processes get: the name of the parent and its pid, if the local buffer of
`do_clone` happens to have a terminator where the name of the parent ends, the pid is printed correctly, and there
is room for one byte more than needed.
-/

namespace Sched

open numToStr

-- what a process with the name `s` and this pid should call its children
def childName (s : List Byte) (pid : Nat) : List Byte :=
  if s.length + (decimal pid).length + 1 ≤ cnameMax then s ++ decimal pid else s

-- the pid when it is passed as an `int`, or 0 if it is negative then
def printed (pid : Nat) : Nat :=
  (BitVec.ofNat 32 pid).toInt.toNat

/-- When the name is built correctly. `name` is the local buffer before it is written. -/
inductive NameBuilt (s : List Byte) (pid : Nat) (name : Buf cnameMax) : Prop where
  | clean (hnul : name.get s.length = 0#8) (hlast : pid % 10 ≠ 0) (hlt : pid < 2 ^ 31)
      (hrev : reversed pid < 2 ^ 31) (hroom : s.length + (decimal pid).length + 1 < cnameMax)
  -- a negative pid is not printed, and should not be for lack of room
  | unprinted (hnul : name.get s.length = 0#8) (hge : 2 ^ 31 ≤ pid)
      (hlong : cnameMax < s.length + (decimal pid).length + 1) (hroom : s.length + 1 < cnameMax)
  -- what is left in the buffer makes up for the zero that is lost
  | leftover (g : List Byte) (hne : g ≠ []) (hat : name.StrAt s.length g) (hlt : pid < 2 ^ 31)
      (hrev : reversed pid < 2 ^ 31) (hroom : s.length + g.length + (written pid).length + 1 ≤ cnameMax)
      (hsame : (g ++ written pid).take ((written pid).length + 1) = decimal pid)

-- the names that are known, by what was cloned from what
abbrev Names := Slot → Option (List Byte)

def Names.record (names : Names) (p : Slot) (pid : Nat) : Call → Names
  | .clone _ _ env _ =>
    match env.newCtx with
    | some i => Function.update names i ((names p).map (childName · pid))
    | none => names
  | _ => names

def Named (s : Kernel × Names) : Prop :=
  ∀ (i : Slot) (p : List Byte), s.2 i = some p → (s.1.list i).name.StrAt 0 p

/--
An entry into the kernel with the names beside it. A new context is not the current one, and every clone of a
process whose name is known meets the condition.
-/
structure BuiltStep (s : Kernel × Names) (c : Call) (s' : Kernel × Names) : Prop where
  exec : c.exec s.1 = .ok s'.1
  other : ∀ (i : Slot), c.Creates i → i ≠ s.1.current
  names : s'.2 = s.2.record s.1.current s.1.cur.pid c
  pid : s.1.cur.pid < 2 ^ 32
  built : ∀ (thFunc userStack rax : U64) (env : CloneEnv) (p : List Byte), c = .clone thFunc userStack env rax
    → s.2 s.1.current = some p → NameBuilt p s.1.cur.pid env.name

variable {b parent name buf old child : Buf cnameMax} {s t g : List Byte} {pid m : Nat}

theorem strlen_str (h : b.StrAt 0 s) : strlen b = some s.length := by
  have hfits := h.fits
  have hfind := (Loop.find?_range (fun i => b i == 0#8) ⟨s.length, by omega⟩).mpr
  rw [strlen, hfind]
  . rfl
  . constructor
    . have hnul := h.nul
      rw [Nat.zero_add, Buf.get_lt _ _ (by omega)] at hnul
      simp [hnul]
    . intro j hj
      have hlt : j.val < s.length := hj
      have hbyte := h.byte j hlt
      rw [Nat.zero_add, Buf.get_val] at hbyte
      simpa [hbyte] using h.ne_zero _ (List.getElem_mem hlt)

theorem str_of_strlen (h : strlen b = some m) : ∃ (s : List Byte), b.StrAt 0 s ∧ s.length = m := by
  rw [strlen, Option.map_eq_some_iff] at h
  obtain ⟨i, hfind, rfl⟩ := h
  obtain ⟨hnul, hfirst⟩ := (Loop.find?_range _ i).mp hfind
  rw [beq_iff_eq] at hnul
  have hstr : b.StrAt 0 _ := Buf.StrAt.of_first (m := i) (Nat.zero_le _) i.isLt
    (by rw [Buf.get_val, hnul]) (fun k _ hk => by
      have := hfirst ⟨k, by omega⟩ hk
      rw [Buf.get_lt _ _ (by omega)]
      simpa using this)
  refine ⟨_, hstr, ?_⟩
  simp

theorem strcat_iff {len : Nat} {c : Buf cnameMax}
    : strcat b buf len = .ok c
        ↔ ∃ (s : List Byte), b.StrAt 0 s ∧ s.length + len + 1 ≤ cnameMax
            ∧ c = b.copy s.length buf.get (len + 1) := by
  unfold strcat
  constructor
  . intro hok
    split at hok
    . cases hok
    . next n hn =>
      obtain ⟨s, hstr, rfl⟩ := str_of_strlen hn
      split at hok
      . next hroom =>
        rw [Except.ok.injEq] at hok
        exact ⟨s, hstr, hroom, hok.symm⟩
      . cases hok
  . rintro ⟨s, hstr, hroom, rfl⟩
    rw [strlen_str hstr]
    simp only [hroom, ↓reduceIte]

namespace cloneName

-- `do_clone` from the two calls of `strlen` on
def assemble (length pidLen : Nat) (name pid old : Buf cnameMax) : Except Fault (Buf cnameMax) := do
  let name ← if length + pidLen + 1 < cnameMax then strcat name pid pidLen else pure name
  if length + pidLen + 1 ≤ cnameMax then
    poke (old.copy 0 name.get (length + pidLen + 1)) (length + pidLen + 1) 0#8
  else
    throw .outOfBounds

theorem assemble_full (name buf old : Buf cnameMax) {length pidLen : Nat} (hfull : ¬ length + pidLen + 1 < cnameMax)
    : ∃ (e : Fault), assemble length pidLen name buf old = .error e := by
  unfold assemble
  rw [if_neg hfull]
  simp only [pure, Except.pure, bind, Except.bind]
  split
  . rw [poke, dif_neg (by omega)]
    exact ⟨_, rfl⟩
  . exact ⟨_, rfl⟩

-- the string in `name` stands in front of the pid, and is cut off where the name should end
theorem assemble_str (old : Buf cnameMax) {length : Nat} {q : List Byte} (hroom : length + q.length + 1 < cnameMax)
    (hname : name.StrAt 0 s) (hpid : buf.StrAt 0 q) (hlen : s.length + q.length + 1 ≤ cnameMax)
    : ∃ (child : Buf cnameMax), assemble length q.length name buf old = .ok child
        ∧ child.StrAt 0 ((s ++ q).take (length + q.length + 1)) := by
  have hcat : strcat name buf q.length = .ok (name.copy s.length buf.get (q.length + 1)) :=
    strcat_iff.mpr ⟨s, hname, hlen, rfl⟩
  have hboth := hname.append hpid (by omega)
  refine ⟨Function.update (old.copy 0 _ _) ⟨_, hroom⟩ 0#8, ?_, hboth.cut hroom⟩
  rw [assemble, if_pos hroom, hcat]
  simp only [bind, Except.bind]
  rw [if_pos (by omega), numToStr.poke_eq hroom]

theorem assemble_iff (name old : Buf cnameMax) (length : Nat) {q : List Byte} (hpid : buf.StrAt 0 q)
    : (∃ (child : Buf cnameMax), assemble length q.length name buf old = .ok child ∧ child.StrAt 0 t)
        ↔ length + q.length + 1 < cnameMax
          ∧ ∃ (s : List Byte), name.StrAt 0 s ∧ s.length + q.length + 1 ≤ cnameMax
            ∧ t = (s ++ q).take (length + q.length + 1) := by
  constructor
  . rintro ⟨child, hok, hchild⟩
    by_cases hroom : length + q.length + 1 < cnameMax
    . have hcat : ∃ (c : Buf cnameMax), strcat name buf q.length = .ok c := by
        rw [assemble, if_pos hroom] at hok
        cases hcat : strcat name buf q.length with
        | error e =>
          rw [hcat] at hok
          cases hok
        | ok c => exact ⟨c, rfl⟩
      obtain ⟨c, hcat⟩ := hcat
      obtain ⟨s, hstr, hlen, -⟩ := strcat_iff.mp hcat
      obtain ⟨child', hok', hchild'⟩ := assemble_str old hroom hstr hpid hlen
      rw [hok, Except.ok.injEq] at hok'
      subst hok'
      exact ⟨hroom, s, hstr, hlen, hchild.unique hchild'⟩
    . obtain ⟨e, herror⟩ := assemble_full name buf old hroom
      rw [herror] at hok
      cases hok
  . rintro ⟨hroom, s, hstr, hlen, rfl⟩
    exact assemble_str old hroom hstr hpid hlen

end cloneName

theorem cloneName_eq {digits : Buf cnameMax} {q : List Byte} (hparent : parent.StrAt 0 s)
    (hok : numToStr buf (BitVec.ofNat 32 pid).toInt = .ok digits) (hdigits : digits.StrAt 0 q)
    : cloneName parent pid name buf old
        =
      cloneName.assemble s.length q.length (name.copy 0 parent.get s.length) digits old := by
  unfold cloneName
  simp only [strlen_str hparent, hok, bind, Except.bind, strlen_str hdigits]
  rfl

theorem cloneName_overflow (hparent : parent.StrAt 0 s) (hrev : ¬ reversed (printed pid) < 2 ^ 31)
    : cloneName parent pid name buf old = .error .overflow := by
  unfold cloneName
  simp only [strlen_str hparent, numToStr_overflow buf hrev]
  rfl

-- for any outcome `t`; `g` is what the string in the local buffer goes on with
theorem cloneName_iff (hparent : parent.StrAt 0 s)
    : (∃ (child : Buf cnameMax), cloneName parent pid name buf old = .ok child ∧ child.StrAt 0 t)
        ↔ reversed (printed pid) < 2 ^ 31
          ∧ s.length + (written (printed pid)).length + 1 < cnameMax
          ∧ ∃ (g : List Byte), name.StrAt s.length g
            ∧ s.length + g.length + (written (printed pid)).length + 1 ≤ cnameMax
            ∧ t = s ++ (g ++ written (printed pid)).take ((written (printed pid)).length + 1) := by
  have hs := hparent.fits
  rw [Nat.zero_add] at hs
  by_cases hrev : reversed (printed pid) < 2 ^ 31
  . obtain ⟨digits, hok, hdigits⟩ := numToStr_str (BitVec.ofNat 32 pid).toInt buf hrev
    change digits.StrAt 0 (written (printed pid)) at hdigits
    simp only [hrev, true_and, cloneName_eq hparent hok hdigits, cloneName.assemble_iff _ _ _ hdigits]
    generalize written (printed pid) = q at *
    refine and_congr_right fun _ => ?_
    constructor
    . rintro ⟨u, hu, hlen, rfl⟩
      obtain ⟨g, rfl, hg⟩ := (hparent.copy_iff hs).mp hu
      rw [List.length_append] at hlen
      refine ⟨g, hg, hlen, ?_⟩
      rw [List.append_assoc, Nat.add_assoc, List.take_length_add_append]
    . rintro ⟨g, hg, hlen, rfl⟩
      refine ⟨s ++ g, (hparent.copy_iff hs).mpr ⟨g, rfl, hg⟩, ?_, ?_⟩
      . rw [List.length_append]
        exact hlen
      . rw [List.append_assoc, Nat.add_assoc, List.take_length_add_append]
  . simp only [cloneName_overflow hparent hrev, hrev, false_and, iff_false]
    rintro ⟨child, hok, -⟩
    cases hok

theorem printed_of_lt (hlt : pid < 2 ^ 31) : printed pid = pid := by
  unfold printed
  rw [BitVec.toInt_eq_toNat_of_lt, BitVec.toNat_ofNat]
  . omega
  . rw [BitVec.toNat_ofNat]
    omega

theorem printed_of_ge (hge : 2 ^ 31 ≤ pid) (hlt : pid < 2 ^ 32) : printed pid = 0 := by
  unfold printed
  rw [BitVec.toInt_eq_toNat_cond, BitVec.toNat_ofNat, Nat.mod_eq_of_lt hlt, if_neg (by omega)]
  omega

theorem childName_of_room (hroom : s.length + (decimal pid).length + 1 ≤ cnameMax)
    : childName s pid = s ++ decimal pid := by
  rw [childName, if_pos hroom]

theorem childName_of_full (hfull : ¬ s.length + (decimal pid).length + 1 ≤ cnameMax) : childName s pid = s := by
  rw [childName, if_neg hfull]

theorem strAt_nil (hlen : m < cnameMax) (hnul : name.get m = 0#8) : name.StrAt m [] :=
  ⟨hlen, nofun, hnul, nofun⟩

theorem NameBuilt.correct (hbuilt : NameBuilt s pid name) (hpid : pid < 2 ^ 32)
    : reversed (printed pid) < 2 ^ 31
      ∧ s.length + (written (printed pid)).length + 1 < cnameMax
      ∧ ∃ (g : List Byte), name.StrAt s.length g
        ∧ s.length + g.length + (written (printed pid)).length + 1 ≤ cnameMax
        ∧ childName s pid = s ++ (g ++ written (printed pid)).take ((written (printed pid)).length + 1) := by
  cases hbuilt with
  | clean hnul hlast hlt hrev hroom =>
    rw [printed_of_lt hlt, written_eq hlast]
    refine ⟨hrev, hroom, [], strAt_nil (by omega) hnul, ?_, ?_⟩
    . rw [List.length_nil]
      omega
    . rw [childName_of_room (by omega), List.nil_append, List.take_of_length_le (by omega)]
  | unprinted hnul hge hlong hroom =>
    rw [printed_of_ge hge hpid, written_zero]
    refine ⟨by simp [reversed], hroom, [], strAt_nil (by omega) hnul, ?_, ?_⟩
    . simp only [List.length_nil]
      omega
    . rw [childName, if_neg (by omega)]
      simp
  | leftover g hne hat hlt hrev hroom hsame =>
    have hlen := congrArg List.length hsame
    have hpos := List.length_pos_iff.mpr hne
    rw [List.length_take, List.length_append] at hlen
    rw [printed_of_lt hlt]
    refine ⟨hrev, by omega, g, hat, hroom, ?_⟩
    rw [childName_of_room (by omega), hsame]

theorem NameBuilt.of_correct (hrev : reversed (printed pid) < 2 ^ 31) (hpid : pid < 2 ^ 32)
    (hshort : s.length + (written (printed pid)).length + 1 < cnameMax) (hat : name.StrAt s.length g)
    (hroom : s.length + g.length + (written (printed pid)).length + 1 ≤ cnameMax)
    (hsame : childName s pid = s ++ (g ++ written (printed pid)).take ((written (printed pid)).length + 1))
    : NameBuilt s pid name := by
  have hlen := congrArg List.length hsame
  rw [List.length_append, List.length_take, List.length_append] at hlen
  have hnul : g = [] → name.get s.length = 0#8 := by
    rintro rfl
    exact hat.nul
  by_cases hlt : pid < 2 ^ 31
  . rw [printed_of_lt hlt] at hrev hshort hroom hsame hlen
    by_cases hlast : pid % 10 = 0
    . have hlost := length_written_lt hlast
      by_cases hfull : s.length + (decimal pid).length + 1 ≤ cnameMax
      . -- the zero comes from the buffer
        rw [childName_of_room hfull, List.append_cancel_left_eq] at hsame
        rw [childName_of_room hfull, List.length_append] at hlen
        refine .leftover g ?_ hat hlt hrev hroom hsame.symm
        rintro rfl
        rw [List.length_nil] at hlen
        omega
      . -- there is room for the zero if there is room for a terminator behind it
        rw [childName_of_full hfull] at hlen
        have hempty : (written pid).length = 0 := by omega
        have hzero : pid = 0 := by
          apply Classical.byContradiction
          intro hne
          exact written_ne_nil hne (List.length_eq_zero_iff.mp hempty)
        subst hzero
        have hone : (decimal 0).length = 1 := rfl
        omega
    . rw [written_eq hlast] at hshort hroom hsame hlen
      rw [childName_of_room (by omega), List.length_append] at hlen
      exact .clean (hnul (List.length_eq_zero_iff.mp (by omega))) hlast hlt hrev hshort
  . rw [printed_of_ge (by omega) hpid, written_zero] at hshort hroom hsame hlen
    rw [List.length_nil] at hshort hlen
    have hlong := two_le_length_decimal (n := pid) (by omega)
    by_cases hfull : s.length + (decimal pid).length + 1 ≤ cnameMax
    . rw [childName_of_room hfull, List.length_append] at hlen
      omega
    . rw [childName_of_full hfull] at hlen
      exact .unprinted (hnul (List.length_eq_zero_iff.mp (by omega))) (by omega) (by omega) hshort

theorem nameBuilt_iff (buf old : Buf cnameMax) (hparent : parent.StrAt 0 s) (hpid : pid < 2 ^ 32)
    : (∃ (child : Buf cnameMax), cloneName parent pid name buf old = .ok child
        ∧ child.StrAt 0 (childName s pid)) ↔ NameBuilt s pid name := by
  rw [cloneName_iff hparent]
  constructor
  . rintro ⟨hrev, hshort, g, hat, hroom, hsame⟩
    exact .of_correct hrev hpid hshort hat hroom hsame
  . intro hbuilt
    exact hbuilt.correct hpid

theorem doClone_name_iff {k : Kernel} (thFunc userStack rax : U64) {env : CloneEnv} {i : Slot}
    (hnew : env.newCtx = some i) (hi : i ≠ k.current) {P : Buf cnameMax → Prop}
    : (∃ (k' : Kernel), doClone thFunc userStack env rax k = .ok k' ∧ P (k'.list i).name)
        ↔ ∃ (child : Buf cnameMax),
            cloneName k.cur.name k.cur.pid env.name env.pid (k.list i).name = .ok child ∧ P child := by
  constructor
  . rintro ⟨k', hok, hP⟩
    obtain ⟨j, new, hj, hmade, -, -, hname⟩ := doClone_made hok
    have hlist : k'.list = Function.update k.list j new := congrArg Kernel.list hmade
    rw [hnew, Option.some.injEq] at hj
    subst hj
    rw [hlist, Function.update_self] at hP
    exact ⟨new.name, hname hi, hP⟩
  . rintro ⟨child, hok, hP⟩
    unfold doClone
    simp only [hnew, Kernel.cur, Kernel.setCtx, Function.update_self, Function.update_of_ne hi.symm]
    rw [Kernel.cur] at hok
    simp only [hok, bind, Except.bind, pure, Except.pure, Except.ok.injEq, exists_eq_left', Function.update_self]
    exact hP

theorem Kernel.name_setCtx {k : Kernel} {j : Slot} {new : Context} (hnew : new.name = (k.list j).name) (i : Slot)
    : ((k.setCtx j new).list i).name = (k.list i).name := by
  by_cases hi : i = j
  . subst hi
    simpa [setCtx] using hnew
  . simp [setCtx, hi]

theorem Call.name_kept {k k' : Kernel} {c : Call} {i : Slot} (hok : c.exec k = .ok k') (hnot : ¬ c.Creates i)
    : (k'.list i).name = (k.list i).name := by
  cases c with
  | clone thFunc userStack env rax =>
    obtain ⟨j, new, hj, hmade, -⟩ := doClone_made hok
    have hlist : k'.list = Function.update k.list j new := congrArg Kernel.list hmade
    have hij : i ≠ j := by
      intro heq
      rw [← heq] at hj
      exact hnot hj
    rw [hlist, Function.update_of_ne hij]
  | signal signo handler rax =>
    obtain ⟨s, -, heq⟩ := doSignal_cases hok
    rw [heq]
    apply Kernel.name_setCtx
    rfl
  | alarm ticks rax =>
    simp only [Call.exec, doAlarm, Except.ok.injEq] at hok
    rw [← hok]
    apply Kernel.name_setCtx
    rfl
  | _ =>
    have hname := congrArg Context.name (congrFun (Call.settled hok id) i)
    rw [Kernel.settled_name, Kernel.settled_name] at hname
    exact hname

theorem Names.record_kept {names : Names} {p i : Slot} {c : Call} (hnot : ¬ c.Creates i)
    : names.record p pid c i = names i := by
  cases c with
  | clone thFunc userStack env rax =>
    cases hnew : env.newCtx with
    | none => simp only [record, hnew]
    | some j =>
      have hij : i ≠ j := by
        intro heq
        rw [← heq] at hnew
        exact hnot hnew
      simp only [record, hnew, Function.update_of_ne hij]
  | _ => rfl

theorem BuiltStep.named {s s' : Kernel × Names} {c : Call} (h : Named s) (hstep : BuiltStep s c s') : Named s' := by
  intro i p hp
  rw [hstep.names] at hp
  have hok := hstep.exec
  by_cases hc : c.Creates i
  . cases c with
    | clone thFunc userStack env rax =>
      have hnew : env.newCtx = some i := hc
      simp only [Names.record, hnew, Function.update_self, Option.map_eq_some_iff] at hp
      obtain ⟨q, hq, rfl⟩ := hp
      have hbuilt := hstep.built _ _ _ _ q rfl hq
      have hname := (nameBuilt_iff env.pid (s.1.list i).name (h _ q hq) hstep.pid).mpr hbuilt
      obtain ⟨k', hok', hstr⟩ := (doClone_name_iff (P := fun b => b.StrAt 0 _) thFunc userStack rax hnew
        (hstep.other i hc)).mpr hname
      have heq : k' = s'.1 := by
        rw [Call.exec, hok', Except.ok.injEq] at hok
        exact hok
      rw [← heq]
      exact hstr
    | _ => cases hc
  . rw [Names.record_kept hc] at hp
    rw [Call.name_kept hok hc]
    exact h i p hp

-- of the names, that of init is known: it is empty
def initNames : Names :=
  fun i => if i = 1 then some [] else none

theorem named_boot : Named (boot, initNames) := by
  intro i p hp
  simp only [initNames] at hp
  split at hp
  . next hi =>
    subst hi
    rw [Option.some.injEq] at hp
    subst hp
    exact strAt_nil (by decide) rfl
  . cases hp

theorem nameBuilt_zero : NameBuilt [] 1 (Buf.zero cnameMax) := by
  apply NameBuilt.clean
  . rfl
  . decide
  . decide
  . simp [reversed]
  . simp [decimal, cnameMax]

-- what the buffer for the name may hold before it is written
def stale : Buf cnameMax :=
  fun i => if i.val < 2 then 120#8 else 0#8

end Sched
