import CS330.Entry.Lemmas

/-!
This module contains which page faults are answered with a page. The handler takes the end of the data segment for
one of its addresses, and the limit of the data segment for that of the constants.
-/

namespace Entry

open PageTable

def MmSegment.Contains (m : MmSegment) (va : U64) : Prop :=
  m.start ≤ va ∧ va < m.stop

-- the part of a segment that is in use
def MmSegment.InUse (m : MmSegment) (va : U64) : Prop :=
  m.start ≤ va ∧ va < m.nextFree

-- where a page should be added
def Wanted (mms : Segment → MmSegment) (vaddr error : U64) : Prop :=
  (mms .data).InUse vaddr ∨ ((mms .rodata).InUse vaddr ∧ error &&& 0x2 = 0) ∨ (mms .stack).Contains vaddr

/-- The three segments that grow do not overlap, and the part of them that is in use is at their start. -/
structure LaidOut (mms : Segment → MmSegment) : Prop where
  ordered : ∀ (seg : Segment), seg ≠ .code → (mms seg).start ≤ (mms seg).nextFree ∧ (mms seg).nextFree ≤ (mms seg).stop
  disjoint : ∀ (seg seg' : Segment) (va : U64), seg ≠ .code → seg' ≠ .code → (mms seg).Contains va
    → (mms seg').Contains va → seg = seg'

-- what the handler should do
def HandledWell (env : PfnEnv) (vaddr error : U64) (s : State) : Prop :=
  (Wanted s.mms vaddr error → ∃ (s' : State), handlePageFault env vaddr error s = .resumed s' ∧ s'.Followed vaddr)
    ∧ (¬ Wanted s.mms vaddr error → handlePageFault env vaddr error s = .exited s)

/-- The faults that are misjudged, with `read` for an access that does not write. -/
inductive Misjudged (mms : Segment → MmSegment) (vaddr : U64) (read : Prop) : Prop where
  -- the end of the data segment belongs to another one
  | dataEnd (hstop : vaddr = (mms .data).stop)
      (hother : (mms .stack).Contains vaddr ∨ ((mms .rodata).InUse vaddr ∧ read))
  -- constants below the data segment, beyond what is in use of them
  | beyond (hread : read) (hbelow : vaddr < (mms .data).start) (hfree : (mms .rodata).nextFree ≤ vaddr)
      (hstart : (mms .rodata).start ≤ vaddr) (hstop : vaddr ≤ (mms .rodata).stop)
      (hother : ¬ (mms .stack).Contains vaddr)
  -- constants above the data segment
  | above (hread : read) (habove : (mms .data).stop < vaddr) (huse : (mms .rodata).InUse vaddr)
  -- the stack begins where the constants end
  | rodataEnd (hstop : vaddr = (mms .rodata).stop) (hstack : (mms .stack).Contains vaddr)
      (hdata : ¬ ((mms .data).start ≤ vaddr ∧ vaddr ≤ (mms .data).stop))
      (hrefused : ¬ read ∨ (mms .data).stop < vaddr)

namespace handlePageFault

-- an entry that a pass of the loop does not change any more
def Settled (flags : U32) (e : Word) : Prop :=
  present e = true ∧ e ||| (flags &&& 0x2).setWidth 64 = e

-- the pass for one level
def fill (env : PfnEnv) (vaddr : U64) (accessFlags : U32) (level : Nat) (table : Frame) (s : State) : State :=
  let index := tableIndex vaddr level
  let s :=
    if s.frames table index &&& 0x1 = 0 then
      let pfn := if level = 1 then env.user else env.osPt level
      let s := setEntry s table index ((pfn <<< 12).setWidth 64)
      setEntry s table index (s.frames table index ||| 0x5)
    else
      s
  setEntry s table index (s.frames table index ||| (accessFlags &&& 0x2).setWidth 64)

variable (env : PfnEnv) (vaddr : U64) (flags : U32) (level : Nat) {table f : Frame} {i j : Index} {s : State}

theorem map_succ
    : map env vaddr flags (level + 1) table s
        =
      map env vaddr flags level
        ((fill env vaddr flags (level + 1) table s).frames table (tableIndex vaddr (level + 1)) >>> 12)
        (fill env vaddr flags (level + 1) table s) := rfl

theorem setEntry_here (e : Word) : (setEntry s f i e).frames f i = e :=
  update_here s.frames f i e

theorem setEntry_off {f' : Frame} (e : Word) (h : f' ≠ f ∨ j ≠ i) : (setEntry s f i e).frames f' j = s.frames f' j :=
  update_off s.frames e h

theorem fill_present (h : present (s.frames table (tableIndex vaddr level)) = true)
    : (fill env vaddr flags level table s).frames table (tableIndex vaddr level)
        =
      s.frames table (tableIndex vaddr level) ||| (flags &&& 0x2).setWidth 64 := by
  have hnot : ¬ (s.frames table (tableIndex vaddr level) &&& 0x1 = 0) := by
    rw [and_one_iff, h]
    decide
  simp only [fill, hnot, ↓reduceIte, setEntry_here]

theorem fill_absent (h : present (s.frames table (tableIndex vaddr level)) = false)
    : (fill env vaddr flags level table s).frames table (tableIndex vaddr level)
        =
      ((if level = 1 then env.user else env.osPt level) <<< 12).setWidth 64 ||| 0x5
        ||| (flags &&& 0x2).setWidth 64 := by
  have hzero := (and_one_iff _).mpr h
  simp only [fill, hzero, ↓reduceIte, setEntry_here]

theorem fill_off (h : f ≠ table ∨ j ≠ tableIndex vaddr level)
    : (fill env vaddr flags level table s).frames f j = s.frames f j := by
  unfold fill
  simp only
  split
  . rw [setEntry_off _ h, setEntry_off _ h, setEntry_off _ h]
  . rw [setEntry_off _ h]

theorem fill_mms : (fill env vaddr flags level table s).mms = s.mms := by
  unfold fill
  simp only
  split <;> rfl

theorem fill_pgd : (fill env vaddr flags level table s).pgd = s.pgd := by
  unfold fill
  simp only
  split <;> rfl

variable (table s) in
theorem settled_fill
    : Settled flags ((fill env vaddr flags level table s).frames table (tableIndex vaddr level)) := by
  cases h : present (s.frames table (tableIndex vaddr level)) with
  | true =>
    rw [fill_present _ _ _ _ h]
    refine ⟨?_, ?_⟩
    . simp only [present, BitVec.getLsbD_or] at h ⊢
      rw [h, Bool.true_or]
    . rw [BitVec.or_assoc, BitVec.or_self]
  | false =>
    rw [fill_absent _ _ _ _ h]
    refine ⟨?_, ?_⟩
    . simp [present]
    . rw [BitVec.or_assoc, BitVec.or_self]

variable (table) in
theorem fill_settled (h : Settled flags (s.frames f j))
    : (fill env vaddr flags level table s).frames f j = s.frames f j := by
  by_cases hhere : f = table ∧ j = tableIndex vaddr level
  . obtain ⟨rfl, rfl⟩ := hhere
    rw [fill_present _ _ _ _ h.1, h.2]
  . apply fill_off
    by_cases hf : f = table
    . exact .inr (fun hj => hhere ⟨hf, hj⟩)
    . exact .inl hf

theorem map_settled (h : Settled flags (s.frames f j))
    : (map env vaddr flags level table s).frames f j = s.frames f j := by
  induction level generalizing table s with
  | zero => rfl
  | succ level ih =>
    have hfill := fill_settled env vaddr flags (level + 1) table h
    rw [map_succ, ih, hfill]
    rw [hfill]
    exact h

theorem map_pgd : (map env vaddr flags level table s).pgd = s.pgd := by
  induction level generalizing table s with
  | zero => rfl
  | succ level ih => rw [map_succ, ih, fill_pgd]

theorem map_mms : (map env vaddr flags level table s).mms = s.mms := by
  induction level generalizing table s with
  | zero => rfl
  | succ level ih => rw [map_succ, ih, fill_mms]

-- the page is there, whatever the tables looked like
theorem checkPage_map
    : doSyscall.write.checkPage (map env vaddr flags level table s).frames vaddr level table = true := by
  induction level generalizing table s with
  | zero => rfl
  | succ level ih =>
    have hsettled := settled_fill env vaddr flags (level + 1) table s
    rw [checkPage_succ, map_succ, ← tableIndex_eq, map_settled env vaddr flags level hsettled]
    exact ⟨hsettled.1, ih⟩

theorem map_followed : (map env vaddr flags 4 (s.pgd.setWidth 64) s).Followed vaddr := by
  rw [← checkPage_iff, map_pgd]
  exact checkPage_map env vaddr flags 4

variable {vaddr} {mms : Segment → MmSegment} {error : U64}

-- the three tests in their order
theorem exists_segment_iff (herror : error &&& 0x1 = 0)
    : (∃ (seg : Segment), segment mms vaddr error = some seg)
        ↔ ((mms .data).start ≤ vaddr ∧ vaddr ≤ (mms .data).stop ∧ vaddr < (mms .data).nextFree)
          ∨ (¬ ((mms .data).start ≤ vaddr ∧ vaddr ≤ (mms .data).stop)
            ∧ ((mms .rodata).start ≤ vaddr ∧ vaddr ≤ (mms .rodata).stop)
            ∧ error &&& 0x2 = 0 ∧ vaddr < (mms .data).nextFree)
          ∨ (¬ ((mms .data).start ≤ vaddr ∧ vaddr ≤ (mms .data).stop)
            ∧ ¬ ((mms .rodata).start ≤ vaddr ∧ vaddr ≤ (mms .rodata).stop) ∧ (mms .stack).Contains vaddr) := by
  have hlimit : vaddr < (mms .data).nextFree ↔ ¬ (mms .data).nextFree ≤ vaddr := BitVec.not_le.symm
  unfold segment MmSegment.Contains
  rw [if_neg (by rw [herror]; decide), hlimit, ← and_assoc]
  by_cases hdata : (mms .data).start ≤ vaddr ∧ vaddr ≤ (mms .data).stop
  . simp only [hdata, and_self, ↓reduceIte, true_and, not_true_eq_false, false_and, or_false]
    split
    . next hbeyond => simp [hbeyond]
    . next hbelow => simp [hbelow]
  . simp only [hdata, ↓reduceIte, false_and, not_false_eq_true, true_and, false_or]
    by_cases hrodata : (mms .rodata).start ≤ vaddr ∧ vaddr ≤ (mms .rodata).stop
    . simp only [hrodata, and_self, ↓reduceIte, true_and, not_true_eq_false, false_and, or_false]
      split
      . next hrefused =>
        simp only [reduceCtorEq, exists_false, false_iff]
        rintro ⟨hread, hbelow⟩
        exact hrefused.elim (fun hwrite => hwrite hread) hbelow
      . next hallowed =>
        simp only [Option.some.injEq, exists_eq', true_iff]
        rwa [not_or, ne_eq, not_not] at hallowed
    . simp only [hrodata, ↓reduceIte, false_and, not_false_eq_true, true_and, false_or]
      split
      . next hstack => simp [hstack]
      . next hstack => simp [hstack]

theorem misjudged_iff {read : Prop}
    : Misjudged mms vaddr read
        ↔ (vaddr = (mms .data).stop ∧ ((mms .stack).Contains vaddr ∨ ((mms .rodata).InUse vaddr ∧ read)))
          ∨ (read ∧ vaddr < (mms .data).start ∧ (mms .rodata).nextFree ≤ vaddr ∧ (mms .rodata).start ≤ vaddr
            ∧ vaddr ≤ (mms .rodata).stop ∧ ¬ (mms .stack).Contains vaddr)
          ∨ (read ∧ (mms .data).stop < vaddr ∧ (mms .rodata).InUse vaddr)
          ∨ (vaddr = (mms .rodata).stop ∧ (mms .stack).Contains vaddr
            ∧ ¬ ((mms .data).start ≤ vaddr ∧ vaddr ≤ (mms .data).stop)
            ∧ (¬ read ∨ (mms .data).stop < vaddr)) := by
  constructor
  . rintro (⟨h1, h2⟩ | ⟨h1, h2, h3, h4, h5, h6⟩ | ⟨h1, h2, h3⟩ | ⟨h1, h2, h3, h4⟩)
    . exact .inl ⟨h1, h2⟩
    . exact .inr (.inl ⟨h1, h2, h3, h4, h5, h6⟩)
    . exact .inr (.inr (.inl ⟨h1, h2, h3⟩))
    . exact .inr (.inr (.inr ⟨h1, h2, h3, h4⟩))
  . rintro (⟨h1, h2⟩ | ⟨h1, h2, h3, h4, h5, h6⟩ | ⟨h1, h2, h3⟩ | ⟨h1, h2, h3, h4⟩)
    . exact .dataEnd h1 h2
    . exact .beyond h1 h2 h3 h4 h5 h6
    . exact .above h1 h2 h3
    . exact .rodataEnd h1 h2 h3 h4

theorem segment_iff (herror : error &&& 0x1 = 0) (h : LaidOut mms)
    : ((∃ (seg : Segment), segment mms vaddr error = some seg) ↔ Wanted mms vaddr error)
        ↔ ¬ Misjudged mms vaddr (error &&& 0x2 = 0) := by
  have hdata := h.ordered .data nofun
  have hrodata := h.ordered .rodata nofun
  have hdr : ¬ ((mms .data).Contains vaddr ∧ (mms .rodata).Contains vaddr) :=
    fun hboth => nomatch h.disjoint .data .rodata vaddr nofun nofun hboth.1 hboth.2
  have hds : ¬ ((mms .data).Contains vaddr ∧ (mms .stack).Contains vaddr) :=
    fun hboth => nomatch h.disjoint .data .stack vaddr nofun nofun hboth.1 hboth.2
  have hrs : ¬ ((mms .rodata).Contains vaddr ∧ (mms .stack).Contains vaddr) :=
    fun hboth => nomatch h.disjoint .rodata .stack vaddr nofun nofun hboth.1 hboth.2
  rw [exists_segment_iff herror, misjudged_iff, Wanted]
  generalize (error &&& 0x2 = 0) = read
  simp only [MmSegment.Contains, MmSegment.InUse, BitVec.le_def, BitVec.lt_def, ← BitVec.toNat_inj] at *
  generalize vaddr.toNat = v at *
  by_cases hread : read
  . simp only [hread, true_and, and_true, not_true_eq_false, false_or]
    -- the address is below the data segment, in it or at its end, or above
    rcases Nat.lt_or_ge v (mms .data).start.toNat with hbelow | hfrom
    . have hnot : ¬ (mms .data).start.toNat ≤ v := by omega
      have hend : v ≠ (mms .data).stop.toNat := by omega
      have habove : ¬ (mms .data).stop.toNat < v := by omega
      simp only [hbelow, hnot, hend, habove, false_and, true_and, and_false, false_or, or_false, not_false_eq_true]
      omega
    . have hnot : ¬ v < (mms .data).start.toNat := by omega
      rcases Nat.lt_or_ge (mms .data).stop.toNat v with habove | hto
      . have hto : ¬ v ≤ (mms .data).stop.toNat := by omega
        have hend : v ≠ (mms .data).stop.toNat := by omega
        simp only [hfrom, hnot, habove, hto, hend, false_and, true_and, and_false, and_true, false_or,
          not_false_eq_true]
        omega
      . have habove : ¬ (mms .data).stop.toNat < v := by omega
        simp only [hfrom, hnot, habove, hto, false_and, true_and, and_self, and_false, or_false,
          not_true_eq_false]
        omega
  . simp only [hread, false_and, and_false, or_false, false_or, not_false_eq_true, true_or, and_true]
    omega

end handlePageFault

theorem handledWell_iff {env : PfnEnv} {vaddr error : U64} {s : State} (herror : error &&& 0x1 = 0)
    (h : LaidOut s.mms)
    : HandledWell env vaddr error s ↔ ¬ Misjudged s.mms vaddr (error &&& 0x2 = 0) := by
  rw [← handlePageFault.segment_iff herror h]
  unfold HandledWell handlePageFault
  cases hseg : handlePageFault.segment s.mms vaddr error with
  | none =>
    simp
  | some seg =>
    simp [handlePageFault.map_followed]

-- a context with two pages of constants and four of data
def layout : Segment → MmSegment
  | .code => ⟨0x100000000, 0x100008000, 0x100008000, 0x5⟩
  | .rodata => ⟨0x140000000, 0x17FFFFFFF, 0x140002000, 0x1⟩
  | .data => ⟨0x180000000, 0x7FEFFFFFF, 0x180004000, 0x3⟩
  | .stack => ⟨0x7FF000000, 0x800000000, 0x800000000, 0x3⟩

def bare : State :=
  ⟨layout, 1, fun _ _ => 0#64, []⟩

theorem layout_laidOut : LaidOut layout where
  ordered := by
    intro seg _
    cases seg <;> decide
  disjoint := by
    intro seg seg' va hseg hseg' h h'
    simp only [MmSegment.Contains, BitVec.le_def, BitVec.lt_def] at h h'
    cases seg <;> cases seg' <;> simp_all [layout] <;> omega

-- the first frames of the two regions
def firstPfns : PfnEnv :=
  ⟨0x6400, fun level => BitVec.ofNat 32 (0x2000 + level)⟩

theorem handledWell_data : HandledWell firstPfns 0x180001000 0x6 bare := by
  rw [handledWell_iff (by decide) layout_laidOut, handlePageFault.misjudged_iff]
  unfold MmSegment.Contains MmSegment.InUse
  decide

-- a constant that is not in use is read
theorem not_handledWell_rodata : ¬ HandledWell firstPfns 0x140005000 0x4 bare := by
  intro h
  have hseg : handlePageFault.segment bare.mms 0x140005000 0x4 = some .rodata := by decide
  have hexit := h.2 (by unfold Wanted MmSegment.Contains MmSegment.InUse; decide)
  rw [handlePageFault, hseg] at hexit
  cases hexit

end Entry
