import CS330.ObjStore.Impl.Callers
import CS330.ObjStore.Ownership

/-!
This module contains when concurrent calls of `alloc_block` hand out a block twice: exactly when a caller
takes a bit that is clear in its copy of the word but has been set since in the bitmap.
-/

namespace ObjStore

namespace allocBlock

abbrev Callers := Pool (Bitmap blkBmpLn) Pc Act

def NoDouble (past : List (Nat × Act)) : Prop :=
  ∀ (b : BlockNo) (t t' : Nat) (new mid old : List (Nat × Act)),
    past = new ++ (t, .returned b) :: mid ++ (t', .returned b) :: old
      → ∃ (t'' : Nat), (t'', Act.freed b) ∈ mid

/-- The bit that the caller is about to test is clear in its copy but set in the bitmap. -/
def Stale (p : Callers) (t : Nat) : Prop :=
  ∃ (i : Fin blkBmpLn) (j : Nat) (temp : BitVec 64),
    p.pc t = .bits i j temp ∧ temp &&& 1#64 = 0#64 ∧ p.shared.bit (64 * i + j) = true

def FreshStep (p : Callers) (l : Nat × Act) (p' : Callers) : Prop :=
  Pool.Step Caller p l p' ∧ ¬ Stale p l.1

-- the last call that had to do with the block returned it
def Held (past : List (Nat × Act)) (b : BlockNo) : Prop :=
  ∃ (t : Nat) (new old : List (Nat × Act)),
    past = new ++ (t, .returned b) :: old ∧ ∀ (t' : Nat), (t', Act.freed b) ∉ new

variable {past : List (Nat × Act)} {b : BlockNo} {t : Nat}

theorem held_returned : Held ((t, .returned b) :: past) b :=
  ⟨t, [], past, rfl, by simp⟩

theorem held_cons {l : Nat × Act} (h : Held past b) (hl : l.2 ≠ .freed b) : Held (l :: past) b := by
  obtain ⟨t, new, old, rfl, hnew⟩ := h
  refine ⟨t, l :: new, old, rfl, ?_⟩
  intro t' hmem
  cases List.mem_cons.mp hmem with
  | inl heq => exact hl (by rw [← heq])
  | inr hmem => exact hnew t' hmem

theorem held_cons_cases {l : Nat × Act} (h : Held (l :: past) b)
    : l.2 = .returned b ∨ (Held past b ∧ l.2 ≠ .freed b) := by
  obtain ⟨t, new, old, heq, hnew⟩ := h
  cases new with
  | nil =>
    simp only [List.nil_append, List.cons.injEq] at heq
    exact Or.inl (by rw [heq.1])
  | cons a new =>
    simp only [List.cons_append, List.cons.injEq] at heq
    refine Or.inr ⟨⟨t, new, old, heq.2, ?_⟩, ?_⟩
    . intro t' hmem
      exact hnew t' (List.mem_cons_of_mem _ hmem)
    . intro hfreed
      apply hnew l.1
      rw [← heq.1, ← hfreed]
      exact List.mem_cons_self

theorem noDouble_cons {l : Nat × Act}
    : NoDouble (l :: past) ↔ (NoDouble past ∧ ∀ (b : BlockNo), l.2 = .returned b → ¬ Held past b) := by
  constructor
  . intro h
    refine ⟨?_, ?_⟩
    . intro b t t' new mid old heq
      apply h b t t' (l :: new) mid old
      rw [heq]
      rfl
    . rintro b hret ⟨t, mid, old, heq, hmid⟩
      obtain ⟨t', hmem⟩ := h b l.1 t [] mid old (by rw [heq, ← hret]; rfl)
      exact hmid t' hmem
  . rintro ⟨h, hl⟩ b t t' new mid old heq
    cases new with
    | nil =>
      simp only [List.nil_append, List.cons_append, List.cons.injEq] at heq
      apply Classical.byContradiction
      intro hno
      apply hl b (by rw [heq.1])
      refine ⟨t', mid, old, heq.2, ?_⟩
      intro t'' hmem
      exact hno ⟨t'', hmem⟩
    | cons a new =>
      simp only [List.cons_append, List.cons.injEq] at heq
      exact h b t t' new mid old heq.2

theorem toNat_block (i : Fin blkBmpLn) (j : Nat) (hj : j < 64)
    : (BitVec.ofNat 32 (64 * i + j)).toNat = 64 * i + j := by
  have hi := i.isLt
  simp only [blkBmpLn] at hi
  rw [BitVec.toNat_ofNat]
  apply Nat.mod_eq_of_lt
  omega

-- what a caller knows of the bitmap: a bit that is clear in its copy only was set by a call of another
def Pc.Known (m : Bitmap blkBmpLn) (past : List (Nat × Act)) : Pc → Prop
  | .idle => True
  | .word _ => True
  | .bits i j temp => j < 64 ∧ ∀ (n : Nat), j + n < 64 → temp.getLsbD n = false
      → m.bit (64 * i + (j + n)) = true → Held past (BitVec.ofNat 32 (64 * i + (j + n)))

variable {m m' : Bitmap blkBmpLn} {k k' : Pc} {a : Act} {p p' : Callers}

theorem bit_free (m : Bitmap blkBmpLn) (b : BlockNo) (h : b.toNat / 64 < blkBmpLn) (n : Nat)
    : (m.andNotBit ⟨b.toNat / 64, h⟩ (b.toNat % 64)).bit n = (!decide (n = b.toNat) && m.bit n) := by
  rw [Bitmap.bit_andNotBit _ _ _ (by omega), Nat.div_add_mod]

-- where a bit that is set after an action comes from
theorem Caller.bit_cases (h : Caller m k a m' k') (hk : k.Known m past) (b : BlockNo)
    (hbit : m'.bit b.toNat = true)
    : a = .returned b ∨ (m.bit b.toNat = true ∧ a ≠ .freed b) := by
  cases h with
  | call => exact Or.inr ⟨hbit, by simp⟩
  | copy i => exact Or.inr ⟨hbit, by simp⟩
  | take i j temp h =>
    rw [Bitmap.bit_orBit _ _ _ hk.1, Bool.or_eq_true, decide_eq_true_eq] at hbit
    cases hbit with
    | inl heq =>
      left
      rw [← heq, BitVec.ofNat_toNat, BitVec.setWidth_eq]
    | inr hbit => exact Or.inr ⟨hbit, by simp⟩
  | pass i j temp h => exact Or.inr ⟨hbit, by simp⟩
  | fail => exact Or.inr ⟨hbit, by simp⟩
  | free b' h =>
    rw [bit_free, Bool.and_eq_true, Bool.not_eq_true', decide_eq_false_iff_not] at hbit
    refine Or.inr ⟨hbit.2, ?_⟩
    intro heq
    cases heq
    exact hbit.1 rfl

theorem Caller.known_other (h : Caller m k a m' k') (hk : k.Known m past) (t : Nat) {k₀ : Pc}
    (hk₀ : k₀.Known m past)
    : k₀.Known m' ((t, a) :: past) := by
  cases k₀ with
  | idle => trivial
  | word i => trivial
  | bits i j temp =>
    refine ⟨hk₀.1, ?_⟩
    intro n hn hclear hset
    rw [← toNat_block i (j + n) hn] at hset
    cases h.bit_cases hk _ hset with
    | inl hret =>
      rw [hret]
      exact held_returned
    | inr hold =>
      rw [toNat_block i (j + n) hn] at hold
      exact held_cons (hk₀.2 n hn hclear hold.1) hold.2

theorem Caller.known_self (h : Caller m k a m' k') (hk : k.Known m past) (t : Nat)
    : k'.Known m' ((t, a) :: past) := by
  cases h with
  | call => trivial
  | copy i =>
    refine ⟨by decide, ?_⟩
    intro n hn hclear hset
    rw [Bitmap.bit_word _ _ _ (by omega), Nat.zero_add, hclear] at hset
    cases hset
  | take i j temp h => trivial
  | pass i j temp h =>
    unfold nextBit
    split
    . next hj =>
      refine ⟨hj, ?_⟩
      intro n hn hclear hset
      rw [BitVec.getLsbD_ushiftRight] at hclear
      rw [show j + 1 + n = j + (1 + n) by omega] at hset ⊢
      exact held_cons (hk.2 (1 + n) (by omega) hclear hset) (by simp)
    . trivial
  | fail => trivial
  | free b h => trivial

-- What holds in every state that callers can reach.
structure Books (p : Callers) : Prop where
  known : ∀ (t : Nat), (p.pc t).Known p.shared p.past
  held : ∀ (b : BlockNo), Held p.past b → p.shared.bit b.toNat = true

theorem Books.start (m : Bitmap blkBmpLn) : Books (Pool.start m .idle) where
  known := fun _ => trivial
  held := by
    rintro b ⟨t, new, old, heq, -⟩
    simp [Pool.start] at heq

theorem Caller.bit_of_held (h : Caller m k a m' k') (hk : k.Known m past) (b : BlockNo)
    (hbit : a = .returned b ∨ (m.bit b.toNat = true ∧ a ≠ .freed b))
    : m'.bit b.toNat = true := by
  cases h with
  | call => simpa using hbit
  | copy i => simpa using hbit
  | take i j temp h =>
    rw [Bitmap.bit_orBit _ _ _ hk.1, Bool.or_eq_true, decide_eq_true_eq]
    cases hbit with
    | inl heq =>
      cases heq
      exact Or.inl (toNat_block i j hk.1)
    | inr hbit => exact Or.inr hbit.1
  | pass i j temp h => simpa using hbit
  | fail => simpa using hbit
  | free b' h =>
    rw [bit_free, Bool.and_eq_true, Bool.not_eq_true', decide_eq_false_iff_not]
    have hbit' : m.bit b.toNat = true ∧ Act.freed b' ≠ .freed b := by simpa using hbit
    refine ⟨?_, hbit'.1⟩
    intro heq
    rw [BitVec.toNat_inj] at heq
    exact hbit'.2 (by rw [heq])

theorem Books.step {l : Nat × Act} (hp : Books p) (h : Pool.Step Caller p l p') : Books p' := by
  obtain ⟨m, k, hact, rfl⟩ := h
  refine ⟨?_, ?_⟩
  . intro t
    by_cases ht : t = l.1
    . subst ht
      simp only [Pool.move, Function.update_self]
      exact hact.known_self (hp.known l.1) l.1
    . simp only [Pool.move, Function.update_of_ne ht]
      exact hact.known_other (hp.known l.1) l.1 (hp.known t)
  . intro b hheld
    apply hact.bit_of_held (hp.known l.1) b
    cases held_cons_cases hheld with
    | inl hret => exact Or.inl hret
    | inr hold => exact Or.inr ⟨hp.held b hold.1, hold.2⟩

theorem run_books {ls : List (Nat × Act)} (h : Run (Pool.Step Caller) (Pool.start m .idle) ls p)
    : Books p :=
  Run.inv (Books.start m) (fun _ _ _ hp hstep => hp.step hstep) h

theorem stale_iff {l : Nat × Act} (hp : Books p) (h : Pool.Step Caller p l p')
    : Stale p l.1 ↔ ∃ (b : BlockNo), l.2 = .returned b ∧ Held p.past b := by
  obtain ⟨t, a⟩ := l
  obtain ⟨m, k, hact, rfl⟩ := h
  have hknown := hp.known t
  constructor
  . rintro ⟨i, j, temp, hpc, hclear, hset⟩
    simp only at hpc hact hknown
    rw [hpc] at hact hknown
    have hbit : temp.getLsbD 0 = false := by
      rw [← Bitmap.and_one_eq_zero, BitVec.ushiftRight_zero]
      exact hclear
    cases hact with
    | take _ _ _ _ => exact ⟨_, rfl, hknown.2 0 hknown.1 hbit hset⟩
    | pass _ _ _ hset => exact absurd hclear hset
  . rintro ⟨b, rfl, hheld⟩
    have hset := hp.held b hheld
    simp only at hact hknown
    generalize hpc : p.pc t = k at hact hknown
    cases hact with
    | take i j temp hclear =>
      refine ⟨i, j, temp, hpc, hclear, ?_⟩
      rw [← toNat_block i j hknown.1]
      exact hset

theorem noDouble_step {l : Nat × Act} (hp : Books p) (h : Pool.Step Caller p l p')
    : NoDouble p'.past ↔ (NoDouble p.past ∧ ¬ Stale p l.1) := by
  rw [stale_iff hp h]
  obtain ⟨m, k, -, rfl⟩ := h
  rw [Pool.move, noDouble_cons]
  apply and_congr_right
  intro _
  constructor
  . rintro hno ⟨b, hret, hheld⟩
    exact hno b hret hheld
  . intro hno b hret hheld
    exact hno ⟨b, hret, hheld⟩

/--
Any number of callers in any order: no block is returned twice without a `free_block` of it in between if
and only if no caller takes a bit that is clear in its copy of the word but set in the bitmap.
-/
theorem run_noDouble_iff (m : Bitmap blkBmpLn) (ls : List (Nat × Act)) (p : Callers)
    (h : Run (Pool.Step Caller) (Pool.start m .idle) ls p)
    : NoDouble p.past ↔ Run FreshStep (Pool.start m .idle) ls p := by
  constructor
  . intro hno
    induction h with
    | nil => exact .nil
    | snoc hrun hstep ih =>
      obtain ⟨hold, hfresh⟩ := (noDouble_step (run_books hrun) hstep).mp hno
      exact .snoc (ih hold) ⟨hstep, hfresh⟩
  . intro hfresh
    have hboth : Books p ∧ NoDouble p.past := by
      apply Run.inv (I := fun p => Books p ∧ NoDouble p.past) _ _ hfresh
      . refine ⟨Books.start m, ?_⟩
        intro b t t' new mid old heq
        simp [Pool.start] at heq
      . rintro q l q' ⟨hq, hno⟩ ⟨hstep, hfresh⟩
        exact ⟨hq.step hstep, (noDouble_step hq hstep).mpr ⟨hno, hfresh⟩⟩
    exact hboth.2

/-! One caller alone is the `alloc_block` of a single thread. -/

theorem walks_bits (t : Nat) (i : Fin blkBmpLn) (j n : Nat) (temp : BitVec 64) (hn : j + n < 64)
    (hset : ∀ (l : Nat), l < n → temp.getLsbD l = true) (p : Callers) (hp : p.pc t = .bits i j temp)
    : ∃ (p' : Callers), Pool.Walks Caller t (.bits i (j + n) (temp >>> n)) p p' := by
  induction n generalizing j temp p with
  | zero => exact ⟨p, .refl (by simpa using hp)⟩
  | succ n ih =>
    have hbit : temp &&& 1#64 ≠ 0#64 := by
      intro hclear
      have := (Bitmap.and_one_eq_zero temp 0).mp (by rwa [BitVec.ushiftRight_zero])
      rw [hset 0 (by omega)] at this
      cases this
    have hpass : Caller p.shared (p.pc t) .passed p.shared (.bits i (j + 1) (temp >>> 1)) := by
      have := Caller.pass p.shared i j temp hbit
      rwa [nextBit, if_pos (by omega), ← hp] at this
    have hfirst := Pool.Walks.one hpass
    obtain ⟨p', hrest⟩ := ih (j + 1) (temp >>> 1) (by omega)
      (by
        intro l hl
        rw [BitVec.getLsbD_ushiftRight]
        exact hset (1 + l) (by omega)) _ hfirst.pc_self
    refine ⟨p', hfirst.trans ?_⟩
    rw [← BitVec.shiftRight_add, show j + 1 + n = j + (n + 1) by omega, Nat.add_comm 1 n] at hrest
    exact hrest

theorem walks_word (t : Nat) (i : Fin blkBmpLn) (n : Nat) (hn : n < 64) (p : Callers)
    (hset : ∀ (l : Nat), l < n → (p.shared i).getLsbD l = true) (hp : p.pc t = .word i)
    : ∃ (p' : Callers), Pool.Walks Caller t (.bits i n (p.shared i >>> n)) p p' := by
  have hcopy : Caller p.shared (p.pc t) .copied p.shared (.bits i 0 (p.shared i)) := by
    rw [hp]
    exact .copy p.shared i
  have hfirst := Pool.Walks.one hcopy
  obtain ⟨p', hrest⟩ := walks_bits t i 0 n (p.shared i) (by omega) hset _ hfirst.pc_self
  rw [Nat.zero_add] at hrest
  exact ⟨p', hfirst.trans hrest⟩

theorem walks_full (t : Nat) (i n : Nat) (hn : i + n ≤ blkBmpLn) (p : Callers)
    (hset : ∀ (l : Nat), 64 * i ≤ l → l < 64 * (i + n) → p.shared.bit l = true) (hp : p.pc t = .word i)
    : ∃ (p' : Callers), Pool.Walks Caller t (.word (i + n)) p p' := by
  induction n generalizing i p with
  | zero => exact ⟨p, .refl hp⟩
  | succ n ih =>
    have hword : ∀ (l : Nat), l < 64 → (p.shared ⟨i, by omega⟩).getLsbD l = true := by
      intro l hl
      rw [← Bitmap.bit_word p.shared ⟨i, by omega⟩ l hl]
      exact hset _ (by simp) (by simp only; omega)
    obtain ⟨q, hq⟩ := walks_word t ⟨i, by omega⟩ 63 (by omega) p (fun l hl => hword l (by omega)) hp
    have hpass : Caller q.shared (q.pc t) .passed q.shared (.word (i + 1)) := by
      rw [hq.pc_self, hq.shared_eq]
      refine Caller.pass p.shared ⟨i, by omega⟩ 63 _ ?_
      rw [Ne, Bitmap.and_one_eq_zero, hword 63 (by omega)]
      simp
    have hnext := hq.trans (Pool.Walks.one hpass)
    obtain ⟨p', hrest⟩ := ih (i + 1) (by omega) (q.move t .passed q.shared (.word (i + 1)))
      (by
        intro l h1 h2
        rw [hnext.shared_eq]
        exact hset l (by omega) (by omega)) hnext.pc_self
    rw [show i + 1 + n = i + (n + 1) by omega] at hrest
    exact ⟨p', hnext.trans hrest⟩

-- a caller gets to the first clear bit, if all are left of it
theorem walks_clear (t : Nat) (i : Fin blkBmpLn) (j : Nat) (hj : j < 64) (hi : resBlocks / 64 - 1 ≤ i)
    (p : Callers) (hset : ∀ (l : Nat), 64 * (resBlocks / 64 - 1) ≤ l → l < 64 * i + j → p.shared.bit l = true)
    (hp : p.pc t = .idle)
    : ∃ (p' : Callers), Pool.Walks Caller t (.bits i j (p.shared i >>> j)) p p' := by
  have hcall : Caller p.shared (p.pc t) .called p.shared (.word (resBlocks / 64 - 1)) := by
    rw [hp]
    exact .call p.shared
  have h1 := Pool.Walks.one hcall
  have hlt := i.isLt
  obtain ⟨q, h2⟩ := walks_full t (resBlocks / 64 - 1) (i - (resBlocks / 64 - 1)) (by omega)
    (p.move t .called p.shared (.word (resBlocks / 64 - 1))) (fun l h1 h2 => hset l h1 (by omega))
    h1.pc_self
  rw [Nat.add_sub_cancel' hi] at h2
  have h12 := h1.trans h2
  obtain ⟨p', h3⟩ := walks_word t i j hj q
    (by
      intro l hl
      rw [h12.shared_eq, ← Bitmap.bit_word p.shared i l (by omega)]
      exact hset _ (by omega) (by omega)) h2.pc_self
  rw [h12.shared_eq] at h3
  exact ⟨p', h12.trans h3⟩

theorem caller_alone (w : World) (t : Nat) (p : Callers) (hshared : p.shared = w.blkBmp)
    (hp : p.pc t = .idle)
    : ∃ (ls : List (Nat × Act)) (p' : Callers), Run (Pool.Step Caller) p ls p'
        ∧ (∀ (l : Nat × Act), l ∈ ls → l.1 = t) ∧ p'.shared = (allocBlock w).2.blkBmp
        ∧ p'.pc t = .idle
        ∧ (p'.past.head? = some (t, .returned (allocBlock w).1)
          ∨ (p'.past.head? = some (t, .failed) ∧ (allocBlock w).1 = -1)) := by
  -- `q` is where the last action is left to do
  have hlast : ∀ (k : Pc) (q : Callers) (a : Act) (m : Bitmap blkBmpLn), Pool.Walks Caller t k p q
      → Caller w.blkBmp k a m .idle
      → ∃ (ls : List (Nat × Act)) (p' : Callers), Run (Pool.Step Caller) p ls p'
        ∧ (∀ (l : Nat × Act), l ∈ ls → l.1 = t) ∧ p'.shared = m ∧ p'.pc t = .idle
        ∧ p'.past.head? = some (t, a) := by
    intro k q a m hq hact
    obtain ⟨ls, hrun, hls⟩ := hq.run
    rw [← hshared, ← hq.shared_eq, ← hq.pc_self] at hact
    refine ⟨ls ++ [(t, a)], _, .snoc hrun (Pool.Step.act hact), ?_, rfl, ?_, rfl⟩
    . intro l hl
      cases List.mem_append.mp hl with
      | inl hl => exact hls l hl
      | inr hl => rw [List.mem_singleton.mp hl]
    . simp [Pool.move]
  have hcall : Caller p.shared (p.pc t) .called p.shared (.word (resBlocks / 64 - 1)) := by
    rw [hp]
    exact .call p.shared
  cases words_spec (resBlocks / 64 - 1) w (by decide) with
  | inl h =>
    obtain ⟨i, j, log, hj, hi, hclear, hset, heq, -⟩ := h
    obtain ⟨q, hq⟩ := walks_clear t i j hj hi p (by rwa [hshared]) hp
    rw [hshared] at hq
    have htake : w.blkBmp i >>> j &&& 1#64 = 0#64 := by
      rw [Bitmap.and_one_eq_zero, ← Bitmap.bit_word _ _ _ hj]
      exact hclear
    obtain ⟨ls, p', hrun, hls, hm, hpc, hpast⟩ := hlast _ q _ _ hq (.take w.blkBmp i j _ htake)
    refine ⟨ls, p', hrun, hls, ?_, hpc, Or.inl ?_⟩
    . rw [hm, allocBlock, heq]
    . rw [hpast, allocBlock, heq]
  | inr h =>
    obtain ⟨log, hset, heq, -⟩ := h
    have h1 := Pool.Walks.one hcall
    obtain ⟨q, h2⟩ := walks_full t (resBlocks / 64 - 1) (blkBmpLn - (resBlocks / 64 - 1)) (by decide)
      (p.move t .called p.shared (.word (resBlocks / 64 - 1)))
      (by
        intro l hl1 hl2
        simp only [Pool.move, hshared]
        exact hset l hl1 (by omega)) h1.pc_self
    have hq := h1.trans h2
    rw [Nat.add_sub_cancel' (by decide)] at hq
    obtain ⟨ls, p', hrun, hls, hm, hpc, hpast⟩ := hlast _ q _ _ hq (.fail w.blkBmp)
    refine ⟨ls, p', hrun, hls, ?_, hpc, Or.inr ⟨hpast, ?_⟩⟩
    . rw [hm, allocBlock, heq]
    . rw [allocBlock, heq]

/-! Two callers on a store that was just mounted from a blank disk. -/

-- the bit of block 20256, the first one behind the reserved blocks
def firstWord : Fin blkBmpLn := ⟨316, by decide⟩

theorem walks_first (t : Nat) (p : Callers) (hshared : p.shared = diskBmp blankDisk) (hp : p.pc t = .idle)
    : ∃ (p' : Callers), Pool.Walks Caller t (.bits firstWord 32 (p.shared firstWord >>> 32)) p p' := by
  apply walks_clear t firstWord 32 (by decide) (by decide) p _ hp
  intro l _ hl
  rw [hshared, bit_diskBmp_blank, decide_eq_true_eq]
  exact hl

theorem take_first (m : Bitmap blkBmpLn)
    : Caller m (.bits firstWord 32 (diskBmp blankDisk firstWord >>> 32)) (.returned 20256#32)
        (m.orBit firstWord 32) .idle := by
  refine .take m firstWord 32 _ ?_
  rw [Bitmap.and_one_eq_zero, ← Bitmap.bit_word _ _ _ (by decide), bit_diskBmp_blank]
  decide

theorem run_noDouble_iff_first
    : ∃ (ls : List (Nat × Act)) (p : Callers),
        Run (Pool.Step Caller) (Pool.start (diskBmp blankDisk) .idle) ls p
          ∧ p.past.head? = some (0, .returned 20256#32)
          ∧ (NoDouble p.past ↔ Run FreshStep (Pool.start (diskBmp blankDisk) .idle) ls p) := by
  obtain ⟨q, hq⟩ := walks_first 0 (Pool.start (diskBmp blankDisk) .idle) rfl rfl
  obtain ⟨ls, hrun, -⟩ := hq.run
  have htake := take_first q.shared
  rw [show Pc.bits firstWord 32 (diskBmp blankDisk firstWord >>> 32) = q.pc 0 from hq.pc_self.symm]
    at htake
  have hrun' := Run.snoc hrun (Pool.Step.act htake)
  exact ⟨_, _, hrun', rfl, run_noDouble_iff _ _ _ hrun'⟩

theorem not_noDouble_race
    : ∃ (ls : List (Nat × Act)) (p : Callers),
        Run (Pool.Step Caller) (Pool.start (diskBmp blankDisk) .idle) ls p ∧ ¬ NoDouble p.past := by
  obtain ⟨q₀, h0⟩ := walks_first 0 (Pool.start (diskBmp blankDisk) .idle) rfl rfl
  obtain ⟨q₁, h1⟩ := walks_first 1 q₀ h0.shared_eq (h0.pc_other (by decide))
  obtain ⟨ls₀, hrun0, -⟩ := h0.run
  obtain ⟨ls₁, hrun1, -⟩ := h1.run
  -- caller 0 takes the bit
  have htake0 := take_first q₁.shared
  have hpc0 : q₁.pc 0 = .bits firstWord 32 (diskBmp blankDisk firstWord >>> 32) := by
    rw [h1.pc_other (by decide), h0.pc_self]
    rfl
  rw [← hpc0] at htake0
  have hrun := (hrun0.trans hrun1).snoc (Pool.Step.act htake0)
  -- caller 1 still has the copy
  have htake1 := take_first (q₁.shared.orBit firstWord 32)
  have hpc1 : (q₁.move 0 (.returned 20256#32) (q₁.shared.orBit firstWord 32) .idle).pc 1
      = .bits firstWord 32 (diskBmp blankDisk firstWord >>> 32) := by
    simp only [Pool.move, Function.update_of_ne (show 1 ≠ 0 by decide), h1.pc_self, h0.shared_eq]
    rfl
  rw [← hpc1] at htake1
  refine ⟨_, _, hrun.snoc (Pool.Step.act htake1), ?_⟩
  intro hno
  obtain ⟨t, hmem⟩ := hno 20256#32 1 0 [] [] q₁.past rfl
  cases hmem

end allocBlock

end ObjStore
