import CS330.Lib.Run
import CS330.ObjStore.Lemmas.Block

/-!
This module contains what a failed operation on the block cache leaves behind. A flush that fails changes nothing,
but a read that fails after the flush leaves the line under the new tag with whatever the disk left in it.
-/

namespace ObjStore

inductive CacheOp where
  | flush (i : Fin cacheLen)
  | read (b : BlockNo) (buf : Block)
  | write (b : BlockNo) (buf : Block)

namespace CacheOp

def run (env : Env) (w : World) : CacheOp → Bool × World
  | flush i => flushChBlk env i w
  | read b buf => ((readChBlk env b buf w).1, (readChBlk env b buf w).2.2)
  | write b buf => writeChBlk env b buf w

-- block 0 marks an empty line
def Data : CacheOp → Prop
  | flush _ => True
  | read b _ => b ≠ 0#32
  | write b _ => b ≠ 0#32

def Writes (b : BlockNo) : CacheOp → Prop
  | write b' _ => b' = b
  | _ => False

-- Either the flush fails, or what the failed read leaves in the line is what the block holds.
def Clean (env : Env) (w : World) : CacheOp → Prop
  | read b _ => env.fails (w.log.length + 1) = true ∨ env.junk (w.log.length + 2) = w.disk b
  | _ => True

end CacheOp

-- a cache operation, with any pattern of failures
def CacheStep (w : World) (op : CacheOp) (w' : World) : Prop :=
  ∃ (env : Env) (ok : Bool), env.cached = true ∧ op.Data ∧ op.run env w = (ok, w') ∧ (ok = false → op.Clean env w)

namespace World

/-- The logical content of a block: the line on a hit, the disk on a miss. -/
def content (w : World) (b : BlockNo) : Block :=
  DirectMapped.look cacheIndex w.cacheInfo w.cache w.disk b

-- No line has another content for a block than the disk or the line that the block belongs to.
def Filed (w : World) : Prop :=
  ∀ (i : Fin cacheLen), w.cacheInfo i ≠ 0#32
    → w.cache i = w.disk (w.cacheInfo i) ∨ w.cache i = w.content (w.cacheInfo i)

theorem Tagged.filed {w : World} (h : w.Tagged) : w.Filed := by
  intro i hi
  right
  have hidx := h i hi
  simp only [content, DirectMapped.look, hidx, ↓reduceIte]

/--
Nothing is lost between `w` and `w'`, and what cache operations write back later on is what `w` held, except
where the caller writes something else.
-/
structure Lossless (w w' : World) : Prop where
  content_eq : ∀ (b : BlockNo), b ≠ 0#32 → w'.content b = w.content b
  later : ∀ (ops : List CacheOp) (u : World), Run CacheStep w' ops u → ∀ (b : BlockNo), b ≠ 0#32
    → (∀ (op : CacheOp), op ∈ ops → ¬ op.Writes b) → u.disk b = w.disk b ∨ u.disk b = w.content b

def SameBlocks (w w' : World) : Prop :=
  w'.cacheInfo = w.cacheInfo ∧ w'.cache = w.cache ∧ w'.disk = w.disk

-- the line `i` has been written back
def Flushed (w : World) (i : Fin cacheLen) (w' : World) : Prop :=
  w'.cacheInfo = Function.update w.cacheInfo i 0#32 ∧ w'.cache = w.cache
    ∧ w'.disk = Function.update w.disk (w.cacheInfo i) (w.cache i)

-- the line of `b` has been written back, and holds `line` for `b` now
def Refilled (w : World) (b : BlockNo) (line : Block) (w' : World) : Prop :=
  w'.cacheInfo = Function.update w.cacheInfo (cacheIndex b) b
    ∧ w'.cache = Function.update w.cache (cacheIndex b) line
    ∧ w'.disk = Function.update w.disk (w.cacheInfo (cacheIndex b)) (w.cache (cacheIndex b))

end World

variable {env : Env} {w w' u : World} {op : CacheOp} {b : BlockNo} {buf line : Block} {i : Fin cacheLen}

theorem flushChBlk_of_fails (hfail : env.fails w.log.length = true)
    : flushChBlk env i w = (false, w.emit (.writeBlock (w.cacheInfo i) false)) := by
  simp only [flushChBlk, writeBlock, hfail, ↓reduceIte]

theorem flushChBlk_of_not_fails (hfail : env.fails w.log.length = false)
    : flushChBlk env i w
        =
      (true, { w with
        disk := Function.update w.disk (w.cacheInfo i) (w.cache i)
        cacheInfo := Function.update w.cacheInfo i 0#32
        log := .writeBlock (w.cacheInfo i) true :: w.log }) := by
  simp only [flushChBlk, writeBlock, hfail, Bool.false_eq_true, ↓reduceIte]
  rfl

theorem flush_cases (env : Env) (i : Fin cacheLen) (w : World)
    : ∃ (u : World),
        ((CacheOp.flush i).run env w = (false, u) ∧ w.SameBlocks u)
        ∨ ((CacheOp.flush i).run env w = (true, u) ∧ w.Flushed i u) := by
  unfold CacheOp.run
  by_cases hflush : env.fails w.log.length = true
  . exact ⟨_, .inl ⟨flushChBlk_of_fails hflush, rfl, rfl, rfl⟩⟩
  . exact ⟨_, .inr ⟨flushChBlk_of_not_fails (by simpa using hflush), rfl, rfl, rfl⟩⟩

theorem read_cases (hc : env.cached = true) (b : BlockNo) (buf : Block) (w : World)
    : ∃ (u : World),
        ((CacheOp.read b buf).run env w = (true, u) ∧ w.SameBlocks u)
        ∨ ((CacheOp.read b buf).run env w = (true, u) ∧ w.Refilled b (w.disk b) u)
        ∨ ((CacheOp.read b buf).run env w = (false, u) ∧ env.fails (w.log.length + 1) = true ∧ w.SameBlocks u)
        ∨ ((CacheOp.read b buf).run env w = (false, u) ∧ env.fails (w.log.length + 1) = false
            ∧ w.cacheInfo (cacheIndex b) ≠ b ∧ w.Refilled b (env.junk (w.log.length + 2)) u) := by
  by_cases hhit : w.cacheInfo (cacheIndex b) = b
  . have hhit' : (w.lock .ch).cacheInfo (cacheIndex b) = b := hhit
    simp only [CacheOp.run, readChBlk, hc, ↓reduceIte, hhit', ne_eq, not_true_eq_false]
    exact ⟨_, .inl ⟨rfl, rfl, rfl, rfl⟩⟩
  . have hmiss : ¬ (w.lock .ch).cacheInfo (cacheIndex b) = b := hhit
    have hdisk := Function.update_of_ne (Ne.symm hhit) (w.cache (cacheIndex b)) w.disk
    by_cases hflush : env.fails (w.lock .ch).log.length = true
    . simp only [CacheOp.run, readChBlk, hc, ↓reduceIte, hmiss, ne_eq, not_false_eq_true, flushChBlk_of_fails hflush]
      exact ⟨_, .inr (.inr (.inl ⟨rfl, hflush, rfl, rfl, rfl⟩))⟩
    . have hflush' : env.fails (w.lock .ch).log.length = false := by simpa using hflush
      simp only [CacheOp.run, readChBlk, hc, ↓reduceIte, hmiss, ne_eq, not_false_eq_true,
        flushChBlk_of_not_fails hflush', readBlock, List.length_cons]
      by_cases hfill : env.fails ((w.lock .ch).log.length + 1) = true
      . simp only [hfill, ↓reduceIte]
        exact ⟨_, .inr (.inr (.inr ⟨rfl, hflush', hhit, Function.update_idem _ _ _, rfl, rfl⟩))⟩
      . simp only [hfill, Bool.false_eq_true, ↓reduceIte]
        refine ⟨_, .inr (.inl ⟨rfl, Function.update_idem _ _ _, ?_, rfl⟩)⟩
        rw [← hdisk]
        rfl

theorem write_cases (hc : env.cached = true) (b : BlockNo) (buf : Block) (w : World)
    : ∃ (u : World),
        ((CacheOp.write b buf).run env w = (false, u) ∧ w.SameBlocks u)
        ∨ ((CacheOp.write b buf).run env w = (true, u) ∧ w.cacheInfo (cacheIndex b) = b
            ∧ u.cacheInfo = w.cacheInfo ∧ u.cache = Function.update w.cache (cacheIndex b) buf ∧ u.disk = w.disk)
        ∨ ((CacheOp.write b buf).run env w = (true, u) ∧ w.Refilled b buf u) := by
  by_cases hhit : w.cacheInfo (cacheIndex b) = b
  . have hhit' : (w.lock .ch).cacheInfo (cacheIndex b) = b := hhit
    simp only [CacheOp.run, writeChBlk, hc, ↓reduceIte, hhit', ne_eq, not_true_eq_false]
    exact ⟨_, .inr (.inl ⟨rfl, hhit, rfl, rfl, rfl⟩)⟩
  . have hmiss : ¬ (w.lock .ch).cacheInfo (cacheIndex b) = b := hhit
    by_cases hflush : env.fails (w.lock .ch).log.length = true
    . simp only [CacheOp.run, writeChBlk, hc, ↓reduceIte, hmiss, ne_eq, not_false_eq_true, flushChBlk_of_fails hflush]
      exact ⟨_, .inl ⟨rfl, rfl, rfl, rfl⟩⟩
    . have hflush' : env.fails (w.lock .ch).log.length = false := by simpa using hflush
      simp only [CacheOp.run, writeChBlk, hc, ↓reduceIte, hmiss, ne_eq, not_false_eq_true,
        flushChBlk_of_not_fails hflush']
      exact ⟨_, .inr (.inr ⟨rfl, Function.update_idem _ _ _, rfl, rfl⟩)⟩

-- an operation that fails changes nothing, unless it is a read that has flushed the line
theorem failed_cases (hc : env.cached = true) (hfail : op.run env w = (false, w'))
    : (w.SameBlocks w' ∧ op.Clean env w)
      ∨ ∃ (b : BlockNo) (buf : Block), op = .read b buf ∧ env.fails (w.log.length + 1) = false
        ∧ w.cacheInfo (cacheIndex b) ≠ b ∧ w.Refilled b (env.junk (w.log.length + 2)) w' := by
  cases op with
  | flush i =>
    obtain ⟨u, ⟨hrun, hsame⟩ | ⟨hrun, -⟩⟩ := flush_cases env i w
    . rw [hfail] at hrun
      cases hrun
      exact .inl ⟨hsame, trivial⟩
    . rw [hfail] at hrun
      cases hrun
  | read b buf =>
    obtain ⟨u, ⟨hrun, -⟩ | ⟨hrun, -⟩ | ⟨hrun, hflush, hsame⟩ | ⟨hrun, hflush, hmiss, hrefilled⟩⟩ :=
      read_cases hc b buf w
    . rw [hfail] at hrun
      cases hrun
    . rw [hfail] at hrun
      cases hrun
    . rw [hfail] at hrun
      cases hrun
      exact .inl ⟨hsame, .inl hflush⟩
    . rw [hfail] at hrun
      cases hrun
      exact .inr ⟨b, buf, rfl, hflush, hmiss, hrefilled⟩
  | write b buf =>
    obtain ⟨u, ⟨hrun, hsame⟩ | ⟨hrun, -⟩ | ⟨hrun, -⟩⟩ := write_cases hc b buf w
    . rw [hfail] at hrun
      cases hrun
      exact .inl ⟨hsame, trivial⟩
    . rw [hfail] at hrun
      cases hrun
    . rw [hfail] at hrun
      cases hrun

namespace World

variable {k : BlockNo} {P : Block → Prop}

def Copies (w : World) (k : BlockNo) (P : Block → Prop) : Prop :=
  DirectMapped.Copies w.cacheInfo w.cache w.disk k P

theorem Copies.same (h : w.Copies k P) (hsame : w.SameBlocks w') : w'.Copies k P := by
  obtain ⟨hinfo, hcache, hdisk⟩ := hsame
  unfold Copies
  rw [hinfo, hcache, hdisk]
  exact h

theorem Copies.refilled (h : w.Copies k P) (hk : k ≠ 0#32) (hrefilled : w.Refilled b line w')
    (hline : b = k → P line)
    : w'.Copies k P := by
  obtain ⟨hinfo, hcache, hdisk⟩ := hrefilled
  have hstored := (DirectMapped.Copies.evict h (cacheIndex b) hk).store (cacheIndex b) b line hline
  rw [Function.update_idem] at hstored
  unfold Copies
  rw [hinfo, hcache, hdisk]
  exact hstored

end World

theorem failed_copies {k : BlockNo} {P : Block → Prop} (hk : k ≠ 0#32) (h : w.Copies k P) (hc : env.cached = true)
    (hfail : op.run env w = (false, w')) (hclean : op.Clean env w)
    : w'.Copies k P := by
  rcases failed_cases hc hfail with ⟨hsame, -⟩ | ⟨b, buf, rfl, hflush, -, hrefilled⟩
  . exact h.same hsame
  . apply h.refilled hk hrefilled
    rintro rfl
    rcases hclean with hfails | hjunk
    . rw [hflush] at hfails
      cases hfails
    . rw [hjunk]
      exact h.1

-- A cache operation moves the copies of a block about, and makes another one only if it writes the block.
theorem CacheStep.copies {k : BlockNo} {P : Block → Prop} (hk : k ≠ 0#32) (h : w.Copies k P)
    (hstep : CacheStep w op w') (hnot : ¬ op.Writes k)
    : w'.Copies k P := by
  obtain ⟨env, ok, hc, -, hrun, hclean⟩ := hstep
  cases ok with
  | false => exact failed_copies hk h hc hrun (hclean rfl)
  | true =>
    cases op with
    | flush i =>
      obtain ⟨u, ⟨heq, -⟩ | ⟨heq, hinfo, hcache, hdisk⟩⟩ := flush_cases env i w
      . rw [hrun] at heq
        cases heq
      . rw [hrun] at heq
        cases heq
        unfold World.Copies
        rw [hinfo, hcache, hdisk]
        exact DirectMapped.Copies.evict h i hk
    | read b buf =>
      obtain ⟨u, ⟨heq, hsame⟩ | ⟨heq, hrefilled⟩ | ⟨heq, -⟩ | ⟨heq, -⟩⟩ := read_cases hc b buf w
      . rw [hrun] at heq
        cases heq
        exact h.same hsame
      . rw [hrun] at heq
        cases heq
        apply h.refilled hk hrefilled
        rintro rfl
        exact h.1
      . rw [hrun] at heq
        cases heq
      . rw [hrun] at heq
        cases heq
    | write b buf =>
      obtain ⟨u, ⟨heq, -⟩ | ⟨heq, hhit, hinfo, hcache, hdisk⟩ | ⟨heq, hrefilled⟩⟩ := write_cases hc b buf w
      . rw [hrun] at heq
        cases heq
      . rw [hrun] at heq
        cases heq
        have hstored := DirectMapped.Copies.store h (cacheIndex b) b buf (fun hbk => absurd hbk hnot)
        rw [Function.update_eq_self_iff.mpr hhit.symm] at hstored
        unfold World.Copies
        rw [hinfo, hcache, hdisk]
        exact hstored
      . rw [hrun] at heq
        cases heq
        exact h.refilled hk hrefilled (fun hbk => absurd hbk hnot)

theorem run_copies {k : BlockNo} {P : Block → Prop} (hk : k ≠ 0#32) {ops : List CacheOp} (h : w.Copies k P)
    (hrun : Run CacheStep w ops u) (hnot : ∀ (op : CacheOp), op ∈ ops → ¬ op.Writes k)
    : u.Copies k P := by
  induction hrun with
  | nil => exact h
  | snoc hrun hstep ih =>
    have hkept := ih (fun op hop => hnot op (List.mem_append_left _ hop))
    exact hstep.copies hk hkept (hnot _ (by simp))

theorem World.Filed.copies (h : w.Filed) (k : BlockNo) (hk : k ≠ 0#32)
    : w.Copies k (fun blk => blk = w.disk k ∨ blk = w.content k) := by
  refine ⟨.inl rfl, ?_⟩
  intro i hi
  have hfiled := h i (by rw [hi]; exact hk)
  rw [hi] at hfiled
  exact hfiled

-- what the line has for a block that is not in the cache is what the disk has
theorem World.content_miss (h : w.cacheInfo (cacheIndex b) ≠ b) : w.content b = w.disk b := if_neg h

theorem World.content_hit (h : w.cacheInfo (cacheIndex b) = b) : w.content b = w.cache (cacheIndex b) := if_pos h

theorem World.Filed.content_refilled (h : w.Filed) (hmiss : w.cacheInfo (cacheIndex b) ≠ b)
    (hrefilled : w.Refilled b (w.disk b) w') (k : BlockNo) (hk : k ≠ 0#32)
    : w'.content k = w.content k := by
  obtain ⟨hinfo, hcache, hdisk⟩ := hrefilled
  -- what the disk has for `k` is what it had, or what the line had that was written back
  have hk_disk : w.cacheInfo (cacheIndex b) ≠ k → w'.disk k = w.disk k := by
    intro htag
    rw [hdisk, Function.update_of_ne (Ne.symm htag)]
  have hk_line : w.cacheInfo (cacheIndex b) = k → w'.disk k = w.cache (cacheIndex b) := by
    intro htag
    rw [hdisk, htag, Function.update_self]
  by_cases hi : cacheIndex k = cacheIndex b
  . have htag' : w'.cacheInfo (cacheIndex k) = b := by rw [hinfo, hi, Function.update_self]
    by_cases hkb : k = b
    . rw [hkb, content_miss hmiss, content_hit (by rw [← hkb, htag', hkb]), hcache, Function.update_self]
    . rw [content_miss (by rw [htag']; exact Ne.symm hkb)]
      by_cases htag : w.cacheInfo (cacheIndex b) = k
      . rw [hk_line htag, content_hit (by rw [hi, htag]), hi]
      . rw [hk_disk htag, content_miss (by rw [hi]; exact htag)]
  . have htag' : w'.cacheInfo (cacheIndex k) = w.cacheInfo (cacheIndex k) := by
      rw [hinfo, Function.update_of_ne hi]
    by_cases hhit : w.cacheInfo (cacheIndex k) = k
    . rw [content_hit hhit, content_hit (by rw [htag', hhit]), hcache, Function.update_of_ne hi]
    . rw [content_miss hhit, content_miss (by rw [htag']; exact hhit)]
      by_cases htag : w.cacheInfo (cacheIndex b) = k
      . have hfiled := h (cacheIndex b) (by rw [htag]; exact hk)
        rw [htag, content_miss hhit, or_self] at hfiled
        rw [hk_line htag, hfiled]
      . exact hk_disk htag

theorem World.content_same (h : w.SameBlocks w') (k : BlockNo) : w'.content k = w.content k := by
  obtain ⟨hinfo, hcache, hdisk⟩ := h
  unfold content
  rw [hinfo, hcache, hdisk]

theorem flush_step (w : World) (i : Fin cacheLen) : ∃ (u : World), CacheStep w (.flush i) u ∧ w.Flushed i u := by
  let env : Env := ⟨true, fun _ => false, fun _ => Buf.zero blockSize⟩
  have hfail : env.fails w.log.length = false := rfl
  exact ⟨_, ⟨env, true, rfl, trivial, flushChBlk_of_not_fails hfail, nofun⟩, rfl, rfl, rfl⟩

theorem World.Lossless.flushed (h : w.Lossless w') (i : Fin cacheLen) (hi : w'.cacheInfo i ≠ 0#32)
    : w'.cache i = w.disk (w'.cacheInfo i) ∨ w'.cache i = w.content (w'.cacheInfo i) := by
  obtain ⟨u, hstep, -, -, hdisk⟩ := flush_step w' i
  have hwritten : u.disk (w'.cacheInfo i) = w'.cache i := by rw [hdisk, Function.update_self]
  rw [← hwritten]
  apply h.later [.flush i] u (.snoc .nil hstep) _ hi
  intro op hop
  rw [List.mem_singleton.mp hop]
  exact not_false

theorem World.Lossless.filed (h : w.Lossless w') (hc : env.cached = true) (hfail : op.run env w = (false, w'))
    : w.Filed := by
  rcases failed_cases hc hfail with ⟨⟨hinfo, hcache, hdisk⟩, -⟩ | ⟨b, buf, -, -, -, hinfo, hcache, hdisk⟩
  . intro i hi
    have hflushed := h.flushed i (by rw [hinfo]; exact hi)
    rw [hinfo, hcache] at hflushed
    exact hflushed
  . intro i hi
    by_cases hib : i = cacheIndex b
    . -- this line has been written back already
      subst hib
      have hnow := h.later [] w' .nil _ hi nofun
      rw [hdisk, Function.update_self] at hnow
      exact hnow
    . have hflushed := h.flushed i (by rw [hinfo, Function.update_of_ne hib]; exact hi)
      rw [hinfo, hcache, Function.update_of_ne hib, Function.update_of_ne hib] at hflushed
      exact hflushed

theorem World.Lossless.clean (h : w.Lossless w') (hc : env.cached = true) (hdata : op.Data)
    (hfail : op.run env w = (false, w'))
    : op.Clean env w := by
  rcases failed_cases hc hfail with ⟨-, hclean⟩ | ⟨b, buf, rfl, -, hmiss, hinfo, hcache, -⟩
  . exact hclean
  . right
    have hcontent := h.content_eq b hdata
    rw [content_miss hmiss, content_hit (by rw [hinfo, Function.update_self]), hcache,
      Function.update_self] at hcontent
    exact hcontent

/--
An operation that fails loses nothing exactly when every line holds what its block does, and the block that was to
be read is not left with something else in its line.
-/
theorem failed_lossless_iff (hc : env.cached = true) (hdata : op.Data) (hfail : op.run env w = (false, w'))
    : w.Lossless w' ↔ w.Filed ∧ op.Clean env w := by
  constructor
  . intro h
    exact ⟨h.filed hc hfail, h.clean hc hdata hfail⟩
  . rintro ⟨hfiled, hclean⟩
    have hcontent : ∀ (k : BlockNo), k ≠ 0#32 → w'.content k = w.content k := by
      intro k hk
      rcases failed_cases hc hfail with ⟨hsame, -⟩ | ⟨b, buf, rfl, hflush, hmiss, hrefilled⟩
      . exact World.content_same hsame k
      . rcases hclean with hfails | hjunk
        . rw [hflush] at hfails
          cases hfails
        . rw [hjunk] at hrefilled
          exact hfiled.content_refilled hmiss hrefilled k hk
    refine ⟨hcontent, ?_⟩
    intro ops u hrun k hk hnot
    have hcopies := failed_copies hk (hfiled.copies k hk) hc hfail hclean
    exact (run_copies hk hcopies hrun hnot).1

-- a disk whose transfers fail from the one after `n` events on, and an unreadable block comes back as ones
def broken (n : Nat) : Env where
  cached := true
  fails := fun k => decide (n ≤ k)
  junk := fun _ _ => 1#8

theorem filed_blank : (World.ofDisk blankDisk).Filed := by
  intro i hi
  exact absurd rfl hi

theorem data_read : (CacheOp.read 30000 (Buf.zero blockSize)).Data := by
  show (30000 : BlockNo) ≠ 0#32
  decide

theorem run_broken (n : Nat) (hn : n = 1 ∨ n = 2)
    : ∃ (w' : World),
        (CacheOp.read 30000 (Buf.zero blockSize)).run (broken n) (World.ofDisk blankDisk) = (false, w') := by
  rcases hn with rfl | rfl
  . exact ⟨_, rfl⟩
  . exact ⟨_, rfl⟩

theorem failed_lossless_iff_broken
    : ∃ (w' : World),
        (CacheOp.read 30000 (Buf.zero blockSize)).run (broken 1) (World.ofDisk blankDisk) = (false, w')
        ∧ (World.ofDisk blankDisk).Lossless w' := by
  obtain ⟨w', hfail⟩ := run_broken 1 (.inl rfl)
  exact ⟨w', hfail, (failed_lossless_iff rfl data_read hfail).mpr ⟨filed_blank, .inl rfl⟩⟩

-- The flush succeeds and the read fails: the line has ones for a block of zeros.
theorem not_lossless_broken
    : ∃ (w' : World),
        (CacheOp.read 30000 (Buf.zero blockSize)).run (broken 2) (World.ofDisk blankDisk) = (false, w')
        ∧ ¬ (World.ofDisk blankDisk).Lossless w' := by
  obtain ⟨w', hfail⟩ := run_broken 2 (.inr rfl)
  refine ⟨w', hfail, ?_⟩
  intro h
  rcases h.clean rfl data_read hfail with hflush | hjunk
  . cases hflush
  . have hbyte := congrFun hjunk 0
    revert hbyte
    decide

end ObjStore
