import CS330.ObjStore.Visits

/-!
This module contains the block allocator after a mount, used by one caller: which bits `objstore_init` leaves in the
block bitmap, and what `alloc_block` and `free_block` make of them in any order of calls.
-/

namespace ObjStore

-- Bit `m` of the bitmap as it is on the disk: 4096 bytes a block, 8 bits a byte.
def diskBit (disk : BlockNo → Block) (m : Nat) : Bool :=
  ((disk (BitVec.ofNat 32 (m / 32768))).get (m / 8 % 4096)).getLsbD (m % 8)

-- what `alloc_block` returns when no block is free
abbrev noBlock : BlockNo := 0xFFFFFFFF#32

namespace Allocator

inductive Call where
  | alloc
  | free (b : BlockNo)

/-- The store, and what `alloc_block` has returned since the mount. -/
structure State where
  world : World
  given : List BlockNo

inductive Step : State → Call → State → Prop where
  | alloc {s : State} {b : BlockNo} {w' : World} (hcall : allocBlock s.world = (b, w'))
      : Step s .alloc ⟨w', b :: s.given⟩
  | free {s : State} {b : BlockNo} {w' : World} (hgiven : b ∈ s.given) (hblock : b ≠ noBlock)
      (hcall : freeBlock b s.world = .ok w')
      : Step s (.free b) ⟨w', s.given⟩

/-- Block `b` is the first free one behind the reserved blocks, and is marked as used. -/
structure Takes (w : World) (b : BlockNo) (w' : World) : Prop where
  unreserved : resBlocks ≤ b.toNat
  inside : b.toNat < 64 * blkBmpLn
  clear : w.blkBmp.bit b.toNat = false
  first : ∀ (m : Nat), resBlocks ≤ m → m < b.toNat → w.blkBmp.bit m = true
  bit_eq : ∀ (m : Nat), w'.blkBmp.bit m = (decide (m = b.toNat) || w.blkBmp.bit m)

structure Refuses (w : World) (b : BlockNo) (w' : World) : Prop where
  full : ∀ (m : Nat), resBlocks ≤ m → m < 64 * blkBmpLn → w.blkBmp.bit m = true
  eq_noBlock : b = noBlock
  blkBmp_eq : w'.blkBmp = w.blkBmp

/-- What the calls that may come next do. -/
structure Serves (s : State) : Prop where
  alloc : ∃ (b : BlockNo) (w' : World), allocBlock s.world = (b, w') ∧ (Takes s.world b w' ∨ Refuses s.world b w')
  free : ∀ (b : BlockNo), b ∈ s.given → b ≠ noBlock → ∃ (w' : World), freeBlock b s.world = .ok w'
    ∧ ∀ (m : Nat), w'.blkBmp.bit m = (!decide (m = b.toNat) && s.world.blkBmp.bit m)
  unreserved : ∀ (b : BlockNo), b ∈ s.given → resBlocks ≤ b.toNat

structure Inv (s : State) : Prop where
  reserved : ∀ (m : Nat), m < resBlocks → s.world.blkBmp.bit m = true
  unreserved : ∀ (b : BlockNo), b ∈ s.given → resBlocks ≤ b.toNat
  inside : ∀ (b : BlockNo), b ∈ s.given → b ≠ noBlock → b.toNat < 64 * blkBmpLn

variable {s s' : State} {w : World}

-- The scan starts with a word that is reserved as a whole; reserved bits are passed over because they are set.
theorem alloc_spec (hreserved : ∀ (m : Nat), m < resBlocks → w.blkBmp.bit m = true)
    : ∃ (b : BlockNo) (w' : World), allocBlock w = (b, w') ∧ (Takes w b w' ∨ Refuses w b w') := by
  have hstart : 64 * (resBlocks / 64 - 1) ≤ resBlocks := by decide
  rcases allocBlock_cases w with ⟨b, log, -, hlt, hclear, hfirst, halloc, -⟩ | ⟨log, hfull, halloc, -⟩
  . have hge : resBlocks ≤ b.toNat := by
      by_contra hlow
      rw [hreserved b.toNat (by omega)] at hclear
      cases hclear
    refine ⟨b, _, halloc, .inl ⟨hge, hlt, hclear, ?_, ?_⟩⟩
    . intro m hm hmb
      exact hfirst m (by omega) hmb
    . intro m
      exact Bitmap.bit_set _ _ hlt m
  . refine ⟨noBlock, _, halloc, .inr ⟨?_, rfl, rfl⟩⟩
    intro m hm hlt
    exact hfull m (by omega) hlt

theorem free_spec {b : BlockNo} (hb : b.toNat < 64 * blkBmpLn)
    : ∃ (w' : World), freeBlock b w = .ok w'
        ∧ ∀ (m : Nat), w'.blkBmp.bit m = (!decide (m = b.toNat) && w.blkBmp.bit m) :=
  ⟨_, freeBlock_eq b hb, fun m => Bitmap.bit_clear _ _ m⟩

theorem Inv.serves (h : Inv s) : Serves s where
  alloc := alloc_spec h.reserved
  free := fun b hgiven hblock => free_spec (h.inside b hgiven hblock)
  unreserved := h.unreserved

theorem Inv.step {c : Call} (h : Inv s) (hstep : Step s c s') : Inv s' := by
  cases hstep with
  | @alloc b w' hcall =>
    obtain ⟨b', w'', halloc, hcases⟩ := alloc_spec h.reserved
    rw [hcall] at halloc
    cases halloc
    rcases hcases with htakes | hrefuses
    . refine ⟨?_, List.forall_mem_cons.mpr ⟨htakes.unreserved, h.unreserved⟩,
        List.forall_mem_cons.mpr ⟨fun _ => htakes.inside, h.inside⟩⟩
      intro m hm
      rw [htakes.bit_eq, h.reserved m hm, Bool.or_true]
    . have hb := hrefuses.eq_noBlock
      subst hb
      refine ⟨?_, List.forall_mem_cons.mpr ⟨by decide, h.unreserved⟩,
        List.forall_mem_cons.mpr ⟨fun hne => absurd rfl hne, h.inside⟩⟩
      intro m hm
      rw [hrefuses.blkBmp_eq, h.reserved m hm]
  | @free b w' hgiven hblock hcall =>
    obtain ⟨w'', hfree, hbit⟩ := free_spec (w := s.world) (h.inside b hgiven hblock)
    rw [hcall] at hfree
    cases hfree
    refine ⟨?_, h.unreserved, h.inside⟩
    intro m hm
    have hge := h.unreserved b hgiven
    rw [hbit, h.reserved m hm, Bool.and_true, Bool.not_eq_true', decide_eq_false_iff_not]
    omega

theorem bit_decodeBmp (disk : BlockNo → Block) (m : Nat) (hm : m < 64 * blkBmpLn)
    : (decodeBmp (fun i => disk (bmpBlockNo i))).bit m = diskBit disk m := by
  have hword : m / 64 < blkBmpLn := by omega
  have hblock : m / 64 / 512 = m / 32768 := by omega
  have hbyte : 8 * (m / 64 % 512) + m % 64 / 8 = m / 8 % 4096 := by omega
  have hbit : m % 64 % 8 = m % 8 := by omega
  unfold Bitmap.bit
  rw [dif_pos hword]
  simp only [decodeBmp, Buf.word, bmpBlockNo, bmpBlock, hblock]
  rw [LE.getLsbD_word _ _ _ (Nat.mod_lt _ (by decide))]
  have hlt : m % 64 < 8 * 8 := Nat.mod_lt _ (by decide)
  simp only [hbyte, hbit, diskBit, hlt, decide_true, Bool.true_and]

/--
After a mount of any disk the reserved blocks are marked as used and the other bits are those of the disk; in every run
of the allocator from there on an allocation is first fit behind the reserved blocks and a release clears its bit.
-/
theorem run_serves {env : Env} {w w₀ : World} (hinit : objstoreInit env w = .ok (0, w₀))
    : (∀ (m : Nat), m < 64 * blkBmpLn
        → w₀.blkBmp.bit m = (decide (m < resBlocks) || diskBit w.disk m))
      ∧ ∀ (calls : List Call) (s : State), Run Step ⟨w₀, []⟩ calls s → Serves s := by
  have hmounted := objstoreInit_mounted hinit
  have hbits : ∀ (m : Nat), w₀.blkBmp.bit m
      = (decide (m < resBlocks) || (decodeBmp (fun i => w.disk (bmpBlockNo i))).bit m) := by
    intro m
    rw [hmounted.blkBmp_eq, diskBmp, bit_markReserved]
  have hstart : Inv ⟨w₀, []⟩ := by
    refine ⟨?_, fun b hb => absurd hb List.not_mem_nil, fun b hb => absurd hb List.not_mem_nil⟩
    intro m hm
    rw [hbits, decide_eq_true hm, Bool.true_or]
  constructor
  . intro m hm
    rw [hbits, bit_decodeBmp w.disk m hm]
  . intro calls s hrun
    exact (Run.inv hstart (fun t c u ht hstep => ht.step hstep) hrun).serves

theorem run_serves_blank
    : ∃ (w₀ : World) (s : State), objstoreInit (steady true) (World.ofDisk blankDisk) = .ok (0, w₀)
        ∧ Run Step ⟨w₀, []⟩ ([] ++ [.alloc] ++ [.free 20256#32]) s ∧ Serves s := by
  obtain ⟨w₀, hinit, -⟩ := objstoreInit_spec (steady_reliable true) (World.ofDisk blankDisk)
  obtain ⟨hbits, hserves⟩ := run_serves hinit
  have hclear : w₀.blkBmp.bit resBlocks = false := by
    rw [hbits resBlocks (by decide)]
    simp [diskBit, World.ofDisk, blankDisk]
  obtain ⟨b, w₁, halloc, htakes | hrefuses⟩ := (hserves [] _ .nil).alloc
  . have hb : b = 20256#32 := by
      apply BitVec.eq_of_toNat_eq
      by_contra hne
      have hge := htakes.unreserved
      have hset := htakes.first resBlocks le_rfl (Nat.lt_of_le_of_ne hge (Ne.symm hne))
      rw [hclear] at hset
      cases hset
    subst hb
    have hrun₁ : Run Step ⟨w₀, []⟩ ([] ++ [.alloc]) ⟨w₁, [20256#32]⟩ := .snoc .nil (.alloc halloc)
    obtain ⟨w₂, hfree, -⟩ := (hserves _ _ hrun₁).free 20256#32 List.mem_cons_self (by decide)
    have hrun₂ := hrun₁.snoc (.free List.mem_cons_self (by decide) hfree)
    exact ⟨w₀, _, hinit, hrun₂, hserves _ _ hrun₂⟩
  . have hset := hrefuses.full resBlocks le_rfl (by decide)
    rw [hclear] at hset
    cases hset

end Allocator

end ObjStore
