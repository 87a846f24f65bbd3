import CS330.ObjStore.Ownership
import CS330.ObjStore.Lemmas.Frame

/-!
This module contains the runs of a store in which any block transfer and any page allocation may fail and the
callers may pass what they like.
-/

namespace ObjStore

/--
The worlds that calls lead to after a mount, all of which have returned, whatever failed in them. `P` says which calls
are made.
-/
def Visits (env : Env) (P : World → Op → World → Prop) (disk : BlockNo → Block) (w : World) : Prop :=
  ∃ (w₀ : World) (calls : List (Op × Reply)), objstoreInit env (World.ofDisk disk) = .ok (0, w₀)
    ∧ Run (fun u c u' => P u c.1 u' ∧ c.1.exec env u = .ok (c.2, u')) w₀ calls w

def anyCall : World → Op → World → Prop :=
  fun _ _ _ => True

variable {env env' : Env} {w w' : World} {disk : BlockNo → Block} {n : Nat} {P : World → Op → World → Prop}

-- nothing fails before there are `n` events
def Env.Calm (env : Env) (n : Nat) : Prop :=
  ∀ (m : Nat), m < n → env.fails m = false

theorem Env.Calm.mono {m : Nat} (h : env.Calm n) (hle : m ≤ n) : env.Calm m :=
  fun k hk => h k (Nat.lt_of_lt_of_le hk hle)

theorem Env.Reliable.calm (hr : env.Reliable) (n : Nat) : env.Calm n :=
  fun m _ => hr m

theorem readBlock_grows (env : Env) (b : BlockNo) (w : World) : w.log.length ≤ (readBlock env b w).2.2.log.length := by
  unfold readBlock
  split
  . exact Nat.le_succ _
  . exact Nat.le_succ _

/-! What succeeds does so in every environment where nothing fails. -/

theorem cmalloc_calm {page : Block} (h : cmalloc env w = (some page, w')) (hcalm : env'.Calm w'.log.length)
    : cmalloc env' w = (some page, w') := by
  unfold cmalloc at h ⊢
  split at h
  . cases h
  . cases h
    rw [hcalm w.log.length (by simp [World.emit])]
    rfl

theorem readBlock_calm {b : BlockNo} {buf : Block} (h : readBlock env b w = (true, buf, w'))
    (hcalm : env'.Calm w'.log.length)
    : readBlock env' b w = (true, buf, w') := by
  unfold readBlock at h ⊢
  split at h
  . cases h
  . cases h
    rw [hcalm w.log.length (by simp [World.emit])]
    rfl

theorem writeBlock_calm {b : BlockNo} {buf : Block} (h : writeBlock env b buf w = (true, w'))
    (hcalm : env'.Calm w'.log.length)
    : writeBlock env' b buf w = (true, w') := by
  unfold writeBlock at h ⊢
  split at h
  . cases h
  . cases h
    rw [hcalm w.log.length (by simp [World.emit])]
    rfl

theorem flushChBlk_calm {i : Fin cacheLen} (h : flushChBlk env i w = (true, w'))
    (hcalm : env'.Calm w'.log.length)
    : flushChBlk env' i w = (true, w') := by
  unfold flushChBlk at h ⊢
  generalize heq : writeBlock env (w.cacheInfo i) (w.cache i) w = res at h
  obtain ⟨ok, u⟩ := res
  cases ok with
  | false => cases h
  | true =>
    cases h
    rw [writeBlock_calm heq hcalm]

theorem readChBlk_calm {b : BlockNo} {buf blk : Block} (h : readChBlk env b buf w = (true, blk, w'))
    (hc : env'.cached = env.cached) (hcalm : env'.Calm w'.log.length)
    : readChBlk env' b buf w = (true, blk, w') := by
  unfold readChBlk at h ⊢
  rw [hc]
  split at h
  . next hcached =>
    rw [if_pos hcached]
    simp only at h ⊢
    split at h
    . next hmiss =>
      rw [if_pos hmiss]
      generalize hflush : flushChBlk env (cacheIndex b) (w.lock .ch) = res at h
      obtain ⟨ok, u⟩ := res
      cases ok with
      | false => cases h
      | true =>
        simp only at h ⊢
        generalize hread : readBlock env b _ = res at h
        obtain ⟨ok, line, v⟩ := res
        cases ok with
        | false => cases h
        | true =>
          cases h
          have hlog := readBlock_grows env b
            { u with cacheInfo := Function.update u.cacheInfo (cacheIndex b) b }
          rw [hread] at hlog
          have hread' := readBlock_calm hread (hcalm.mono (Nat.le_succ v.log.length))
          have hflush' := flushChBlk_calm hflush (hcalm.mono (Nat.le_succ_of_le hlog))
          simp only [hflush', hread']
    . next hhit =>
      rw [if_neg hhit]
      exact h
  . next hcached =>
    rw [if_neg hcached]
    exact readBlock_calm h hcalm

namespace objstoreInit

theorem bitmap_calm {i : Fin blkBmpBlocks} {s t : (Fin blkBmpBlocks → Block) × World}
    (h : bitmap env i s = .ok (.next t)) (hcalm : env'.Calm t.2.log.length)
    : bitmap env' i s = .ok (.next t) := by
  obtain ⟨bufs, w⟩ := s
  unfold bitmap at h ⊢
  simp only at h ⊢
  generalize hread : readBlock env (bmpBlockNo i) w = res at h
  obtain ⟨ok, buf, u⟩ := res
  cases ok with
  | false => cases h
  | true =>
    cases h
    rw [readBlock_calm hread hcalm]
    rfl

theorem objects_calm {i : Fin objBlocks} {s t : World} (h : objects env i s = .ok (.next t))
    (hcalm : env'.Calm t.log.length)
    : objects env' i s = .ok (.next t) := by
  unfold objects at h ⊢
  generalize hread : readBlock env (objBlockNo i) s = res at h
  obtain ⟨ok, buf, u⟩ := res
  cases ok with
  | false => cases h
  | true =>
    cases h
    rw [readBlock_calm hread hcalm]
    rfl

theorem bitmap_exits (i : Fin blkBmpBlocks) (s : (Fin blkBmpBlocks → Block) × World)
    : Loop.Exits (fun _ => True) (fun r _ => r = -1) (bitmap env i s) := by
  obtain ⟨bufs, w⟩ := s
  unfold bitmap
  simp only
  generalize readBlock env (bmpBlockNo i) w = res
  obtain ⟨ok, buf, u⟩ := res
  cases ok with
  | false => exact rfl
  | true => trivial

theorem bitmaps_exits (env : Env) (s : (Fin blkBmpBlocks → Block) × World)
    : Loop.Exits (fun _ => True) (fun r _ => r = -1) (Loop.run (bitmap env) (Loop.range blkBmpBlocks) s) :=
  Loop.run_exits (fun i s _ => bitmap_exits i s) _ s trivial

theorem objects_exits (i : Fin objBlocks) (s : World)
    : Loop.Exits (fun _ => True) (fun r _ => r = -1) (objects env i s) := by
  unfold objects
  generalize readBlock env (objBlockNo i) s = res
  obtain ⟨ok, buf, u⟩ := res
  cases ok with
  | false => exact rfl
  | true => trivial

theorem allObjects_exits (env : Env) (s : World)
    : Loop.Exits (fun _ => True) (fun r _ => r = -1) (Loop.run (objects env) (Loop.range objBlocks) s) :=
  Loop.run_exits (fun i s _ => objects_exits i s) _ s trivial

end objstoreInit

-- a mount that returns 0 has read both tables
theorem objstoreInit_mounted (h : objstoreInit env w = .ok (0, w')) : w.Mounted w' := by
  have hr := steady_reliable env.cached
  obtain ⟨u, heq, hmounted⟩ := objstoreInit_spec hr w
  have hsame : objstoreInit (steady env.cached) w = .ok (0, w') := by
    unfold objstoreInit at h ⊢
    generalize hpage : cmalloc env w = res at h
    obtain ⟨page, w₁⟩ := res
    cases page with
    | none => cases h
    | some page =>
      rw [cmalloc_calm hpage (hr.calm _)]
      simp only at h ⊢
      generalize hzero : cmalloc env _ = res at h
      obtain ⟨zero, w₂⟩ := res
      cases zero with
      | none => cases h
      | some zero =>
        rw [cmalloc_calm hzero (hr.calm _)]
        obtain ⟨flow, hrun₁, h⟩ := Loop.bind_eq_ok.mp h
        have hexit₁ := objstoreInit.bitmaps_exits env (fun _ => zero, w₂)
        rw [hrun₁] at hexit₁
        cases flow with
        | stop s => exact hexit₁.elim
        | ret r s =>
          cases h
          cases hexit₁
        | next s =>
          have hrun₁' := Loop.run_next_congr (fun i s t hi => objstoreInit.bitmap_calm hi (hr.calm _))
            (fun i s t => (objstoreInit.bitmap_exits i s).ne_stop t) _ _ _ hrun₁
          refine Loop.bind_eq_ok.mpr ⟨_, hrun₁', ?_⟩
          obtain ⟨flow, hrun₂, h⟩ := Loop.bind_eq_ok.mp h
          have hexit₂ := objstoreInit.allObjects_exits env { s.2 with blkBmp := markReserved (decodeBmp s.1) }
          rw [hrun₂] at hexit₂
          cases flow with
          | stop u => exact hexit₂.elim
          | ret r u =>
            cases h
            cases hexit₂
          | next u =>
            have hrun₂' := Loop.run_next_congr (fun i s t hi => objstoreInit.objects_calm hi (hr.calm _))
              (fun i s t => (objstoreInit.objects_exits i s).ne_stop t) _ _ _ hrun₂
            exact Loop.bind_eq_ok.mpr ⟨_, hrun₂', h⟩
  rw [hsame] at heq
  cases heq
  exact hmounted

theorem Visits.mounted (h : objstoreInit env (World.ofDisk disk) = .ok (0, w)) : Visits env P disk w :=
  ⟨w, [], h, .nil⟩

theorem Visits.inv {I : World → Prop} (hinit : ∀ (w₀ : World), (World.ofDisk disk).Mounted w₀ → I w₀)
    (hkeep : ∀ (u : World) (op : Op) (reply : Reply) (u' : World), I u → P u op u'
      → op.exec env u = .ok (reply, u') → I u')
    (h : Visits env P disk w)
    : I w := by
  obtain ⟨w₀, calls, hmount, hrun⟩ := h
  exact Run.inv (hinit w₀ (objstoreInit_mounted hmount))
    (fun u c u' hu hstep => hkeep u c.1 c.2 u' hu hstep.1 hstep.2) hrun

/-! Whatever fails, the cache stays well tagged. -/

theorem cmalloc_tagged (h : w.Tagged) : (cmalloc env w).2.Tagged := by
  unfold cmalloc
  split
  . exact h
  . exact h

theorem readBlock_tagged {b : BlockNo} (h : w.Tagged) : (readBlock env b w).2.2.Tagged := by
  unfold readBlock
  split
  . exact h
  . exact h

theorem writeBlock_tagged {b : BlockNo} {buf : Block} (h : w.Tagged) : (writeBlock env b buf w).2.Tagged := by
  unfold writeBlock
  split
  . exact h
  . exact h

theorem flushChBlk_tagged {i : Fin cacheLen} (h : w.Tagged) : (flushChBlk env i w).2.Tagged := by
  have hwrite : (writeBlock env (w.cacheInfo i) (w.cache i) w).2.Tagged := writeBlock_tagged h
  unfold flushChBlk
  generalize writeBlock env (w.cacheInfo i) (w.cache i) w = res at hwrite ⊢
  obtain ⟨ok, u⟩ := res
  cases ok with
  | false => exact hwrite
  | true => exact DirectMapped.Tagged.set hwrite i 0#32 (fun hne => absurd rfl hne)

theorem readChBlk_tagged {b : BlockNo} {buf : Block} (h : w.Tagged) : (readChBlk env b buf w).2.2.Tagged := by
  unfold readChBlk
  split
  . simp only
    split
    . have hflush : (flushChBlk env (cacheIndex b) (w.lock .ch)).2.Tagged := flushChBlk_tagged h
      generalize flushChBlk env (cacheIndex b) (w.lock .ch) = res at hflush ⊢
      obtain ⟨ok, u⟩ := res
      cases ok with
      | false => exact hflush
      | true =>
        have hset : World.Tagged { u with cacheInfo := Function.update u.cacheInfo (cacheIndex b) b } :=
          DirectMapped.Tagged.set hflush (cacheIndex b) b (fun _ => rfl)
        have hread : (readBlock env b _).2.2.Tagged := readBlock_tagged hset
        simp only
        generalize readBlock env b _ = res at hread ⊢
        obtain ⟨ok, line, v⟩ := res
        cases ok with
        | false => exact hread
        | true => exact hread
    . exact h
  . exact readBlock_tagged h

theorem readChBlkNull_tagged {b : BlockNo} (hread : readChBlkNull env b w = .ok w') (h : w.Tagged) : w'.Tagged := by
  rcases readChBlkNull_cases hread with ⟨-, buf, heq⟩ | ⟨-, rfl⟩
  . have hline : (readChBlk env b (Buf.zero blockSize) w).2.2.Tagged := readChBlk_tagged h
    rw [heq] at hline
    exact hline
  . exact h

theorem writeChBlk_tagged {b : BlockNo} {buf : Block} (h : w.Tagged) : (writeChBlk env b buf w).2.Tagged := by
  unfold writeChBlk
  split
  . simp only
    split
    . have hflush : (flushChBlk env (cacheIndex b) (w.lock .ch)).2.Tagged := flushChBlk_tagged h
      generalize flushChBlk env (cacheIndex b) (w.lock .ch) = res at hflush ⊢
      obtain ⟨ok, u⟩ := res
      cases ok with
      | false => exact hflush
      | true => exact DirectMapped.Tagged.set hflush (cacheIndex b) b (fun _ => rfl)
    . exact h
  . exact writeBlock_tagged h

theorem allocBlock_tagged (h : w.Tagged) : (allocBlock w).2.Tagged := by
  cases allocBlock_cases w with
  | inl hsome =>
    obtain ⟨b, log, -, -, -, -, heq, -⟩ := hsome
    rw [heq]
    exact h
  | inr hnone =>
    obtain ⟨log, -, heq, -⟩ := hnone
    rw [heq]
    exact h

theorem freeBlock_tagged {b : BlockNo} (hfree : freeBlock b w = .ok w') (h : w.Tagged) : w'.Tagged := by
  unfold freeBlock at hfree
  split at hfree
  . cases hfree
    exact h
  . cases hfree

theorem freePointerBlock_tagged {b : BlockNo} {r : Int} (hfree : freePointerBlock env b w = .ok (r, w'))
    (h : w.Tagged)
    : w'.Tagged :=
  freePointerBlock_inv (fun _ hu => cmalloc_tagged hu) (fun _ _ hu => readChBlk_tagged hu)
    (fun _ _ _ hu heq => freeBlock_tagged heq hu) hfree h

theorem createObject_tagged {key : CStr} {r : Int} (hok : createObject key w = .ok (r, w')) (h : w.Tagged)
    : w'.Tagged := by
  rcases createObject_ends hok with rfl | ⟨o, objects, rfl⟩
  . exact h
  . exact h

theorem renameObject_tagged {key newname : CStr} (h : w.Tagged) : (renameObject key newname w).2.Tagged := by
  rcases renameObject_ends key newname w with heq | ⟨o, heq⟩
  . rw [heq]
    exact h
  . rw [heq]
    exact h

theorem destroyObject_tagged {key : CStr} {r : Int} (hok : destroyObject env key w = .ok (r, w')) (h : w.Tagged)
    : w'.Tagged := by
  rcases destroyObject_finish hok with ⟨-, rfl⟩ | ⟨o, -, hsize, hok⟩
  . exact h
  . have hcases := destroyObject.finish_inv (I := World.Tagged) ?_ ?_ hok hsize h
    . rcases hcases with hw | ⟨u, hu, -, rfl⟩
      . exact hw
      . exact hu
    . intro i u hu
      unfold destroyObject.direct
      split
      . cases heq : freeBlock ((u.objects o).direct i) u with
        | error e => trivial
        | ok u' =>
          have htag := freeBlock_tagged heq hu
          exact htag
      . exact hu
    . intro i u hu
      unfold destroyObject.indirect
      split
      . cases heq : freePointerBlock env ((u.objects o).indirect i) u with
        | error e => trivial
        | ok res =>
          have htag := freePointerBlock_tagged heq hu
          simp only [bind, Except.bind]
          split
          . exact htag
          . exact htag
      . exact hu

theorem objstoreWrite_tagged {objid : Int} {buf : Mem} {size offset : Nat} {r : Int}
    (hok : objstoreWrite env objid buf size offset w = .ok (r, w')) (h : w.Tagged)
    : w'.Tagged := by
  rcases objstoreWrite_slot hok with ⟨-, rfl, -⟩ | ⟨o, rfl, -⟩
  . exact h
  . have hcases := objstoreWrite_inv (I := World.Tagged) (fun _ hu => cmalloc_tagged hu)
      (fun _ _ _ hu => readChBlk_tagged hu) (fun _ _ _ hread hu => readChBlkNull_tagged hread hu)
      (fun _ _ _ hu => writeChBlk_tagged hu) (fun _ hu => allocBlock_tagged hu) (fun _ _ _ hu => hu) hok h
    rcases hcases with ⟨-, hw⟩ | ⟨u, hu, -, -, rfl⟩
    . exact hw
    . exact hu

theorem Op.exec_tagged {op : Op} {reply : Reply} (hok : op.exec env w = .ok (reply, w')) (h : w.Tagged)
    : w'.Tagged := by
  cases op with
  | create key => exact createObject_tagged (create_of_exec hok) h
  | find key =>
    cases hok
    exact h
  | rename key newname =>
    cases hok
    exact renameObject_tagged h
  | destroy key => exact destroyObject_tagged (destroy_of_exec hok) h
  | write objid buf size offset => exact objstoreWrite_tagged (write_of_exec hok) h
  | read objid buf size offset =>
    obtain ⟨buf', -, hread⟩ := read_of_exec hok
    exact objstoreRead_inv (fun _ hu => hu) (fun _ hu => hu) (fun _ hu => cmalloc_tagged hu)
      (fun _ _ _ hu => readChBlk_tagged hu) (fun _ _ _ heq hu => readChBlkNull_tagged heq hu) hread h

theorem Visits.tagged (h : Visits env P disk w) : w.Tagged :=
  h.inv (fun _ hmounted => hmounted.tagged) (fun _ _ _ _ hu _ hexec => Op.exec_tagged hexec hu)

end ObjStore
