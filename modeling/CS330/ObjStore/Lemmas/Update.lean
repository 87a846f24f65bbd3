import CS330.ObjStore.Impl.Transfer
import CS330.ObjStore.Lemmas.View

/-!
This module contains the correctness of `update_block`, the nested function of `objstore_write` that
moves one chunk of the user's buffer into one block.
-/

namespace ObjStore

variable {env : Env} {w : World}

namespace Slot

theorem id_ge (o : Slot) : ¬ o.id < 2 := by
  unfold id
  omega

theorem toNat_id (o : Slot) : (o.id - 2).toNat = o := by
  unfold id
  omega

theorem id_lt (o : Slot) : (o.id - 2).toNat < maxObjs := by
  rw [toNat_id]
  exact o.isLt

theorem of_id (o : Slot) : (⟨(o.id - 2).toNat, o.id_lt⟩ : Slot) = o :=
  Fin.ext o.toNat_id

end Slot

theorem curSize_eq (r : Nat) : curSize r = min r 4096 := by
  unfold curSize
  simp only [blockSize]
  split <;> omega

-- What `temp` holds when it is written: the chunk at `shift`, around it what the block had, or what `temp`
-- was left with when there is no shift.
def chunk (buf : Mem) (size : Nat) (x : Xfer) (old temp : Block) : Block :=
  (if 0 < x.shift then old else temp).copy x.shift (fun i => buf (size - x.remaining + i))
    (curSize x.remaining)

def Xfer.advance (x : Xfer) (temp : Block) : Xfer :=
  { x with remaining := x.remaining - curSize x.remaining, shift := 0, temp := some temp }

/--
How a call of `update_block` that found `p` in its place leaves the world: `q` is in the place now and
holds the chunk `c`.
-/
inductive Updated (v : View) (p q : BlockNo) (c : Block) (v' : View) : Prop where
  | old (hp : p ≠ 0#32) (hq : q = p) (hv : v' = v.setData p c)
  | new (hp : p = 0#32) (hfree : ¬ v.Used q) (hlt : q.toNat < 64 * blkBmpLn)
      (hv : v' = (v.mark q).setData q c)

theorem Updated.not_reserved {v v' : View} {p q : BlockNo} {c : Block} (h : Updated v p q c v')
    (hres : ∀ (b : BlockNo), View.Reserved b → v.Used b) (hp : p ≠ 0#32 → ¬ View.Reserved p)
    : resBlocks ≤ q.toNat := by
  apply Nat.le_of_not_lt
  cases h with
  | old hp' hq _ =>
    rw [hq]
    exact hp hp'
  | new _ hfree _ _ => exact fun hq => hfree (hres q hq)

theorem readChBlkNull_cases {w' : World} {b : BlockNo} (h : readChBlkNull env b w = .ok w')
    : (env.cached = true ∧ ∃ (buf : Block), readChBlk env b (Buf.zero blockSize) w = (false, buf, w'))
      ∨ (env.cached = false ∧ w' = w.emit (.readBlock b false)) := by
  unfold readChBlkNull at h
  split at h
  . next hc =>
    left
    split at h
    . next buf u heq =>
      cases h
      exact ⟨hc, buf, heq⟩
    . cases h
  . next hc =>
    cases h
    exact .inr ⟨by simpa using hc, rfl⟩

theorem readChBlkNull_eq {w' : World} (hc : env.cached = false) {b : BlockNo} (h : readChBlkNull env b w = .ok w')
    : w' = w.emit (.readBlock b false) := by
  rw [readChBlkNull, hc] at h
  cases h
  rfl

theorem updateBlock.noTemp_ok {p : BlockNo} {x : Xfer} {res : Int × BlockNo × Xfer × World}
    (h : noTemp env p x w = .ok res)
    : ∃ (w₁ : World), readChBlkNull env p w = .ok w₁ ∧ res = (-1, p, x, w₁) := by
  unfold noTemp at h
  split at h
  . obtain ⟨w₁, hread, h⟩ := Loop.bind_eq_ok.mp h
    cases h
    exact ⟨w₁, hread, rfl⟩
  . cases h

theorem getBlockData.noTemp_ok {b : BlockNo} {x : Xfer} {buf : Mem} {res : Int × Xfer × Mem × World}
    (h : noTemp env b x buf w = .ok res)
    : ∃ (w₁ : World), readChBlkNull env b w = .ok w₁ ∧ res = (-1, x, buf, w₁.unlock .rd) := by
  obtain ⟨w₁, hread, h⟩ := Loop.bind_eq_ok.mp h
  cases h
  exact ⟨w₁, hread, rfl⟩

-- What `update_block` does with its block: it reads it, writes it, or does the one after the other.
inductive updateBlock.Transfers (env : Env) (q : BlockNo) (w : World) : Int → World → Prop where
  | null {w' : World} (hread : readChBlkNull env q w = .ok w') : Transfers env q w (-1) w'
  | unread (temp : Block) {temp' : Block} {w' : World} (hread : readChBlk env q temp w = (false, temp', w'))
    : Transfers env q w (-1) w'
  | written (new : Block) {ok : Bool} {w' : World} (hwrite : writeChBlk env q new w = (ok, w'))
    : Transfers env q w (if ok then 0 else -1) w'
  | updated (temp new : Block) (w₁ : World) {temp' : Block} {ok : Bool} {w' : World}
    (hread : readChBlk env q temp w = (true, temp', w₁)) (hwrite : writeChBlk env q new w₁ = (ok, w'))
    : Transfers env q w (if ok then 0 else -1) w'

theorem updateBlock_cases {buf : Mem} {size : Nat} {p q : BlockNo} {x x' : Xfer} {r : Int} {w' : World}
    (h : updateBlock env buf size p x w = .ok (r, q, x', w'))
    : (r = 0 ∧ q = p ∧ w' = w)
      ∨ ∃ (w₁ : World), (if p = 0#32 then allocBlock w else (p, w)) = (q, w₁)
          ∧ updateBlock.Transfers env q w₁ r w' := by
  unfold updateBlock at h
  split at h
  . right
    generalize (if p = 0#32 then allocBlock w else (p, w)) = place at h
    obtain ⟨q', w₁⟩ := place
    cases htemp : x.temp with
    | none =>
      rw [htemp] at h
      obtain ⟨w₂, hread, heq⟩ := updateBlock.noTemp_ok h
      cases heq
      exact ⟨w₁, rfl, .null hread⟩
    | some temp =>
      rw [htemp] at h
      simp only at h
      by_cases hshift : 0 < x.shift
      . rw [if_pos hshift] at h
        cases hread : readChBlk env q' temp w₁ with
        | mk ok rest =>
          obtain ⟨temp', w₂⟩ := rest
          rw [hread] at h
          cases ok with
          | false =>
            cases h
            exact ⟨w₁, rfl, .unread temp hread⟩
          | true =>
            simp only at h
            split at h
            . cases h
            . split at h
              . next hwrite =>
                cases h
                exact ⟨w₁, rfl, .updated temp _ w₂ hread hwrite⟩
              . next hwrite =>
                cases h
                exact ⟨w₁, rfl, .updated temp _ w₂ hread hwrite⟩
      . rw [if_neg hshift] at h
        simp only at h
        split at h
        . cases h
        . split at h
          . next hwrite =>
            cases h
            exact ⟨w₁, rfl, .written _ hwrite⟩
          . next hwrite =>
            cases h
            exact ⟨w₁, rfl, .written _ hwrite⟩
  . cases h
    exact .inl ⟨rfl, rfl, rfl⟩

theorem getBlockData_cases {size : Nat} {b : BlockNo} {x x' : Xfer} {buf buf' : Mem} {r : Int} {w' : World}
    (h : getBlockData env size b x buf w = .ok (r, x', buf', w'))
    : (r = 0 ∧ w' = w)
      ∨ (∃ (w₁ : World), readChBlkNull env b w = .ok w₁ ∧ r = -1 ∧ w' = w₁.unlock .rd)
      ∨ ∃ (temp temp' : Block) (ok : Bool) (w₁ : World), readChBlk env b temp w = (ok, temp', w₁)
          ∧ ((ok = false ∧ r = -1 ∧ w' = w₁.unlock .rd) ∨ (ok = true ∧ r = 0 ∧ w' = w₁)) := by
  unfold getBlockData at h
  split at h
  . right
    cases htemp : x.temp with
    | none =>
      rw [htemp] at h
      obtain ⟨w₁, hread, heq⟩ := getBlockData.noTemp_ok h
      cases heq
      exact .inl ⟨w₁, hread, rfl, rfl⟩
    | some temp =>
      rw [htemp] at h
      right
      simp only at h
      cases hread : readChBlk env b temp w with
      | mk ok rest =>
        obtain ⟨temp', w₁⟩ := rest
        rw [hread] at h
        cases ok with
        | false =>
          cases h
          exact ⟨temp, temp', false, w₁, hread, .inl ⟨rfl, rfl, rfl⟩⟩
        | true =>
          simp only at h
          split at h
          . cases h
          . cases h
            exact ⟨temp, temp', true, w', hread, .inr ⟨rfl, rfl, rfl⟩⟩
  . cases h
    exact .inl ⟨rfl, rfl⟩

theorem updateBlock_zero (buf : Mem) (size : Nat) (p : BlockNo) (x : Xfer) (hx : x.remaining = 0)
    : updateBlock env buf size p x w = .ok (0, p, x, w) := by
  simp [updateBlock, hx]

-- The chunk does not fit behind `shift`: the copy runs over the end of `temp`.
theorem updateBlock_overrun (hr : env.Reliable) (htag : w.Tagged) (buf : Mem) (size : Nat) (p : BlockNo)
    (x : Xfer) (hx : 0 < x.remaining) (temp : Block) (htemp : x.temp = some temp)
    (hover : blockSize < x.shift + curSize x.remaining)
    : updateBlock env buf size p x w = .error .tempOverrun := by
  have hshift : 0 < x.shift := by
    rw [curSize_eq] at hover
    simp only [blockSize] at hover
    omega
  unfold updateBlock
  simp only [hx, ↓reduceIte, htemp, hshift]
  by_cases hp : p = 0#32
  . obtain ⟨b, w', hb, hne, hinfo, -⟩ := allocBlock_spec env w
    have htag' : w'.Tagged := by
      unfold World.Tagged
      rw [hinfo]
      exact htag
    obtain ⟨w'', hread, -⟩ := readChBlk_spec hr htag' b hne temp
    simp [hp, hb, hread, hover]
  . obtain ⟨w', hread, -⟩ := readChBlk_spec hr htag p hp temp
    simp [hp, hread, hover]

theorem updateBlock_fill (hr : env.Reliable) (htag : w.Tagged) (buf : Mem) (size : Nat) (q : BlockNo)
    (hq : q ≠ 0#32) (x : Xfer) (temp : Block)
    : ∃ (w₁ w' : World),
        (if 0 < x.shift then readChBlk env q temp w else (true, temp, w))
          = (true, if 0 < x.shift then (w.view env).data q else temp, w₁)
        ∧ writeChBlk env q (chunk buf size x ((w.view env).data q) temp) w₁ = (true, w')
        ∧ w'.view env = (w.view env).setData q (chunk buf size x ((w.view env).data q) temp)
        ∧ w.Keeps q w' := by
  by_cases hshift : 0 < x.shift
  . obtain ⟨w₁, hread, hview₁, hkeeps₁⟩ := readChBlk_spec hr htag q hq temp
    obtain ⟨w', hwrite, hview', hkeeps'⟩ := writeChBlk_spec hr hkeeps₁.tagged q hq
      (chunk buf size x ((w.view env).data q) temp)
    refine ⟨w₁, w', by simp [hshift, hread], hwrite, ?_, ?_⟩
    . rw [hview', hview₁]
    . exact ⟨hkeeps'.tagged, fun h1 h2 => hkeeps'.noTable h1 (hkeeps₁.noTable h1 h2),
        hkeeps'.exhausted.trans hkeeps₁.exhausted⟩
  . obtain ⟨w', hwrite, hview', hkeeps'⟩ := writeChBlk_spec hr htag q hq
      (chunk buf size x ((w.view env).data q) temp)
    exact ⟨w, w', by simp [hshift], hwrite, hview', hkeeps'⟩

theorem updateBlock_spec (hr : env.Reliable) (htag : w.Tagged) (buf : Mem) (size : Nat) (p : BlockNo)
    (x : Xfer) (hx : 0 < x.remaining) (temp : Block) (htemp : x.temp = some temp)
    (hfit : x.shift + curSize x.remaining ≤ blockSize)
    : ∃ (q : BlockNo) (c : Block) (w' : World),
        updateBlock env buf size p x w = .ok (0, q, x.advance c, w')
        ∧ w'.Tagged ∧ w'.objects = w.objects
        ∧ (w.Exhausted → w'.Exhausted)
        ∧ ((w'.Exhausted ∧ p = 0#32 ∧ (w.view env).Full)
          ∨ (Updated (w.view env) p q c (w'.view env)
            ∧ c = chunk buf size x ((w.view env).data q) temp
            ∧ (resBlocks ≤ q.toNat → w.NoTable → w'.NoTable))) := by
  have hover : ¬ blockSize < x.shift + curSize x.remaining := by omega
  unfold updateBlock
  simp only [hx, ↓reduceIte, htemp, hover]
  by_cases hp : p = 0#32
  . obtain ⟨q, w₀, halloc, hq, hinfo, hobj, hmono, hcase⟩ := allocBlock_spec env w
    have htag₀ : w₀.Tagged := by
      unfold World.Tagged
      rw [hinfo]
      exact htag
    obtain ⟨w₁, w', hread, hwrite, hview, hkeeps⟩ := updateBlock_fill hr htag₀ buf size q hq x temp
    have hobj' : w'.objects = w₀.objects := congrArg View.objects hview
    refine ⟨q, chunk buf size x ((w₀.view env).data q) temp, w', ?_, hkeeps.tagged,
      hobj'.trans hobj, ?_, ?_⟩
    . simp only [hp, ↓reduceIte, halloc, hread]
      rw [← chunk, hwrite]
      rfl
    . intro h
      exact hkeeps.exhausted.mpr (hmono h)
    . cases hcase with
      | inl hfull => exact Or.inl ⟨hkeeps.exhausted.mpr hfull.1, hp, hfull.2⟩
      | inr hnew =>
        obtain ⟨hfree, hlt, hview₀⟩ := hnew
        right
        rw [hview₀] at hview
        refine ⟨.new hp hfree hlt ?_, ?_, ?_⟩
        . rw [hview, hview₀]
        . rw [hview₀]
          rfl
        . intro h1 h2
          refine hkeeps.noTable h1 ?_
          unfold World.NoTable
          rw [hinfo]
          exact h2
  . obtain ⟨w₁, w', hread, hwrite, hview, hkeeps⟩ := updateBlock_fill hr htag buf size p hp x temp
    refine ⟨p, chunk buf size x ((w.view env).data p) temp, w', ?_, hkeeps.tagged,
      congrArg View.objects hview, hkeeps.exhausted.mpr, Or.inr ⟨.old hp rfl hview, rfl, hkeeps.noTable⟩⟩
    simp only [hp, ↓reduceIte, hread]
    rw [← chunk, hwrite]
    rfl

end ObjStore
