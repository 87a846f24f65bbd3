import CS330.Lib.Bytes

/-!
This module contains C strings in byte buffers: which string stands at a position of a buffer, and what copying,
appending and cutting off make of it.
-/

namespace Buf

-- the string `s` and its terminator stand in `b` from `pos` on
structure StrAt (b : Buf n) (pos : Nat) (s : List Byte) : Prop where
  fits : pos + s.length < n
  byte : ∀ (k : Nat) (hk : k < s.length), b.get (pos + k) = s[k]
  nul : b.get (pos + s.length) = 0#8
  ne_zero : ∀ (c : Byte), c ∈ s → c ≠ 0#8

theorem get_copy (b : Buf n) (pos : Nat) (src : Nat → Byte) (len i : Nat) (hi : i < n)
    : (b.copy pos src len).get i = if pos ≤ i ∧ i < pos + len then src (i - pos) else b.get i := by
  rw [get_lt _ _ hi, get_lt _ _ hi]
  rfl

theorem get_update (b : Buf n) (i j : Nat) (hi : i < n) (v : Byte)
    : get (Function.update b ⟨i, hi⟩ v) j = if j = i then v else b.get j := by
  by_cases hj : j < n
  . rw [get_lt _ _ hj, get_lt _ _ hj]
    by_cases heq : j = i
    . subst heq
      simp
    . rw [if_neg heq, Function.update_of_ne]
      intro hfin
      exact heq (congrArg Fin.val hfin)
  . rw [if_neg (by omega)]
    simp [get, hj]

namespace StrAt

variable {b c old : Buf n} {pos m : Nat} {s t g : List Byte}

theorem eq_of_nul (h : b.StrAt pos s) (hm : m ≤ s.length) (hnul : b.get (pos + m) = 0#8) : m = s.length := by
  apply Classical.byContradiction
  intro hne
  have hlt : m < s.length := by omega
  rw [h.byte m hlt] at hnul
  exact h.ne_zero _ (List.getElem_mem hlt) hnul

theorem length_eq (hs : b.StrAt pos s) (ht : b.StrAt pos t) : s.length = t.length := by
  cases Nat.le_total s.length t.length with
  | inl hle => exact ht.eq_of_nul hle hs.nul
  | inr hle => exact (hs.eq_of_nul hle ht.nul).symm

theorem unique (hs : b.StrAt pos s) (ht : b.StrAt pos t) : s = t := by
  apply List.ext_getElem (hs.length_eq ht)
  intro k hk hk'
  rw [← hs.byte k hk, ← ht.byte k hk']

theorem congr (h : b.StrAt pos s) (hsame : ∀ (k : Nat), k ≤ s.length → c.get (m + k) = b.get (pos + k))
    (hm : m + s.length < n)
    : c.StrAt m s where
  fits := hm
  byte := by
    intro k hk
    rw [hsame k (by omega), h.byte k hk]
  nul := by
    rw [hsame _ (Nat.le_refl _), h.nul]
  ne_zero := h.ne_zero

-- the part of a string behind a prefix of it
theorem append_iff
    : b.StrAt pos (s ++ t)
        ↔ (∀ (k : Nat) (hk : k < s.length), b.get (pos + k) = s[k]) ∧ (∀ (c : Byte), c ∈ s → c ≠ 0#8)
          ∧ b.StrAt (pos + s.length) t := by
  constructor
  . intro h
    have hfits := h.fits
    have hnul := h.nul
    rw [List.length_append] at hfits hnul
    refine ⟨?_, ?_, ?_, ?_, ?_, ?_⟩
    . intro k hk
      rw [h.byte k (by rw [List.length_append]; omega), List.getElem_append_left hk]
    . intro c hc
      exact h.ne_zero c (List.mem_append_left _ hc)
    . omega
    . intro k hk
      have hbyte := h.byte (s.length + k) (by rw [List.length_append]; omega)
      rw [Nat.add_assoc, hbyte, List.getElem_append_right (by omega)]
      simp
    . rw [Nat.add_assoc]
      exact hnul
    . intro c hc
      exact h.ne_zero c (List.mem_append_right _ hc)
  . rintro ⟨hbyte, hne, ht⟩
    have hfits := ht.fits
    have hnul := ht.nul
    refine ⟨?_, ?_, ?_, ?_⟩
    . rw [List.length_append]
      omega
    . intro k hk
      rw [List.length_append] at hk
      by_cases hlt : k < s.length
      . rw [hbyte k hlt, List.getElem_append_left hlt]
      . have hget := ht.byte (k - s.length) (by omega)
        rw [show pos + s.length + (k - s.length) = pos + k by omega] at hget
        rw [hget, List.getElem_append_right (by omega)]
    . rw [List.length_append, ← Nat.add_assoc]
      exact hnul
    . intro c hc
      rcases List.mem_append.mp hc with hc | hc
      . exact hne c hc
      . exact ht.ne_zero c hc

-- a string whose terminator is not copied goes on with what was in the buffer
theorem copy_iff (hs : c.StrAt 0 s) (hlen : s.length < n)
    : (b.copy 0 c.get s.length).StrAt 0 t ↔ ∃ (g : List Byte), t = s ++ g ∧ b.StrAt s.length g := by
  have hin : ∀ (k : Nat) (hk : k < s.length), (b.copy 0 c.get s.length).get k = s[k] := by
    intro k hk
    rw [get_copy _ _ _ _ _ (by omega), if_pos (by omega), Nat.sub_zero]
    have := hs.byte k hk
    rw [Nat.zero_add] at this
    exact this
  have hout : ∀ (k : Nat), s.length + k < n → (b.copy 0 c.get s.length).get (s.length + k) = b.get (s.length + k) := by
    intro k hk
    rw [get_copy _ _ _ _ _ hk, if_neg (by omega)]
  constructor
  . intro ht
    have hle : s.length ≤ t.length := by
      apply Classical.byContradiction
      intro hlt
      have hnul := ht.nul
      rw [Nat.zero_add, hin _ (by omega)] at hnul
      exact hs.ne_zero _ (List.getElem_mem _) hnul
    have htake : t.take s.length = s := by
      apply List.ext_getElem
      . rw [List.length_take]
        omega
      . intro k hk hk'
        have := ht.byte k (by omega)
        rw [Nat.zero_add, hin k hk'] at this
        rw [List.getElem_take, this]
    have hsplit := List.take_append_drop s.length t
    rw [htake] at hsplit
    refine ⟨t.drop s.length, hsplit.symm, ?_⟩
    rw [← hsplit] at ht
    have hrest := (append_iff.mp ht).2.2
    rw [Nat.zero_add] at hrest
    have hfits := hrest.fits
    exact hrest.congr (fun k hk => (hout k (by omega)).symm) hfits
  . rintro ⟨g, rfl, hg⟩
    have hfits := hg.fits
    apply append_iff.mpr
    refine ⟨?_, hs.ne_zero, ?_⟩
    . intro k hk
      rw [Nat.zero_add, hin k hk]
    . rw [Nat.zero_add]
      exact hg.congr (fun k hk => hout k (by omega)) hfits

-- `strcat`
theorem append (hs : b.StrAt 0 s) (ht : c.StrAt 0 t) (hlen : s.length + t.length < n)
    : (b.copy s.length c.get (t.length + 1)).StrAt 0 (s ++ t) := by
  apply append_iff.mpr
  refine ⟨?_, hs.ne_zero, ?_⟩
  . intro k hk
    rw [Nat.zero_add, get_copy _ _ _ _ _ (by omega), if_neg (by omega)]
    have := hs.byte k hk
    rw [Nat.zero_add] at this
    exact this
  . rw [Nat.zero_add]
    apply ht.congr _ hlen
    intro k hk
    rw [get_copy _ _ _ _ _ (by omega), if_pos (by omega), Nat.add_sub_cancel_left, Nat.zero_add]

theorem cut (hs : b.StrAt 0 s) (hm : m < n)
    : StrAt (Function.update (old.copy 0 b.get m) ⟨m, hm⟩ 0#8) 0 (s.take m) := by
  have hfits := hs.fits
  have hget : ∀ (k : Nat), k < m → get (Function.update (old.copy 0 b.get m) ⟨m, hm⟩ 0#8) k = b.get k := by
    intro k hk
    rw [get_update, if_neg (by omega), get_copy _ _ _ _ _ (by omega), if_pos (by omega), Nat.sub_zero]
  refine ⟨?_, ?_, ?_, ?_⟩
  . rw [List.length_take]
    omega
  . intro k hk
    rw [List.length_take] at hk
    have := hs.byte k (by omega)
    rw [Nat.zero_add] at this
    rw [Nat.zero_add, hget k (by omega), this, List.getElem_take]
  . rw [List.length_take, Nat.zero_add]
    by_cases hlt : s.length < m
    . have hnul := hs.nul
      rw [Nat.zero_add] at hnul
      rw [Nat.min_eq_right (by omega), hget _ hlt, hnul]
    . rw [Nat.min_eq_left (by omega), get_update, if_pos rfl]
  . intro c hc
    exact hs.ne_zero c (List.mem_of_mem_take hc)

theorem of_first (hpos : pos ≤ m) (hm : m < n) (hnul : b.get m = 0#8)
    (hfirst : ∀ (k : Nat), pos ≤ k → k < m → b.get k ≠ 0#8)
    : b.StrAt pos ((List.range' pos (m - pos)).map b.get) := by
  refine ⟨?_, ?_, ?_, ?_⟩
  . simp only [List.length_map, List.length_range']
    omega
  . intro k hk
    simp
  . simp only [List.length_map, List.length_range']
    rw [show pos + (m - pos) = m by omega]
    exact hnul
  . intro c hc
    simp only [List.mem_map, List.mem_range'_1] at hc
    obtain ⟨k, hk, rfl⟩ := hc
    exact hfirst k (by omega) (by omega)

end StrAt

end Buf
