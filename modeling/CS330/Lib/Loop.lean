import Mathlib.Data.List.FinRange

/-!
This module contains the control flow of bounded `for` loops whose body may fall through, `break`
or `return` from the enclosing function, together with the invariant rule for such loops and the
rule that relates two of them.
-/

namespace Loop

inductive Flow (ρ σ : Type) where
  | next (s : σ)
  | stop (s : σ)
  | ret (r : ρ) (s : σ)

variable {ε ρ σ τ ι : Type}

/--
Run `body` on the given indices. A `stop` leaves the loop, so that the caller sees `next`; a `ret`
is handed to the caller as it is.
-/
def run (body : ι → σ → Except ε (Flow ρ σ)) : List ι → σ → Except ε (Flow ρ σ)
  | [], s => .ok (.next s)
  | i :: is, s =>
    match body i s with
    | .ok (.next s) => run body is s
    | .ok (.stop s) => .ok (.next s)
    | .ok (.ret r s) => .ok (.ret r s)
    | .error e => .error e

@[simp]
theorem run_nil (body : ι → σ → Except ε (Flow ρ σ)) (s : σ) : run body [] s = .ok (.next s) := rfl

theorem run_cons (body : ι → σ → Except ε (Flow ρ σ)) (i : ι) (is : List ι) (s : σ)
    : run body (i :: is) s
        =
      match body i s with
      | .ok (.next s) => run body is s
      | .ok (.stop s) => .ok (.next s)
      | .ok (.ret r s) => .ok (.ret r s)
      | .error e => .error e := rfl

theorem run_idle {body : ι → σ → Except ε (Flow ρ σ)} {s : σ} (h : ∀ (i : ι), body i s = .ok (.next s))
    (is : List ι)
    : run body is s = .ok (.next s) := by
  induction is with
  | nil => rfl
  | cons i is ih =>
    rw [run_cons, h i]
    exact ih

theorem run_cons_next {body : ι → σ → Except ε (Flow ρ σ)} {i : ι} {is : List ι} {s u : σ}
    (h : run body (i :: is) s = .ok (.next u))
    : (∃ (t : σ), body i s = .ok (.next t) ∧ run body is t = .ok (.next u)) ∨ body i s = .ok (.stop u) := by
  rw [run_cons] at h
  split at h
  . next t heq => exact .inl ⟨t, heq, h⟩
  . next t heq =>
    cases h
    exact .inr heq
  . cases h
  . cases h

theorem run_cons_ret {body : ι → σ → Except ε (Flow ρ σ)} {i : ι} {is : List ι} {s u : σ} {r : ρ}
    (h : run body (i :: is) s = .ok (.ret r u))
    : (∃ (t : σ), body i s = .ok (.next t) ∧ run body is t = .ok (.ret r u)) ∨ body i s = .ok (.ret r u) := by
  rw [run_cons] at h
  split at h
  . next t heq => exact .inl ⟨t, heq, h⟩
  . cases h
  . next r' t heq =>
    cases h
    exact .inr heq
  . cases h

theorem bind_eq_ok {α β : Type} {x : Except ε α} {f : α → Except ε β} {b : β}
    : x >>= f = .ok b ↔ ∃ (a : α), x = .ok a ∧ f a = .ok b := by
  cases x with
  | error e =>
    constructor
    . intro h
      cases h
    . rintro ⟨a, ha, -⟩
      cases ha
  | ok a =>
    constructor
    . intro h
      exact ⟨a, rfl, h⟩
    . rintro ⟨a', ha, h⟩
      cases ha
      exact h

def rangeFrom (n : Nat) : Nat → Nat → List (Fin n)
  | 0, _ => []
  | k + 1, i => if h : i < n then ⟨i, h⟩ :: rangeFrom n k (i + 1) else []

-- The indices of `for (i = 0; i < n; i++)`. Unlike in `List.finRange`, the first index is there before the
-- others are computed.
def range (n : Nat) : List (Fin n) :=
  rangeFrom n n 0

theorem rangeFrom_eq {n : Nat} (k i : Nat) (h : k + i = n)
    : rangeFrom n k i = (List.finRange n).drop i := by
  induction k generalizing i with
  | zero =>
    rw [List.drop_eq_nil_of_le (by simp; omega)]
    rfl
  | succ k ih =>
    have hi : i < n := by omega
    rw [List.drop_eq_getElem_cons (by simpa using hi)]
    simp only [rangeFrom, hi, ↓reduceDIte, ih (i + 1) (by omega)]
    simp

theorem range_eq (n : Nat) : range n = List.finRange n := by
  rw [range, rangeFrom_eq n 0 (by omega), List.drop_zero]

@[simp]
theorem length_range (n : Nat) : (range n).length = n := by
  simp [range_eq]

@[simp]
theorem mem_range {n : Nat} (i : Fin n) : i ∈ range n := by
  simp [range_eq]

theorem drop_range {n : Nat} (k : Nat) (hk : k < n)
    : (range n).drop k = ⟨k, hk⟩ :: (range n).drop (k + 1) := by
  rw [range_eq, List.drop_eq_getElem_cons (by simpa using hk)]
  simp

theorem find?_range {n : Nat} (p : Fin n → Bool) (i : Fin n)
    : (range n).find? p = some i ↔ (p i = true ∧ ∀ (j : Fin n), j < i → p j = false) := by
  rw [range_eq, List.find?_eq_some_iff_getElem]
  constructor
  . intro h
    obtain ⟨hp, m, hm, hget, hbefore⟩ := h
    simp only [List.getElem_finRange] at hget hbefore
    refine ⟨hp, ?_⟩
    intro j hj
    have hjm : j.val < m := by
      rw [← hget] at hj
      exact hj
    simpa using hbefore j.val hjm
  . intro h
    obtain ⟨hp, hbefore⟩ := h
    refine ⟨hp, i.val, by simp, by simp, ?_⟩
    intro j hj
    simp only [List.getElem_finRange]
    rw [hbefore]
    . rfl
    . exact hj

theorem mem_range_split {n : Nat} {pre post : List (Fin n)} {i : Fin n} (h : range n = pre ++ i :: post)
    : (∀ (j : Fin n), j ∈ pre ↔ j < i) ∧ ∀ (j : Fin n), j ∈ post ↔ i < j := by
  have hsorted : (pre ++ i :: post).Pairwise (· < ·) := by
    rw [← h, range_eq]
    exact List.pairwise_lt_finRange n
  obtain ⟨-, hpost, hcross⟩ := List.pairwise_append.mp hsorted
  have hafter := (List.pairwise_cons.mp hpost).1
  have hmem : ∀ (j : Fin n), j ∈ pre ∨ j = i ∨ j ∈ post := by
    intro j
    have hj := mem_range j
    rw [h, List.mem_append, List.mem_cons] at hj
    exact hj
  constructor
  . intro j
    refine ⟨fun hj => hcross j hj i List.mem_cons_self, fun hj => ?_⟩
    rcases hmem j with hpre | rfl | hj'
    . exact hpre
    . exact absurd hj (lt_irrefl j)
    . exact absurd (hafter j hj') (lt_asymm hj)
  . intro j
    refine ⟨hafter j, fun hj => ?_⟩
    rcases hmem j with hpre | rfl | hj'
    . exact absurd (hcross j hpre i List.mem_cons_self) (lt_asymm hj)
    . exact absurd hj (lt_irrefl j)
    . exact hj'

theorem foldl_range_inv {n : Nat} {body : σ → Fin n → σ} {P : Nat → σ → Prop}
    (hstep : ∀ (i : Fin n) (s : σ), P i s → P (i + 1) (body s i)) (s : σ) (hs : P 0 s)
    : P n ((range n).foldl body s) := by
  have hdrop : ∀ (d k : Nat), n - k = d → k ≤ n → ∀ (s : σ), P k s
      → P n (((range n).drop k).foldl body s) := by
    intro d
    induction d with
    | zero =>
      intro k hd hk s hs
      have : k = n := by omega
      subst this
      rw [List.drop_eq_nil_of_le (by simp)]
      exact hs
    | succ d ih =>
      intro k hd hk s hs
      have hlt : k < n := by omega
      rw [drop_range k hlt, List.foldl_cons]
      apply ih
      . omega
      . omega
      . exact hstep ⟨k, hlt⟩ s hs
  simpa using hdrop n 0 (by omega) (by omega) s hs

-- What has to be shown about one pass of a loop: `P` is what holds at the head of the next pass, `Q` is what
-- is wanted of the loop's final outcome.
def StepPost (P : σ → Prop) (Q : Except ε (Flow ρ σ) → Prop) : Except ε (Flow ρ σ) → Prop
  | .ok (.next s) => P s
  | .ok (.stop s) => Q (.ok (.next s))
  | .ok (.ret r s) => Q (.ok (.ret r s))
  | .error e => Q (.error e)

theorem run_drop_inv {n : Nat} {body : Fin n → σ → Except ε (Flow ρ σ)} {P : Nat → σ → Prop}
    {Q : Except ε (Flow ρ σ) → Prop}
    (hstep : ∀ (i : Fin n) (s : σ), P i s → StepPost (P (i + 1)) Q (body i s))
    (hdone : ∀ (s : σ), P n s → Q (.ok (.next s)))
    (k : Nat) (hk : k ≤ n)
    : ∀ (s : σ), P k s → Q (run body ((range n).drop k) s) := by
  -- the induction is on the number of passes left
  induction hd : n - k generalizing k with
  | zero =>
    intro s hs
    have : k = n := by omega
    subst this
    rw [List.drop_eq_nil_of_le (by simp)]
    exact hdone s hs
  | succ d ih =>
    intro s hs
    have hlt : k < n := by omega
    rw [drop_range k hlt, run_cons]
    have hbody := hstep ⟨k, hlt⟩ s hs
    split
    . next s' heq =>
      rw [heq] at hbody
      exact ih (k + 1) (by omega) (by omega) s' hbody
    . next s' heq =>
      rw [heq] at hbody
      exact hbody
    . next r s' heq =>
      rw [heq] at hbody
      exact hbody
    . next e heq =>
      rw [heq] at hbody
      exact hbody

theorem run_inv {n : Nat} {body : Fin n → σ → Except ε (Flow ρ σ)} {P : Nat → σ → Prop}
    {Q : Except ε (Flow ρ σ) → Prop}
    (hstep : ∀ (i : Fin n) (s : σ), P i s → StepPost (P (i + 1)) Q (body i s))
    (hdone : ∀ (s : σ), P n s → Q (.ok (.next s)))
    (s : σ) (hs : P 0 s)
    : Q (run body (range n) s) := by
  have := run_drop_inv hstep hdone 0 (by omega) s hs
  simpa using this

theorem run_ne_stop (body : ι → σ → Except ε (Flow ρ σ)) (is : List ι) (s s' : σ)
    : run body is s ≠ .ok (.stop s') := by
  induction is generalizing s with
  | nil => simp
  | cons i is ih =>
    rw [run_cons]
    split
    . exact ih _
    . simp
    . simp
    . simp

theorem run_eq_ok {body : ι → σ → Except ε (Flow ρ σ)} {is : List ι} {s : σ} {flow : Flow ρ σ}
    (h : run body is s = .ok flow)
    : (∃ (v : σ), flow = .next v) ∨ ∃ (r : ρ) (v : σ), flow = .ret r v := by
  cases flow with
  | next v => exact .inl ⟨v, rfl⟩
  | stop v => exact absurd h (run_ne_stop body is s v)
  | ret r v => exact .inr ⟨r, v, rfl⟩

-- what holds of the state that a pass leaves behind, however it ends
def Leaves (I : σ → Prop) : Except ε (Flow ρ σ) → Prop
  | .ok (.next s) => I s
  | .ok (.stop s) => I s
  | .ok (.ret _ s) => I s
  | .error _ => True

theorem Leaves.imp {I J : σ → Prop} {x : Except ε (Flow ρ σ)} (h : Leaves I x) (hIJ : ∀ (s : σ), I s → J s)
    : Leaves J x := by
  cases x with
  | error e => trivial
  | ok flow =>
    cases flow with
    | next s => exact hIJ s h
    | stop s => exact hIJ s h
    | ret r s => exact hIJ s h

-- the same for a whole loop, of which no caller sees a `stop`
def Ends (I : σ → Prop) : Except ε (Flow ρ σ) → Prop
  | .ok (.next s) => I s
  | .ok (.stop _) => False
  | .ok (.ret _ s) => I s
  | .error _ => True

theorem Ends.leaves {I : σ → Prop} {x : Except ε (Flow ρ σ)} (h : Ends I x) : Leaves I x := by
  cases x with
  | error e => trivial
  | ok flow =>
    cases flow with
    | next s => exact h
    | stop s => exact h.elim
    | ret r s => exact h

theorem run_post {body : ι → σ → Except ε (Flow ρ σ)} {I : σ → Prop} {Q : Except ε (Flow ρ σ) → Prop}
    (hstep : ∀ (i : ι) (s : σ), I s → StepPost I Q (body i s)) (hdone : ∀ (s : σ), I s → Q (.ok (.next s)))
    (is : List ι)
    : ∀ (s : σ), I s → Q (run body is s) := by
  induction is with
  | nil =>
    intro s hs
    exact hdone s hs
  | cons i is ih =>
    intro s hs
    have hbody := hstep i s hs
    rw [run_cons]
    generalize body i s = x at hbody
    cases x with
    | error e => exact hbody
    | ok flow =>
      cases flow with
      | next s => exact ih s hbody
      | stop s => exact hbody
      | ret r s => exact hbody

theorem run_ends {body : ι → σ → Except ε (Flow ρ σ)} {I : σ → Prop}
    (hstep : ∀ (i : ι) (s : σ), I s → Leaves I (body i s)) (is : List ι)
    : ∀ (s : σ), I s → Ends I (run body is s) :=
  run_post (Q := Ends I) hstep (fun _ hs => hs) is

-- the same for what holds before pass `i`, and is weaker the later the pass
theorem run_range_ends {n : Nat} {body : Fin n → σ → Except ε (Flow ρ σ)} {P : Nat → σ → Prop}
    (hmono : ∀ (i : Nat) (s : σ), i ≤ n → P i s → P n s)
    (hstep : ∀ (i : Fin n) (s : σ), P i s → Leaves (P (i + 1)) (body i s)) (s : σ) (hs : P 0 s)
    : Ends (P n) (run body (range n) s) := by
  apply run_inv (P := P) (Q := fun x => Ends (P n) x) _ (fun s hs => hs) s hs
  intro i s hs
  have hbody := hstep i s hs
  generalize body i s = x at hbody
  cases x with
  | error e => trivial
  | ok flow =>
    cases flow with
    | next s => exact hbody
    | stop s => exact hmono _ s i.isLt hbody
    | ret r s => exact hmono _ s i.isLt hbody

-- what holds when a pass goes on to the next one, and what when it returns
def Exits (I : σ → Prop) (J : ρ → σ → Prop) : Except ε (Flow ρ σ) → Prop
  | .ok (.next s) => I s
  | .ok (.stop _) => False
  | .ok (.ret r s) => J r s
  | .error _ => True

theorem Exits.ne_stop {I : σ → Prop} {J : ρ → σ → Prop} {x : Except ε (Flow ρ σ)} (h : Exits I J x) (s : σ)
    : x ≠ .ok (.stop s) := by
  rintro rfl
  exact h

theorem Exits.stepPost {I : σ → Prop} {J : ρ → σ → Prop} {x : Except ε (Flow ρ σ)} (h : Exits I J x)
    : StepPost I (Exits I J) x := by
  cases x with
  | error e => trivial
  | ok flow =>
    cases flow with
    | next s => exact h
    | stop s => exact h.elim
    | ret r s => exact h

theorem run_exits {body : ι → σ → Except ε (Flow ρ σ)} {I : σ → Prop} {J : ρ → σ → Prop}
    (hstep : ∀ (i : ι) (s : σ), I s → Exits I J (body i s)) (is : List ι)
    : ∀ (s : σ), I s → Exits I J (run body is s) :=
  run_post (fun i s hs => (hstep i s hs).stepPost) (fun _ hs => hs) is

-- a pass that goes on to the next one if it does not fail
def Falls (I : σ → Prop) : Except ε (Flow ρ σ) → Prop
  | .ok (.next s) => I s
  | .ok (.stop _) => False
  | .ok (.ret _ _) => False
  | .error _ => True

theorem Falls.ne_stop {I : σ → Prop} {x : Except ε (Flow ρ σ)} (h : Falls I x) (s : σ)
    : x ≠ .ok (.stop s) := by
  rintro rfl
  exact h

-- `Falls I` is `Exits I` with nothing that may hold of a `ret`.
theorem run_falls {body : ι → σ → Except ε (Flow ρ σ)} {I : σ → Prop}
    (hstep : ∀ (i : ι) (s : σ), I s → Falls I (body i s)) (is : List ι)
    : ∀ (s : σ), I s → Falls I (run body is s) :=
  run_exits (J := fun _ _ => False) hstep is

-- a body that goes on wherever another one does makes the same loop as long as nothing returns
theorem run_next_congr {body body' : ι → σ → Except ε (Flow ρ σ)}
    (hnext : ∀ (i : ι) (s t : σ), body i s = .ok (.next t) → body' i s = .ok (.next t))
    (hstop : ∀ (i : ι) (s t : σ), body i s ≠ .ok (.stop t)) (is : List ι)
    : ∀ (s t : σ), run body is s = .ok (.next t) → run body' is s = .ok (.next t) := by
  induction is with
  | nil =>
    intro s t h
    exact h
  | cons i is ih =>
    intro s t h
    rcases run_cons_next h with ⟨u, hbody, h⟩ | hbody
    . rw [run_cons, hnext i s u hbody]
      exact ih u t h
    . exact absurd hbody (hstop i s t)

/-- The passes that a loop makes, each with the state in which it begins. -/
def passes (body : ι → σ → Except ε (Flow ρ σ)) : List ι → σ → List (ι × σ)
  | [], _ => []
  | i :: is, s =>
    (i, s) ::
      match body i s with
      | .ok (.next s) => passes body is s
      | _ => []

theorem mem_passes_cons {body : ι → σ → Except ε (Flow ρ σ)} {i : ι} {is : List ι} {s : σ} {p : ι × σ}
    : p ∈ passes body (i :: is) s
        ↔ p = (i, s) ∨ ∃ (t : σ), body i s = .ok (.next t) ∧ p ∈ passes body is t := by
  rw [passes, List.mem_cons]
  apply or_congr_right
  constructor
  . intro hp
    split at hp
    . next t heq => exact ⟨t, heq, hp⟩
    . cases hp
  . rintro ⟨t, heq, hp⟩
    rw [heq]
    exact hp

-- what every pass says of its way is said by the loop of all of its passes
theorem run_passes {body : ι → σ → Except ε (Flow ρ σ)} {R : Prop → σ → σ → Prop} {good : ι × σ → Prop}
    (hrefl : ∀ (s : σ), R True s s)
    (htrans : ∀ (P Q : Prop) (s t u : σ), R P s t → R Q t u → R (P ∧ Q) s u)
    (hnext : ∀ (i : ι) (s t : σ), body i s = .ok (.next t) → R (good (i, s)) s t)
    (hstop : ∀ (i : ι) (s t : σ), body i s = .ok (.stop t) → R (good (i, s)) s t)
    (is : List ι)
    : ∀ (s u : σ), run body is s = .ok (.next u)
        → R (∀ (p : ι × σ), p ∈ passes body is s → good p) s u := by
  induction is with
  | nil =>
    intro s u h
    cases h
    simpa [passes] using hrefl s
  | cons i is ih =>
    intro s u h
    rw [passes]
    rcases run_cons_next h with ⟨t, hbody, h⟩ | hbody
    . simp only [hbody, List.forall_mem_cons]
      exact htrans _ _ s t u (hnext i s t hbody) (ih t u h)
    . simpa [hbody] using hstop i s u hbody

-- the same when the last pass returns, of which `S` speaks
theorem run_passes_ret {body : ι → σ → Except ε (Flow ρ σ)} {R S : Prop → σ → σ → Prop} {good : ι × σ → Prop}
    (htrans : ∀ (P Q : Prop) (s t u : σ), R P s t → S Q t u → S (P ∧ Q) s u)
    (hnext : ∀ (i : ι) (s t : σ), body i s = .ok (.next t) → R (good (i, s)) s t)
    (hret : ∀ (i : ι) (s t : σ) (r : ρ), body i s = .ok (.ret r t) → S (good (i, s)) s t)
    (is : List ι)
    : ∀ (s u : σ) (r : ρ), run body is s = .ok (.ret r u)
        → S (∀ (p : ι × σ), p ∈ passes body is s → good p) s u := by
  induction is with
  | nil =>
    intro s u r h
    cases h
  | cons i is ih =>
    intro s u r h
    rw [passes]
    rcases run_cons_ret h with ⟨t, hbody, h⟩ | hbody
    . simp only [hbody, List.forall_mem_cons]
      exact htrans _ _ s t u (hnext i s t hbody) (ih t u r h)
    . simpa [hbody] using hret i s u r hbody

theorem run_of_ret {body : ι → σ → Except ε (Flow ρ σ)} {p : ι × σ} {r : ρ} {v : σ}
    (hret : body p.1 p.2 = .ok (.ret r v)) (is : List ι)
    : ∀ (s : σ), p ∈ passes body is s → run body is s = .ok (.ret r v) := by
  induction is with
  | nil =>
    intro s hp
    cases hp
  | cons i is ih =>
    intro s hp
    rw [run_cons]
    rcases mem_passes_cons.mp hp with rfl | ⟨t, hbody, hp⟩
    . simp only [hret]
    . simp only [hbody]
      exact ih t hp

theorem exists_pass_of_ret {body : ι → σ → Except ε (Flow ρ σ)} {r : ρ} {v : σ} (is : List ι)
    : ∀ (s : σ), run body is s = .ok (.ret r v)
        → ∃ (p : ι × σ), p ∈ passes body is s ∧ body p.1 p.2 = .ok (.ret r v) := by
  induction is with
  | nil =>
    intro s h
    cases h
  | cons i is ih =>
    intro s h
    rcases run_cons_ret h with ⟨t, hbody, h⟩ | hbody
    . obtain ⟨p, hp, hret⟩ := ih t h
      exact ⟨p, mem_passes_cons.mpr (.inr ⟨t, hbody, hp⟩), hret⟩
    . exact ⟨(i, s), List.mem_cons_self, hbody⟩

theorem run_ne_ret {body : ι → σ → Except ε (Flow ρ σ)}
    (hbody : ∀ (i : ι) (s : σ) (r : ρ) (v : σ), body i s ≠ .ok (.ret r v)) (is : List ι) (s : σ) (r : ρ) (v : σ)
    : run body is s ≠ .ok (.ret r v) := by
  intro h
  obtain ⟨p, -, hret⟩ := exists_pass_of_ret is s h
  exact hbody p.1 p.2 r v hret

theorem passes_inv {n : Nat} {body : Fin n → σ → Except ε (Flow ρ σ)} {P : Nat → σ → Prop}
    (hstep : ∀ (i : Fin n) (s t : σ), P i s → body i s = .ok (.next t) → P (i + 1) t) {s : σ} (hs : P 0 s)
    : ∀ (p : Fin n × σ), p ∈ passes body (range n) s → P p.1 p.2 := by
  have hdrop : ∀ (d k : Nat), n - k = d → k ≤ n → ∀ (s : σ), P k s
      → ∀ (p : Fin n × σ), p ∈ passes body ((range n).drop k) s → P p.1 p.2 := by
    intro d
    induction d with
    | zero =>
      intro k hd hk s _ p hp
      rw [List.drop_eq_nil_of_le (by simp; omega)] at hp
      cases hp
    | succ d ih =>
      intro k hd hk s hs p hp
      have hlt : k < n := by omega
      rw [drop_range k hlt] at hp
      rcases mem_passes_cons.mp hp with rfl | ⟨t, hbody, hp⟩
      . exact hs
      . exact ih (k + 1) (by omega) (by omega) t (hstep ⟨k, hlt⟩ s t hs hbody) p hp
  intro p hp
  exact hdrop n 0 (by omega) (by omega) s hs p (by simpa using hp)

theorem exists_pass {body : ι → σ → Except ε (Flow ρ σ)}
    (hstop : ∀ (i : ι) (s t : σ), body i s ≠ .ok (.stop t)) {i : ι} (is : List ι)
    : ∀ (s t : σ), run body is s = .ok (.next t) → i ∈ is → ∃ (u : σ), (i, u) ∈ passes body is s := by
  induction is with
  | nil =>
    intro s t _ hi
    cases hi
  | cons j is ih =>
    intro s t h hi
    rw [List.mem_cons] at hi
    cases hi with
    | inl hi =>
      subst hi
      exact ⟨s, List.mem_cons_self⟩
    | inr hi =>
      rcases run_cons_next h with ⟨u, hbody, h⟩ | hbody
      . obtain ⟨v, hv⟩ := ih u t h hi
        exact ⟨v, mem_passes_cons.mpr (.inr ⟨u, hbody, hv⟩)⟩
      . exact absurd hbody (hstop j s t)

section

variable {body body' : ι → σ → Except ε (Flow ρ σ)} {time : σ → Nat} {n : Nat} {p : ι × σ}
variable (hmono : ∀ (i : ι) (s t : σ), body i s = .ok (.next t) → time s ≤ time t)

include hmono

theorem passes_le (is : List ι) : ∀ (s : σ), p ∈ passes body is s → time s ≤ time p.2 := by
  induction is with
  | nil =>
    intro s hp
    cases hp
  | cons i is ih =>
    intro s hp
    rcases mem_passes_cons.mp hp with rfl | ⟨t, hbody, hp⟩
    . exact Nat.le_refl _
    . exact Nat.le_trans (hmono i s t hbody) (ih t hp)

-- two loops whose bodies agree until the time `n` make the same passes until then
theorem passes_congr
    (hagree : ∀ (i : ι) (s t : σ), body i s = .ok (.next t) → time t ≤ n → body' i s = .ok (.next t))
    (hn : time p.2 ≤ n) (is : List ι)
    : ∀ (s : σ), p ∈ passes body is s → p ∈ passes body' is s := by
  induction is with
  | nil =>
    intro s hp
    cases hp
  | cons i is ih =>
    intro s hp
    rcases mem_passes_cons.mp hp with rfl | ⟨t, hbody, hp⟩
    . exact List.mem_cons_self
    . have hbody' := hagree i s t hbody (Nat.le_trans (passes_le hmono is t hp) hn)
      exact mem_passes_cons.mpr (.inr ⟨t, hbody', ih t hp⟩)

end

inductive Flow.Rel (R : σ → τ → Prop) : Flow ρ σ → Flow ρ τ → Prop where
  | next {s : σ} {t : τ} (h : R s t) : Flow.Rel R (.next s) (.next t)
  | stop {s : σ} {t : τ} (h : R s t) : Flow.Rel R (.stop s) (.stop t)
  | ret {r : ρ} {s : σ} {t : τ} (h : R s t) : Flow.Rel R (.ret r s) (.ret r t)

inductive Rel {α β : Type} (R : α → β → Prop) : Except ε α → Except ε β → Prop where
  | ok {a : α} {b : β} (h : R a b) : Rel R (.ok a) (.ok b)
  | error (e : ε) : Rel R (.error e) (.error e)

theorem Rel.bind {α β α' β' : Type} {R : α → β → Prop} {S : α' → β' → Prop} {x : Except ε α}
    {y : Except ε β} {f : α → Except ε α'} {g : β → Except ε β'}
    (h : Rel R x y) (hfg : ∀ (a : α) (b : β), R a b → Rel S (f a) (g b))
    : Rel S (x >>= f) (y >>= g) := by
  cases h with
  | ok h => exact hfg _ _ h
  | error e => exact Rel.error e

theorem run_rel {body : ι → σ → Except ε (Flow ρ σ)} {body' : ι → τ → Except ε (Flow ρ τ)}
    {R : σ → τ → Prop}
    (hstep : ∀ (i : ι) (s : σ) (t : τ), R s t → Rel (Flow.Rel R) (body i s) (body' i t))
    (is : List ι)
    : ∀ (s : σ) (t : τ), R s t → Rel (Flow.Rel R) (run body is s) (run body' is t) := by
  induction is with
  | nil =>
    intro s t h
    exact .ok (.next h)
  | cons i is ih =>
    intro s t h
    have hbody := hstep i s t h
    rw [run_cons, run_cons]
    generalize body i s = x at hbody
    generalize body' i t = y at hbody
    cases hbody with
    | error e => exact .error e
    | ok hflow =>
      cases hflow with
      | next h => exact ih _ _ h
      | stop h => exact .ok (.next h)
      | ret h => exact .ok (.ret h)

end Loop
