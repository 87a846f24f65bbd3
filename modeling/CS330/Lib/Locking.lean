import Mathlib.Data.List.Basic

/-!
This module contains the discipline of one mutex along a list of events, the newest of which comes first: it is
locked while it is free, unlocked while it is held, and free in the end.
-/

namespace Locking

variable {ε : Type}

-- What an event does to the mutex: `some true` locks it, `some false` unlocks it.
abbrev Turns (ε : Type) : Type := ε → Option Bool

-- whether the mutex is held afterwards, if it may be used like that
def step : Option Bool → Bool → Option Bool
  | none, held => some held
  | some true, held => if held then none else some true
  | some false, held => if held then some false else none

def after (turns : Turns ε) : List ε → Bool → Option Bool
  | [], held => some held
  | e :: es, held => (after turns es held).bind (step (turns e))

def Disciplined (turns : Turns ε) (es : List ε) : Prop :=
  after turns es false = some false

-- The mutex is not used.
def Unused (turns : Turns ε) (es : List ε) : Prop :=
  ∀ (held : Bool), after turns es held = some held

-- The mutex is not held afterwards.
def Lost (turns : Turns ε) (es : List ε) : Prop :=
  ∀ (held : Bool), after turns es held ≠ some true

variable {turns : Turns ε} {es es' : List ε} {e : ε}

theorem after_append (held : Bool) : after turns (es ++ es') held = (after turns es' held).bind (after turns es) := by
  induction es with
  | nil =>
    rw [List.nil_append]
    cases after turns es' held <;> rfl
  | cons e es ih =>
    rw [List.cons_append, after, ih]
    cases after turns es' held <;> rfl

theorem Disciplined.append (h : Disciplined turns es) (h' : Disciplined turns es') : Disciplined turns (es ++ es') := by
  unfold Disciplined at *
  rw [after_append, h', Option.bind_some, h]

namespace Unused

theorem nil : Unused turns [] :=
  fun _ => rfl

theorem cons (he : turns e = none) (h : Unused turns es) : Unused turns (e :: es) := by
  intro held
  rw [after, h held, he]
  rfl

theorem append (h : Unused turns es) (h' : Unused turns es') : Unused turns (es ++ es') := by
  intro held
  rw [after_append, h' held, Option.bind_some, h held]

theorem disciplined (h : Unused turns es) : Disciplined turns es :=
  h false

end Unused

namespace Lost

theorem append (h : Lost turns es) : Lost turns (es ++ es') := by
  intro held heq
  rw [after_append] at heq
  cases hafter : after turns es' held with
  | none =>
    rw [hafter] at heq
    cases heq
  | some held' =>
    rw [hafter, Option.bind_some] at heq
    exact h held' heq

theorem of_unused (h : Unused turns es) (h' : Lost turns es') : Lost turns (es ++ es') := by
  intro held heq
  rw [after_append] at heq
  cases hafter : after turns es' held with
  | none =>
    rw [hafter] at heq
    cases heq
  | some held' =>
    rw [hafter, Option.bind_some, h held', Option.some.injEq] at heq
    rw [heq] at hafter
    exact h' held hafter

theorem unlock (he : turns e = some false) : Lost turns (e :: es) := by
  intro held heq
  rw [after, he] at heq
  cases hafter : after turns es held with
  | none =>
    rw [hafter] at heq
    cases heq
  | some held' =>
    rw [hafter, Option.bind_some] at heq
    cases held' with
    | false => cases heq
    | true => cases heq

end Lost

variable {lock unlock : ε} (hlock : turns lock = some true) (hunlock : turns unlock = some false)

include hlock hunlock

-- a use in between would be one too many
theorem disciplined_pair (h : Unused turns es) : Disciplined turns (unlock :: (es ++ [lock])) := by
  unfold Disciplined
  rw [after, after_append, after, after, Option.bind_some, hlock, step, if_neg (by decide), Option.bind_some, h true,
    Option.bind_some, hunlock, step, if_pos rfl]

theorem not_disciplined_pair (h : Lost turns es) : ¬ Disciplined turns (unlock :: (es ++ [lock])) := by
  unfold Disciplined
  intro heq
  rw [after] at heq
  cases hafter : after turns (es ++ [lock]) false with
  | none =>
    rw [hafter] at heq
    cases heq
  | some held =>
    rw [hafter, Option.bind_some, hunlock] at heq
    cases held with
    | false => cases heq
    | true =>
      rw [after_append, after, after, Option.bind_some, hlock, step, if_neg (by decide), Option.bind_some] at hafter
      exact h true hafter

end Locking
