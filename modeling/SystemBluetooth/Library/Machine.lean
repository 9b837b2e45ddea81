import Mathlib.Logic.Relation

/-!
# Machines and what they implement

A machine takes a state to the next one, comes to rest, or stops with an error. What happens
on the way can be observed (`Reaches`); a computation that only returns its result does not
show it. `Implements` connects the two: from a state on, the machine carries out the
computation. Its rules follow how the computation is built, so a loop needs one induction.
-/

namespace Machine

variable {σ ε α β : Type} {step : σ → Except ε (Option σ)} {s t : σ}

/-- Some number of steps leads from one state to the other. -/
def Reaches (step : σ → Except ε (Option σ)) : σ → σ → Prop :=
  Relation.ReflTransGen fun s t => step s = .ok (some t)

/-- The state after so many steps, unless the machine rests or stops before. -/
def after (step : σ → Except ε (Option σ)) : Nat → σ → Option σ
  | 0, s => some s
  | n + 1, s =>
      match step s with
      | .ok (some t) => after step n t
      | _ => none

theorem reaches_of_after {n : Nat} (h : after step n s = some t) : Reaches step s t := by
  induction n generalizing s with
  | zero =>
      obtain rfl : s = t := Option.some.inj h
      exact .refl
  | succ n ih =>
      rw [after] at h
      split at h
      · rename_i u hstep
        exact .head hstep (ih h)
      · cases h

/-- What holds at first and is kept by every step from a state that is reached. -/
theorem Reaches.invariant {Inv : σ → Prop} (h : Reaches step s t) (hs : Inv s)
    (hstep : ∀ a b, Reaches step s a → Inv a → step a = .ok (some b) → Inv b) : Inv t := by
  induction h with
  | refl => exact hs
  | tail hreach hlast ih => exact hstep _ _ hreach ih hlast

/-- From `s` on the machine computes `x`: it gets to a state that its value is found in, or
stops with its error. -/
structure Implements (step : σ → Except ε (Option σ)) (s : σ) (x : Except ε α)
    (P : α → σ → Prop) : Prop where
  value : ∀ a, x = .ok a → ∃ t, P a t ∧ Reaches step s t
  error : ∀ e, x = .error e → ∃ t, Reaches step s t ∧ step t = .error e

namespace Implements

variable {x : Except ε α} {f : α → Except ε β} {P : α → σ → Prop} {Q : β → σ → Prop}

/-- The value has been computed. -/
theorem done {a : α} (h : P a s) : Implements step s (.ok a) P where
  value := by
    rintro _ ⟨⟩
    exact ⟨s, h, .refl⟩
  error := by
    rintro _ ⟨⟩

theorem stop {e : ε} (h : step s = .error e) : Implements step s (.error e) P where
  value := by
    rintro _ ⟨⟩
  error := by
    rintro _ ⟨⟩
    exact ⟨s, .refl, h⟩

theorem head (hstep : step s = .ok (some t)) (h : Implements step t x P) :
    Implements step s x P where
  value := by
    intro a ha
    obtain ⟨u, hP, hreach⟩ := h.value a ha
    exact ⟨u, hP, hreach.head hstep⟩
  error := by
    intro e he
    obtain ⟨u, hreach, hu⟩ := h.error e he
    exact ⟨u, hreach.head hstep, hu⟩

/-- One part after the other. -/
theorem bind (first : Implements step s x P)
    (second : ∀ a t, x = .ok a → P a t → Implements step t (f a) Q) :
    Implements step s (x >>= f) Q where
  value := by
    intro b hb
    cases x with
    | error e => cases hb
    | ok a =>
        obtain ⟨t, hP, hreach⟩ := first.value a rfl
        obtain ⟨u, hQ, hlater⟩ := (second a t rfl hP).value b hb
        exact ⟨u, hQ, hreach.trans hlater⟩
  error := by
    intro e he
    cases x with
    | error e' =>
        obtain rfl : e' = e := Except.error.inj he
        exact first.error e' rfl
    | ok a =>
        obtain ⟨t, hP, hreach⟩ := first.value a rfl
        obtain ⟨u, hlater, hu⟩ := (second a t rfl hP).error e he
        exact ⟨u, hreach.trans hlater, hu⟩

/-- A computation that the machine makes in one step. -/
theorem atomic {g : α → σ} (h : step s = x >>= fun a => .ok (some (g a))) :
    Implements step s x fun a t => t = g a := by
  cases x with
  | ok a => exact head h (done rfl)
  | error e => exact stop h

end Implements

end Machine
