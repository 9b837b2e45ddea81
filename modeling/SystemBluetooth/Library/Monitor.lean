import Mathlib.Data.List.Basic

/-!
# Monitors over traces

A monitor watches the events of a trace and keeps a state. `run` is the state after a
trace. A state that no event leaves is a sink: it stands for a violation, or for a point
from which on nothing is required, and a trace that ends elsewhere has never been in it.
-/

namespace Monitor

variable {σ ε : Type}

/-- The state after the events of a trace. -/
def run (next : σ → ε → σ) (s : σ) (trace : List ε) : σ := trace.foldl next s

variable {next : σ → ε → σ} {s : σ}

@[simp] theorem run_nil : run next s [] = s := rfl

@[simp] theorem run_cons (e : ε) (trace : List ε) :
    run next s (e :: trace) = run next (next s e) trace := rfl

@[simp] theorem run_append (a b : List ε) :
    run next s (a ++ b) = run next (run next s a) b := List.foldl_append

/-- No event leaves the state. -/
def Sink (next : σ → ε → σ) (s : σ) : Prop := ∀ e, next s e = s

theorem Sink.run (h : Sink next s) (trace : List ε) : run next s trace = s := by
  induction trace with
  | nil => rfl
  | cons e trace ih =>
      rw [run_cons, h e]
      exact ih

/-- A trace that does not end in a sink has not been there on the way. -/
theorem Sink.not_before {bad : σ} (hbad : Sink next bad) {a b : List ε}
    (h : Monitor.run next s (a ++ b) ≠ bad) : Monitor.run next s a ≠ bad := by
  intro ha
  rw [run_append, ha] at h
  exact h (hbad.run b)

/-- Every event of the trace is as `P` says of it and the events before it. -/
def Each (P : List ε → ε → Prop) (trace : List ε) : Prop :=
  ∀ before e after, trace = before ++ e :: after → P before e

variable {P : List ε → ε → Prop} {a b : List ε}

theorem Each.nil : Each P [] := by
  intro before e after h
  simp at h

theorem Each.single {e : ε} (h : P [] e) : Each P [e] := by
  intro before e' after hsplit
  cases before with
  | nil => exact (List.cons.inj hsplit).1 ▸ h
  | cons x before => simp at hsplit

theorem Each.append (ha : Each P a) (hb : Each (fun before e => P (a ++ before) e) b) :
    Each P (a ++ b) := by
  intro before e after h
  rcases List.append_eq_append_iff.mp h with ⟨middle, rfl, hrest⟩ | ⟨middle, hfront, hrest⟩
  · exact hb middle e after hrest
  · cases middle with
    | nil =>
        obtain rfl : a = before := by simpa using hfront
        have hfirst : P (a ++ []) e := hb [] e after hrest.symm
        rwa [List.append_nil] at hfirst
    | cons x middle =>
        obtain ⟨rfl, _⟩ := List.cons.inj hrest
        exact ha before e middle hfront

theorem Each.front (h : Each P (a ++ b)) : Each P a :=
  fun before e after hsplit => h before e (after ++ b) (by simp [hsplit])

/-- What holds of every event whatever is before it, holds of each. -/
theorem Each.of_forall (h : ∀ before, ∀ e ∈ b, P before e) : Each P b :=
  fun before e after hsplit => h before e (by simp [hsplit])

end Monitor
