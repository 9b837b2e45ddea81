import Mathlib.Data.List.Basic

/-!
# Sessions of requests

A session is a list of requests served one after the other by a machine that keeps a state.
A machine that answers every request as another one does, and keeps the two states related,
answers whole sessions alike. Requests may have to be admissible.
-/

namespace Session

variable {σ τ ι κ β γ : Type}

/-- The replies to the requests, and the state after them. -/
def run (step : σ → ι → β × σ) : List ι → σ → List β × σ
  | [], s => ([], s)
  | i :: rest, s =>
      let (reply, t) := step s i
      let (replies, u) := run step rest t
      (reply :: replies, u)

variable {step : σ → ι → β × σ}

theorem run_cons (i : ι) (rest : List ι) (s : σ) :
    run step (i :: rest) s =
      ((step s i).1 :: (run step rest (step s i).2).1, (run step rest (step s i).2).2) := rfl

/-- One request is answered as the other machine answers what it stands for. -/
def Refines (step : σ → ι → β × σ) (spec : τ → κ → γ × τ) (request : ι → κ) (reply : β → γ)
    (admissible : ι → Prop) (rel : τ → σ → Prop) : Prop :=
  ∀ a s i, rel a s → admissible i →
    reply (step s i).1 = (spec a (request i)).1 ∧ rel (spec a (request i)).2 (step s i).2

theorem Refines.run {spec : τ → κ → γ × τ} {request : ι → κ} {reply : β → γ}
    {admissible : ι → Prop} {rel : τ → σ → Prop}
    (h : Refines step spec request reply admissible rel) {a : τ} {s : σ} (hrel : rel a s)
    {requests : List ι} (hall : ∀ i ∈ requests, admissible i) :
    (Session.run step requests s).1.map reply = (Session.run spec (requests.map request) a).1 ∧
      rel (Session.run spec (requests.map request) a).2 (Session.run step requests s).2 := by
  induction requests generalizing a s with
  | nil => exact ⟨rfl, hrel⟩
  | cons i rest ih =>
      rw [List.forall_mem_cons] at hall
      obtain ⟨hreply, hnext⟩ := h a s i hrel hall.1
      obtain ⟨hreplies, hend⟩ := ih hnext hall.2
      rw [List.map_cons, run_cons, run_cons]
      exact ⟨by rw [List.map_cons, hreply, hreplies], hend⟩

end Session
