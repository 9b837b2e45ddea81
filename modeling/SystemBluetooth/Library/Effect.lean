/-!
# Computations that change a state and may stop

An `Effect σ ε α` runs on a state `σ`. It either returns a value of `α` or stops
with a reason of `ε`; the state reached is kept in both cases, so an observation
recorded in the state survives a stop. This is what separates a computation that
never returns from one that has no effect.

`wp` is the weakest precondition of such a computation with one postcondition for
each way to end. The rewriting rules execute ordinary code symbolically; loops and
calls are meant to be discharged by `wp_mono` from a specification proved once.
-/

/-- A computation on `σ` that returns an `α` or stops with an `ε`. -/
def Effect (σ ε α : Type) : Type := σ → Except ε α × σ

namespace Effect

variable {σ ε α β : Type}

protected def pure (a : α) : Effect σ ε α := fun s => (.ok a, s)

protected def bind (c : Effect σ ε α) (f : α → Effect σ ε β) : Effect σ ε β := fun s =>
  match c s with
  | (.ok a, t) => f a t
  | (.error e, t) => (.error e, t)

instance : Monad (Effect σ ε) where
  pure := Effect.pure
  bind := Effect.bind

/-- The current state. -/
def get : Effect σ ε σ := fun s => (.ok s, s)

/-- A value read off the current state. -/
def gets (f : σ → α) : Effect σ ε α := fun s => (.ok (f s), s)

/-- A state change that cannot fail. -/
def modify (f : σ → σ) : Effect σ ε Unit := fun s => (.ok (), f s)

/-- Stop at once, keeping the state. -/
def stop (e : ε) : Effect σ ε α := fun s => (.error e, s)

/-- A result that depends on no state. -/
def lift (result : Except ε α) : Effect σ ε α := fun s => (result, s)

/-- Run `c` if `p` holds. -/
def when (p : Prop) [Decidable p] (c : Effect σ ε Unit) : Effect σ ε Unit :=
  if p then c else pure ()

/-- Return what `c` ends with, whether it returns or stops with it. A jump to the exit of
a function is a stop that carries the locals the exit looks at. -/
def merge {ε' : Type} (c : Effect σ α α) : Effect σ ε' α := fun s =>
  match c s with
  | (.ok a, t) => (.ok a, t)
  | (.error a, t) => (.ok a, t)

section Equations

variable {c : Effect σ ε α} {f : α → Effect σ ε β} {s t : σ}

@[simp] theorem pure_apply (a : α) (s : σ) : (pure a : Effect σ ε α) s = (.ok a, s) := rfl

@[simp] theorem get_apply (s : σ) : (get : Effect σ ε σ) s = (.ok s, s) := rfl

@[simp] theorem gets_apply (f : σ → α) (s : σ) :
    (gets f : Effect σ ε α) s = (.ok (f s), s) := rfl

@[simp] theorem modify_apply (f : σ → σ) (s : σ) :
    (modify f : Effect σ ε Unit) s = (.ok (), f s) := rfl

@[simp] theorem stop_apply (e : ε) (s : σ) : (stop e : Effect σ ε α) s = (.error e, s) := rfl

@[simp] theorem lift_apply (result : Except ε α) (s : σ) :
    (lift result : Effect σ ε α) s = (result, s) := rfl

theorem when_pos {p : Prop} [Decidable p] (h : p) (c : Effect σ ε Unit) : when p c = c :=
  if_pos h

theorem when_neg {p : Prop} [Decidable p] (h : ¬ p) (c : Effect σ ε Unit) :
    when p c = pure () :=
  if_neg h

theorem bind_apply (c : Effect σ ε α) (f : α → Effect σ ε β) (s : σ) :
    (c >>= f) s = match c s with
      | (.ok a, t) => f a t
      | (.error e, t) => (.error e, t) := rfl

/-- A first part that returns hands its value and state to the second. -/
theorem bind_ok {a : α} (h : c s = (.ok a, t)) : (c >>= f) s = f a t := by
  rw [bind_apply, h]

/-- A first part that stops ends the whole computation. -/
theorem bind_error {e : ε} (h : c s = (.error e, t)) : (c >>= f) s = (.error e, t) := by
  rw [bind_apply, h]

theorem merge_ok {ε' : Type} {c : Effect σ α α} {a : α} (h : c s = (.ok a, t)) :
    (merge c : Effect σ ε' α) s = (.ok a, t) := by
  rw [merge, h]

theorem merge_error {ε' : Type} {c : Effect σ α α} {a : α} (h : c s = (.error a, t)) :
    (merge c : Effect σ ε' α) s = (.ok a, t) := by
  rw [merge, h]

/-- A first part may be replaced by one that ends alike, even from another state. -/
theorem bind_congr {c' : Effect σ ε α} (h : c s = c' t) : (c >>= f) s = (c' >>= f) t := by
  rw [bind_apply, bind_apply, h]

theorem merge_congr {ε' : Type} {c c' : Effect σ α α} (h : c s = c' t) :
    (merge c : Effect σ ε' α) s = (merge c' : Effect σ ε' α) t := by
  rw [merge, merge, h]

/-- The grouping of three parts does not matter. -/
theorem bind_assoc {γ : Type} (c : Effect σ ε α) (f : α → Effect σ ε β)
    (g : β → Effect σ ε γ) : (c >>= f) >>= g = c >>= fun a => f a >>= g := by
  funext s
  rcases h : c s with ⟨e | a, t⟩
  · rw [bind_error (bind_error h), bind_error h]
  · rw [bind_apply, bind_ok h, bind_ok h, bind_apply]

@[simp] theorem pure_bind_apply (a : α) (f : α → Effect σ ε β) (s : σ) :
    ((pure a : Effect σ ε α) >>= f) s = f a s := rfl

@[simp] theorem get_bind_apply (f : σ → Effect σ ε β) (s : σ) : (get >>= f) s = f s s := rfl

@[simp] theorem gets_bind_apply (g : σ → α) (f : α → Effect σ ε β) (s : σ) :
    (gets g >>= f) s = f (g s) s := rfl

@[simp] theorem modify_bind_apply (g : σ → σ) (f : Unit → Effect σ ε β) (s : σ) :
    (modify g >>= f) s = f () (g s) := rfl

@[simp] theorem stop_bind_apply (e : ε) (f : α → Effect σ ε β) (s : σ) :
    ((stop e : Effect σ ε α) >>= f) s = (.error e, s) := rfl

end Equations

/-- Whatever way `c` ends from `s`, its own postcondition holds: `Q` of the value and
state it returns with, `E` of the reason and state it stops with. -/
def wp (c : Effect σ ε α) (Q : α → σ → Prop) (E : ε → σ → Prop) (s : σ) : Prop :=
  match c s with
  | (.ok a, t) => Q a t
  | (.error e, t) => E e t

section WeakestPrecondition

variable {c : Effect σ ε α} {f : α → Effect σ ε β} {s t : σ}
variable {Q Q' : α → σ → Prop} {E E' : ε → σ → Prop} {R : β → σ → Prop}

theorem wp_of_ok {a : α} (h : c s = (.ok a, t)) : wp c Q E s ↔ Q a t := by
  simp only [wp, h]

theorem wp_of_error {e : ε} (h : c s = (.error e, t)) : wp c Q E s ↔ E e t := by
  simp only [wp, h]

@[simp] theorem wp_pure {a : α} : wp (pure a) Q E s ↔ Q a s := Iff.rfl

@[simp] theorem wp_get {Q : σ → σ → Prop} : wp get Q E s ↔ Q s s := Iff.rfl

@[simp] theorem wp_gets {f : σ → α} : wp (gets f) Q E s ↔ Q (f s) s := Iff.rfl

@[simp] theorem wp_modify {f : σ → σ} {Q : Unit → σ → Prop} :
    wp (modify f) Q E s ↔ Q () (f s) := Iff.rfl

@[simp] theorem wp_when {p : Prop} [Decidable p] {c : Effect σ ε Unit}
    {Q : Unit → σ → Prop} :
    wp (when p c) Q E s ↔ (p → wp c Q E s) ∧ (¬ p → Q () s) := by
  by_cases hp : p
  · simp [when_pos hp, hp]
  · simp [when_neg hp, hp]

@[simp] theorem wp_stop {e : ε} : wp (stop e : Effect σ ε α) Q E s ↔ E e s := Iff.rfl

/-- The second part runs from the state the first returns with. -/
@[simp] theorem wp_bind :
    wp (c >>= f) R E s ↔ wp c (fun a t => wp (f a) R E t) E s := by
  rcases h : c s with ⟨a | a, t⟩
  · rw [wp_of_error (bind_error h), wp_of_error h]
  · simp only [wp, bind_ok h, h]

theorem wp_mono (h : wp c Q E s) (hQ : ∀ a t, Q a t → Q' a t) (hE : ∀ e t, E e t → E' e t) :
    wp c Q' E' s := by
  unfold wp at *
  split at h
  · exact hQ _ _ h
  · exact hE _ _ h

theorem wp_and (h : wp c Q E s) (h' : wp c Q' E' s) :
    wp c (fun a t => Q a t ∧ Q' a t) (fun e t => E e t ∧ E' e t) s := by
  unfold wp at *
  split
  · rename_i hc
    simp only [hc] at h h'
    exact ⟨h, h'⟩
  · rename_i hc
    simp only [hc] at h h'
    exact ⟨h, h'⟩

/-- What holds of every end holds of the state reached. -/
theorem wp_end {P : σ → Prop} (h : wp c (fun _ t => P t) (fun _ t => P t) s) : P (c s).2 := by
  rcases hc : c s with ⟨e | a, t⟩
  · exact (wp_of_error hc).mp h
  · exact (wp_of_ok hc).mp h

/-- Use a specification of the first part without unfolding it. -/
theorem wp_seq {R : β → σ → Prop} (first : wp c Q E s)
    (second : ∀ a t, Q a t → wp (f a) R E t) : wp (c >>= f) R E s :=
  wp_bind.mpr (wp_mono first second (fun _ _ h => h))

end WeakestPrecondition

/-- `c` relates every state it starts in to every state it ends in, returning or not. -/
def Keeps (R : σ → σ → Prop) (c : Effect σ ε α) : Prop :=
  ∀ s, wp c (fun _ t => R s t) (fun _ t => R s t) s

namespace Keeps

variable {R : σ → σ → Prop} {c : Effect σ ε α} {f : α → Effect σ ε β}

theorem pure (refl : ∀ s, R s s) (a : α) : Keeps (ε := ε) R (Pure.pure a) := fun s => refl s

theorem gets (refl : ∀ s, R s s) (f : σ → α) : Keeps (ε := ε) R (Effect.gets f) :=
  fun s => refl s

theorem stop (refl : ∀ s, R s s) (e : ε) : Keeps R (Effect.stop e : Effect σ ε α) :=
  fun s => refl s

theorem modify {g : σ → σ} (h : ∀ s, R s (g s)) : Keeps (ε := ε) R (Effect.modify g) := h

theorem when {p : Prop} [Decidable p] {c : Effect σ ε Unit} (refl : ∀ s, R s s)
    (h : Keeps R c) : Keeps R (Effect.when p c) :=
  fun s => wp_when.mpr ⟨fun _ => h s, fun _ => refl s⟩

theorem bind (trans : ∀ s t u, R s t → R t u → R s u) (first : Keeps R c)
    (second : ∀ a, Keeps R (f a)) : Keeps R (c >>= f) := by
  intro s
  refine wp_bind.mpr (wp_mono (first s) (fun a t hst => ?_) (fun _ _ h => h))
  exact wp_mono (second a t) (fun _ u htu => trans s t u hst htu)
    (fun _ u htu => trans s t u hst htu)

theorem apply (h : Keeps R c) (s : σ) : R s (c s).2 := wp_end (h s)

theorem merge {ε' : Type} {c : Effect σ α α} (h : Keeps R c) :
    Keeps R (Effect.merge c : Effect σ ε' α) := by
  intro s
  rcases hc : c s with ⟨e | a, t⟩
  · exact (wp_of_ok (merge_error hc)).mpr ((wp_of_error hc).mp (h s))
  · exact (wp_of_ok (merge_ok hc)).mpr ((wp_of_ok hc).mp (h s))

end Keeps

/-- Wherever `c` starts, if it stops, it is for a reason as `E` says. -/
def Stops (E : ε → Prop) (c : Effect σ ε α) : Prop :=
  ∀ s, wp c (fun _ _ => True) (fun e _ => E e) s

namespace Stops

variable {E : ε → Prop} {c : Effect σ ε α} {f : α → Effect σ ε β}

theorem pure (a : α) : Stops E (Pure.pure a : Effect σ ε α) := fun _ => trivial

theorem gets (f : σ → α) : Stops E (Effect.gets f : Effect σ ε α) := fun _ => trivial

theorem modify (f : σ → σ) : Stops E (Effect.modify f : Effect σ ε Unit) := fun _ => trivial

theorem stop {e : ε} (he : E e) : Stops E (Effect.stop e : Effect σ ε α) := fun _ => he

theorem when {p : Prop} [Decidable p] {c : Effect σ ε Unit} (h : Stops E c) :
    Stops E (Effect.when p c) :=
  fun s => wp_when.mpr ⟨fun _ => h s, fun _ => trivial⟩

theorem bind (first : Stops E c) (second : ∀ a, Stops E (f a)) : Stops E (c >>= f) :=
  fun s => wp_seq (first s) fun a t _ => second a t

end Stops

/-- From a state with `P`, `c` returns in one with `Q` or stops in one with `E`. -/
def Leads (P Q E : σ → Prop) (c : Effect σ ε α) : Prop :=
  ∀ s, P s → wp c (fun _ t => Q t) (fun _ t => E t) s

namespace Leads

variable {P P' Q Q' R E : σ → Prop} {c : Effect σ ε α} {f : α → Effect σ ε β}

theorem pure (a : α) : Leads P P E (Pure.pure a : Effect σ ε α) := fun _ hs => hs

theorem get : Leads P P E (Effect.get : Effect σ ε σ) := fun _ hs => hs

theorem gets (f : σ → α) : Leads P P E (Effect.gets f : Effect σ ε α) := fun _ hs => hs

theorem stop (h : ∀ s, P s → E s) (e : ε) : Leads P Q E (Effect.stop e : Effect σ ε α) := h

theorem modify {g : σ → σ} (h : ∀ s, P s → Q (g s)) :
    Leads P Q E (Effect.modify g : Effect σ ε Unit) := h

theorem bind (first : Leads P R E c) (second : ∀ a, Leads R Q E (f a)) :
    Leads P Q E (c >>= f) :=
  fun s hs => wp_seq (first s hs) fun a t ht => second a t ht

theorem when {p : Prop} [Decidable p] {c : Effect σ ε Unit} (h : p → Leads P Q E c)
    (skip : ¬ p → ∀ s, P s → Q s) : Leads P Q E (Effect.when p c) :=
  fun s hs => wp_when.mpr ⟨fun hp => h hp s hs, fun hp => skip hp s hs⟩

theorem consequence (h : Leads P Q E c) (pre : ∀ s, P' s → P s) (post : ∀ s, Q s → Q' s) :
    Leads P' Q' E c :=
  fun s hs => wp_mono (h s (pre s hs)) (fun _ => post) fun _ _ ht => ht

end Leads

end Effect
