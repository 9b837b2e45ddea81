import Mathlib.Data.List.Basic
import Mathlib.Logic.Hydra
import Mathlib.Logic.Relation

/-!
# Functions that start threads

A function makes calls, starts threads and waits for them; a thread only makes calls. What a
call answers is up to the kernel, and a call that it does not answer blocks. The steps of the
function and of its threads interleave in any order, and every call is recorded.

`wp` follows the function alone: which threads it has not waited for, and what it has called
itself. It is a weakest precondition over rules that say which calls are allowed when; that the
rules are kept in every interleaving is shown once, in `Reaches.ok`.
-/

namespace Threads

/-- The calls of a thread, one after the other, each with what comes after each answer. -/
inductive Thread (C ρ α : Type) where
  | done (a : α)
  | call (c : C) (next : ρ → Thread C ρ α)

/-- A function that can also start a thread, wait for one by its number, and repeat some calls
as long as they yield `true`. -/
inductive Program (C ρ α : Type) where
  | ret (a : α)
  | call (c : C) (next : ρ → Program C ρ α)
  | fork (child : Thread C ρ Unit) (next : Nat → Program C ρ α)
  | join (t : Nat) (next : Program C ρ α)
  | loop (body : Thread C ρ Bool) (next : Program C ρ α)

variable {C ρ σ α β γ : Type}

namespace Thread

def bind : Thread C ρ α → (α → Thread C ρ β) → Thread C ρ β
  | done a, f => f a
  | call c next, f => call c fun r => (next r).bind f

instance : Monad (Thread C ρ) where
  pure := done
  bind := bind

/-- The calls of a thread, and then a function. -/
def andThen : Thread C ρ α → (α → Program C ρ β) → Program C ρ β
  | done a, f => f a
  | call c next, f => .call c fun r => (next r).andThen f

/-- Every call of the thread is like this. -/
def All (P : C → Prop) : Thread C ρ α → Prop
  | done _ => True
  | call c next => P c ∧ ∀ r, (next r).All P

/-- With the calls made so far, each call is allowed, and `Q` holds at the end. -/
def wp (P : List (C × ρ) → C → Prop) : Thread C ρ α → (α → List (C × ρ) → Prop) →
    List (C × ρ) → Prop
  | done a, Q, h => Q a h
  | call c next, Q, h => P h c ∧ ∀ r, (next r).wp P Q (h ++ [(c, r)])

end Thread

namespace Program

def bind : Program C ρ α → (α → Program C ρ β) → Program C ρ β
  | ret a, f => f a
  | call c next, f => call c fun r => (next r).bind f
  | fork child next, f => fork child fun t => (next t).bind f
  | join t next, f => join t (next.bind f)
  | loop body next, f => loop body (next.bind f)

instance : Monad (Program C ρ) where
  pure := ret
  bind := bind

instance : MonadLift (Thread C ρ) (Program C ρ) where
  monadLift t := t.andThen ret

end Program

/-- `pthread_create`. -/
def create (child : Thread C ρ Unit) : Program C ρ Nat := .fork child .ret

/-- `pthread_join`. -/
def wait (t : Nat) : Program C ρ Unit := .join t (.ret ())

def repeatWhile (body : Thread C ρ Bool) : Program C ρ Unit := .loop body (.ret ())

/-- As many threads of a kind. -/
def createAll (child : Thread C ρ Unit) : Nat → Program C ρ (List Nat)
  | 0 => return []
  | n + 1 => do
      let t ← create child
      let ts ← createAll child n
      return t :: ts

def waitAll : List Nat → Program C ρ Unit
  | [] => return ()
  | t :: ts => do
      wait t
      waitAll ts

/-! ### Runs -/

/-- A call made, by a thread or by the function itself. -/
structure Event (C ρ : Type) where
  caller : Option Nat
  call : C
  result : ρ

/-- A function, the threads it has started, what the kernel keeps, and the calls so far. -/
structure Pool (C ρ σ α : Type) where
  main : Program C ρ α
  threads : List (Thread C ρ Unit)
  state : σ
  history : List (Event C ρ)

def Pool.start (main : Program C ρ α) (state : σ) : Pool C ρ σ α := ⟨main, [], state, []⟩

/-- One step, with a kernel that can answer a call and change its state. -/
inductive Step (kernel : σ → C → ρ → σ → Prop) : Pool C ρ σ α → Pool C ρ σ α → Prop where
  | call {c : C} {next : ρ → Program C ρ α} {threads : List (Thread C ρ Unit)} {s s' : σ}
      {history : List (Event C ρ)} {r : ρ} (answer : kernel s c r s') :
      Step kernel ⟨.call c next, threads, s, history⟩
        ⟨next r, threads, s', history ++ [⟨none, c, r⟩]⟩
  | thread {main : Program C ρ α} {t : Nat} {c : C} {next : ρ → Thread C ρ Unit}
      {threads : List (Thread C ρ Unit)} {s s' : σ} {history : List (Event C ρ)} {r : ρ}
      (at_call : threads[t]? = some (.call c next)) (answer : kernel s c r s') :
      Step kernel ⟨main, threads, s, history⟩
        ⟨main, threads.set t (next r), s', history ++ [⟨some t, c, r⟩]⟩
  | fork {child : Thread C ρ Unit} {next : Nat → Program C ρ α}
      {threads : List (Thread C ρ Unit)} {s : σ} {history : List (Event C ρ)} :
      Step kernel ⟨.fork child next, threads, s, history⟩
        ⟨next threads.length, threads ++ [child], s, history⟩
  | join {t : Nat} {next : Program C ρ α} {threads : List (Thread C ρ Unit)} {s : σ}
      {history : List (Event C ρ)} (ended : threads[t]? = some (.done ())) :
      Step kernel ⟨.join t next, threads, s, history⟩ ⟨next, threads, s, history⟩
  | loop {body : Thread C ρ Bool} {next : Program C ρ α} {threads : List (Thread C ρ Unit)}
      {s : σ} {history : List (Event C ρ)} :
      Step kernel ⟨.loop body next, threads, s, history⟩
        ⟨body.andThen fun again => if again then .loop body next else next, threads, s, history⟩

def Reaches (kernel : σ → C → ρ → σ → Prop) : Pool C ρ σ α → Pool C ρ σ α → Prop :=
  Relation.ReflTransGen (Step kernel)

/-- All threads have ended. -/
def Pool.Ended (p : Pool C ρ σ α) : Prop := ∀ thread ∈ p.threads, thread = .done ()

/-- The calls of the function itself. -/
def own (history : List (Event C ρ)) : List (C × ρ) :=
  history.filterMap fun e => if e.caller = none then some (e.call, e.result) else none

@[simp] theorem own_main (history : List (Event C ρ)) (c : C) (r : ρ) :
    own (history ++ [⟨none, c, r⟩]) = own history ++ [(c, r)] := by
  simp [own]

@[simp] theorem own_thread (history : List (Event C ρ)) (t : Nat) (c : C) (r : ρ) :
    own (history ++ [⟨some t, c, r⟩]) = own history := by
  simp [own]

section Composition

variable {kernel : σ → C → ρ → σ → Prop}

theorem Thread.andThen_bind (body : Thread C ρ γ) (g : γ → Program C ρ α)
    (f : α → Program C ρ β) :
    (body.andThen g).bind f = body.andThen fun a => (g a).bind f := by
  induction body with
  | done a => rfl
  | call c next ih => exact congrArg (Program.call c) (funext ih)

def Pool.bind (p : Pool C ρ σ α) (f : α → Program C ρ β) : Pool C ρ σ β :=
  ⟨p.main.bind f, p.threads, p.state, p.history⟩

theorem Step.bind {p q : Pool C ρ σ α} (f : α → Program C ρ β) (h : Step kernel p q) :
    Step kernel (p.bind f) (q.bind f) := by
  cases h with
  | call answer => exact .call answer
  | thread at_call answer => exact .thread at_call answer
  | fork => exact .fork
  | join ended => exact .join ended
  | @loop body next threads s history =>
      have hbind : (body.andThen fun again => if again then .loop body next else next).bind f =
          body.andThen fun again => if again then .loop body (next.bind f) else next.bind f := by
        rw [Thread.andThen_bind]
        refine congrArg _ (funext fun again => ?_)
        cases again <;> rfl
      rw [Pool.bind, Pool.bind, hbind]
      exact .loop

/-- The first part of a function runs as it does by itself. -/
theorem Reaches.bind {p q : Pool C ρ σ α} (f : α → Program C ρ β) (h : Reaches kernel p q) :
    Reaches kernel (p.bind f) (q.bind f) :=
  Relation.ReflTransGen.lift (Pool.bind · f) (fun _ _ hstep => hstep.bind f) _ _ h

theorem Reaches.createAll (child : Thread C ρ Unit) (n : Nat) (threads : List (Thread C ρ Unit))
    (s : σ) (history : List (Event C ρ)) :
    Reaches kernel ⟨createAll child n, threads, s, history⟩
      ⟨.ret (List.range' threads.length n), threads ++ List.replicate n child, s, history⟩ := by
  induction n generalizing threads with
  | zero =>
      rw [List.replicate_zero, List.append_nil]
      exact .refl
  | succ n ih =>
      have hrest := (ih (threads ++ [child])).bind fun ts => .ret (threads.length :: ts)
      rw [List.length_append, List.append_assoc] at hrest
      exact .head .fork hrest

/-- A kernel that answers every call at once, and always the same. -/
def prompt (r : ρ) (_ : Unit) (_ : C) (r' : ρ) (_ : Unit) : Prop := r' = r

section

variable {r : ρ} {c : C} {threads : List (Thread C ρ Unit)} {history : List (Event C ρ)}

theorem prompt_call {next : ρ → Program C ρ α} :
    Step (prompt r) ⟨.call c next, threads, (), history⟩
      ⟨next r, threads, (), history ++ [⟨none, c, r⟩]⟩ := .call rfl

theorem prompt_thread {main : Program C ρ α} (t : Nat) {next : ρ → Thread C ρ Unit}
    (hcall : threads[t]? = some (.call c next)) :
    Step (prompt r) ⟨main, threads, (), history⟩
      ⟨main, threads.set t (next r), (), history ++ [⟨some t, c, r⟩]⟩ := .thread hcall rfl

end

end Composition

/-! ### Rules -/

/-- Which calls are allowed, from the threads that have not been waited for and the calls of the
function so far: to the function, and to a thread that it starts then. `fork` and `join` say
when it may start a thread, and wait; `loop`, whether it may repeat calls. -/
structure Rules (C ρ : Type) where
  call : List Nat → List (C × ρ) → C → Prop
  child : List (C × ρ) → C → Prop
  fork : List (C × ρ) → Prop
  join : List (C × ρ) → Prop
  loop : Prop

variable {R : Rules C ρ}

/-- What holds at the end: of the result, the number of threads started, those that have not
been waited for, and the calls of the function. -/
abbrev Post (C ρ α : Type) := α → Nat → List Nat → List (C × ρ) → Prop

/-- The rules are kept from here on, and `Q` holds at the end. A loop has an invariant. -/
def Program.wp (R : Rules C ρ) : Program C ρ α → Post C ρ α → Nat → List Nat →
    List (C × ρ) → Prop
  | .ret a, Q, n, live, h => Q a n live h
  | .call c next, Q, n, live, h =>
      R.call live h c ∧ ∀ r, (next r).wp R Q n live (h ++ [(c, r)])
  | .fork child next, Q, n, live, h =>
      R.fork h ∧ child.All (R.child h) ∧ (next n).wp R Q (n + 1) (n :: live) h
  | .join t next, Q, n, live, h =>
      t ∈ live ∧ R.join h ∧ next.wp R Q n (live.filter (· ≠ t)) h
  | .loop body next, Q, n, live, h =>
      R.loop ∧ ∃ Inv : List (C × ρ) → Prop, Inv h ∧ ∀ h', Inv h' →
        body.wp (R.call live) (fun again h'' =>
          (again = true → Inv h'') ∧ (again = false → next.wp R Q n live h'')) h'

/-- Nothing is forbidden. -/
def Rules.free : Rules C ρ where
  call _ _ _ := True
  child _ _ := True
  fork _ := True
  join _ := True
  loop := True

section Calculus

variable {n : Nat} {live : List Nat} {h : List (C × ρ)}

@[simp] theorem Thread.wp_pure (P : List (C × ρ) → C → Prop) (a : α)
    (Q : α → List (C × ρ) → Prop) : (pure a : Thread C ρ α).wp P Q h ↔ Q a h := Iff.rfl

@[simp] theorem Thread.wp_bind (P : List (C × ρ) → C → Prop) (x : Thread C ρ α)
    (f : α → Thread C ρ β) (Q : β → List (C × ρ) → Prop) :
    (x >>= f).wp P Q h ↔ x.wp P (fun a h => (f a).wp P Q h) h := by
  induction x generalizing h with
  | done a => exact Iff.rfl
  | call c next ih => exact and_congr_right' (forall_congr' fun r => ih r)

theorem Thread.wp_mono {P : List (C × ρ) → C → Prop} {x : Thread C ρ α}
    {Q Q' : α → List (C × ρ) → Prop} (himp : ∀ a h, Q a h → Q' a h) (hx : x.wp P Q h) :
    x.wp P Q' h := by
  induction x generalizing h with
  | done a => exact himp a h hx
  | call c next ih => exact ⟨hx.1, fun r => ih r (hx.2 r)⟩

theorem Thread.wp_andThen (x : Thread C ρ α) (f : α → Program C ρ β) (Q : Post C ρ β) :
    (x.andThen f).wp R Q n live h ↔
      x.wp (R.call live) (fun a h => (f a).wp R Q n live h) h := by
  induction x generalizing h with
  | done a => exact Iff.rfl
  | call c next ih => exact and_congr_right' (forall_congr' fun r => ih r)

@[simp] theorem Program.wp_pure (a : α) (Q : Post C ρ α) :
    (pure a : Program C ρ α).wp R Q n live h ↔ Q a n live h := Iff.rfl

@[simp] theorem Program.wp_bind (x : Program C ρ α) (f : α → Program C ρ β) (Q : Post C ρ β) :
    (x >>= f).wp R Q n live h ↔ x.wp R (fun a n live h => (f a).wp R Q n live h) n live h := by
  induction x generalizing n live h with
  | ret a => exact Iff.rfl
  | call c next ih => exact and_congr_right' (forall_congr' fun r => ih r)
  | fork child next ih => exact and_congr_right' (and_congr_right' (ih n))
  | join t next ih => exact and_congr_right' (and_congr_right' ih)
  | loop body next ih =>
      have hnext (h : List (C × ρ)) : (Program.bind next f).wp R Q n live h ↔
          next.wp R (fun a n live h => (f a).wp R Q n live h) n live h := ih
      simp only [Bind.bind, Program.bind, Program.wp, hnext]

@[simp] theorem Program.wp_lift (x : Thread C ρ α) (Q : Post C ρ α) :
    (monadLift x : Program C ρ α).wp R Q n live h ↔
      x.wp (R.call live) (fun a h => Q a n live h) h := Thread.wp_andThen x .ret Q

@[simp] theorem Thread.wp_ite (P : List (C × ρ) → C → Prop) {p : Prop} [Decidable p]
    (x y : Thread C ρ α) (Q : α → List (C × ρ) → Prop) :
    (if p then x else y).wp P Q h ↔ if p then x.wp P Q h else y.wp P Q h := by
  split <;> rfl

@[simp] theorem Program.wp_ite {p : Prop} [Decidable p] (x y : Program C ρ α) (Q : Post C ρ α) :
    (if p then x else y).wp R Q n live h ↔
      if p then x.wp R Q n live h else y.wp R Q n live h := by
  split <;> rfl

@[simp] theorem wp_create (child : Thread C ρ Unit) (Q : Post C ρ Nat) :
    (create child).wp R Q n live h ↔
      R.fork h ∧ child.All (R.child h) ∧ Q n (n + 1) (n :: live) h := Iff.rfl

@[simp] theorem wp_wait (t : Nat) (Q : Post C ρ Unit) :
    (wait t : Program C ρ Unit).wp R Q n live h ↔
      t ∈ live ∧ R.join h ∧ Q () n (live.filter (· ≠ t)) h := Iff.rfl

theorem wp_repeatWhile {body : Thread C ρ Bool} {Q : Post C ρ Unit}
    {Inv : List (C × ρ) → Prop} (hloop : R.loop) (hinv : Inv h) (hbody : ∀ h', Inv h' →
      body.wp (R.call live) (fun again h'' =>
        (again = true → Inv h'') ∧ (again = false → Q () n live h'')) h') :
    (repeatWhile body).wp R Q n live h := ⟨hloop, Inv, hinv, hbody⟩

theorem Program.wp_mono {x : Program C ρ α} {Q Q' : Post C ρ α}
    (himp : ∀ a n live h, Q a n live h → Q' a n live h) (hx : x.wp R Q n live h) :
    x.wp R Q' n live h := by
  induction x generalizing n live h with
  | ret a => exact himp a n live h hx
  | call c next ih => exact ⟨hx.1, fun r => ih r (hx.2 r)⟩
  | fork child next ih => exact ⟨hx.1, hx.2.1, ih n hx.2.2⟩
  | join t next ih => exact ⟨hx.1, hx.2.1, ih hx.2.2⟩
  | loop body next ih =>
      obtain ⟨hloop, Inv, hinv, hbody⟩ := hx
      refine ⟨hloop, Inv, hinv, fun h' hh' => Thread.wp_mono (fun again h'' hagain => ?_)
        (hbody h' hh')⟩
      exact ⟨hagain.1, fun hfalse => ih (hagain.2 hfalse)⟩

theorem Thread.all_of_forall {P : C → Prop} (hP : ∀ c, P c) (x : Thread C ρ α) : x.All P := by
  induction x with
  | done a => trivial
  | call c next ih => exact ⟨hP c, ih⟩

/-- The threads get the next numbers. -/
theorem wp_createAll {child : Thread C ρ Unit} {k : Nat} {Q : Post C ρ (List Nat)}
    (hfork : R.fork h) (hchild : child.All (R.child h))
    (hQ : Q (List.range' n k) (n + k) ((List.range' n k).reverse ++ live) h) :
    (createAll child k).wp R Q n live h := by
  induction k generalizing n live Q with
  | zero => exact hQ
  | succ k ih =>
      rw [createAll, Program.wp_bind, wp_create]
      refine ⟨hfork, hchild, ?_⟩
      rw [Program.wp_bind]
      refine ih ?_
      rw [Program.wp_pure]
      rw [List.range'_succ, List.reverse_cons, List.append_assoc] at hQ
      rwa [Nat.add_assoc, Nat.add_comm 1]

/-- All threads that have been started are waited for. -/
theorem wp_waitAll {ts : List Nat} {Q : Post C ρ Unit} (hnodup : ts.Nodup)
    (hlive : ∀ t ∈ ts, t ∈ live) (hjoin : R.join h)
    (hQ : Q () n (live.filter (· ∉ ts)) h) : (waitAll ts : Program C ρ Unit).wp R Q n live h := by
  induction ts generalizing live with
  | nil =>
      rw [waitAll, Program.wp_pure]
      simpa using hQ
  | cons t ts ih =>
      rw [List.nodup_cons] at hnodup
      rw [List.forall_mem_cons] at hlive
      rw [waitAll, Program.wp_bind, wp_wait]
      refine ⟨hlive.1, hjoin, ih hnodup.2 (fun u hu => ?_) ?_⟩
      · have hne : u ≠ t := fun heq => hnodup.1 (heq ▸ hu)
        simp [hlive.2 u hu, hne]
      · have hfilter : (live.filter (· ≠ t)).filter (· ∉ ts) = live.filter (· ∉ t :: ts) := by
          rw [List.filter_filter]
          refine List.filter_congr fun u _ => ?_
          simp [Bool.and_comm]
        rwa [hfilter]

/-- All threads are those that have just been started. -/
theorem wp_waitAll_created {k : Nat} {Q : Post C ρ Unit} (hjoin : R.join h) (hQ : Q () n [] h) :
    (waitAll (List.range' 0 k) : Program C ρ Unit).wp R Q n
      ((List.range' 0 k).reverse ++ []) h := by
  have hnone : ((List.range' 0 k).reverse ++ []).filter (· ∉ List.range' 0 k) = [] := by
    simp [List.filter_eq_nil_iff]
  refine wp_waitAll List.nodup_range' (fun t ht => ?_) hjoin ?_
  · rwa [List.append_nil, List.mem_reverse]
  · rwa [hnone]

end Calculus

/-! ### Every interleaving keeps the rules -/

/-- The function is where `wp` has come to, the threads it has waited for have ended, and every
thread goes by the rules it was started under. -/
structure Pool.Ok (R : Rules C ρ) (Q : Post C ρ α) (p : Pool C ρ σ α) (live : List Nat) :
    Prop where
  main : p.main.wp R Q p.threads.length live (own p.history)
  started : ∀ t ∈ live, t < p.threads.length
  ended : ∀ t thread, p.threads[t]? = some thread → t ∉ live → thread = .done ()
  children : ∀ thread ∈ p.threads,
    ∃ h, h <+: own p.history ∧ R.fork h ∧ thread.All (R.child h)

variable {kernel : σ → C → ρ → σ → Prop} {Q : Post C ρ α} {p q : Pool C ρ σ α} {live : List Nat}

theorem Pool.Ok.start {main : Program C ρ α} (h : main.wp R Q 0 [] []) (s : σ) :
    (Pool.start main s).Ok R Q [] where
  main := h
  started t ht := by cases ht
  ended t thread ht := by simp [Pool.start] at ht
  children thread ht := by simp [Pool.start] at ht

section Steps

variable {threads : List (Thread C ρ Unit)} {s s' : σ} {history : List (Event C ρ)}

theorem Pool.Ok.call {c : C} {next : ρ → Program C ρ α} {r : ρ}
    (h : (⟨.call c next, threads, s, history⟩ : Pool C ρ σ α).Ok R Q live) :
    (⟨next r, threads, s', history ++ [⟨none, c, r⟩]⟩ : Pool C ρ σ α).Ok R Q live where
  main := by
    rw [own_main]
    exact h.main.2 r
  started := h.started
  ended := h.ended
  children thread hthread := by
    obtain ⟨h', hh', hrest⟩ := h.children thread hthread
    exact ⟨h', hh'.trans (by rw [own_main]; exact List.prefix_append _ _), hrest⟩

theorem Pool.Ok.thread {main : Program C ρ α} {t : Nat} {c : C} {next : ρ → Thread C ρ Unit}
    {r : ρ} (hcall : threads[t]? = some (.call c next))
    (h : (⟨main, threads, s, history⟩ : Pool C ρ σ α).Ok R Q live) :
    (⟨main, threads.set t (next r), s', history ++ [⟨some t, c, r⟩]⟩ : Pool C ρ σ α).Ok R Q
      live where
  main := by
    rw [own_thread, List.length_set]
    exact h.main
  started u hu := by
    rw [List.length_set]
    exact h.started u hu
  ended u thread hu hnot := by
    rw [List.getElem?_set] at hu
    split at hu
    · rename_i heq
      subst heq
      exact absurd (h.ended _ _ hcall hnot) (by simp)
    · exact h.ended u thread hu hnot
  children thread hthread := by
    rw [own_thread]
    rcases List.mem_or_eq_of_mem_set hthread with hmem | rfl
    · exact h.children thread hmem
    · obtain ⟨h', hh', hfork, hall⟩ := h.children _ (List.mem_of_getElem? hcall)
      exact ⟨h', hh', hfork, hall.2 r⟩

/-- A thread that still has a call to make has not been waited for. -/
theorem Pool.Ok.running {t : Nat} {c : C} {next : ρ → Thread C ρ Unit}
    (hcall : p.threads[t]? = some (.call c next)) (h : p.Ok R Q live) : t ∈ live := by
  by_contra hnot
  exact absurd (h.ended t _ hcall hnot) (by simp)

theorem Pool.Ok.fork {child : Thread C ρ Unit} {next : Nat → Program C ρ α}
    (h : (⟨.fork child next, threads, s, history⟩ : Pool C ρ σ α).Ok R Q live) :
    (⟨next threads.length, threads ++ [child], s, history⟩ : Pool C ρ σ α).Ok R Q
      (threads.length :: live) where
  main := by
    rw [List.length_append]
    exact h.main.2.2
  started t ht := by
    rw [List.length_append, List.length_singleton]
    rcases List.mem_cons.mp ht with rfl | hmem
    · exact Nat.lt_succ_self _
    · exact Nat.lt_succ_of_lt (h.started t hmem)
  ended t thread ht hnot := by
    rw [List.mem_cons, not_or] at hnot
    rw [List.getElem?_append] at ht
    split at ht
    · exact h.ended t thread ht hnot.2
    · rename_i hle
      obtain ⟨hlt, -⟩ := List.getElem?_eq_some_iff.mp ht
      rw [List.length_singleton] at hlt
      exact absurd (by omega) hnot.1
  children thread hthread := by
    rcases List.mem_append.mp hthread with hmem | hmem
    · exact h.children thread hmem
    · obtain rfl := List.mem_singleton.mp hmem
      exact ⟨_, List.prefix_rfl, h.main.1, h.main.2.1⟩

theorem Pool.Ok.join {t : Nat} {next : Program C ρ α} (hended : threads[t]? = some (.done ()))
    (h : (⟨.join t next, threads, s, history⟩ : Pool C ρ σ α).Ok R Q live) :
    (⟨next, threads, s, history⟩ : Pool C ρ σ α).Ok R Q (live.filter (· ≠ t)) where
  main := h.main.2.2
  started u hu := h.started u (List.mem_filter.mp hu).1
  ended u thread hu hnot := by
    by_cases heq : u = t
    · subst heq
      rw [show (⟨.join u next, threads, s, history⟩ : Pool C ρ σ α).threads = threads from rfl,
        hended] at hu
      exact (Option.some.inj hu).symm
    · exact h.ended u thread hu fun hmem => hnot (by simp [hmem, heq])
  children := h.children

theorem Pool.Ok.loop {body : Thread C ρ Bool} {next : Program C ρ α}
    (h : (⟨.loop body next, threads, s, history⟩ : Pool C ρ σ α).Ok R Q live) :
    (⟨body.andThen fun again => if again then .loop body next else next, threads, s, history⟩ :
      Pool C ρ σ α).Ok R Q live where
  main := by
    obtain ⟨hloop, Inv, hinv, hbody⟩ := h.main
    refine (Thread.wp_andThen body _ Q).mpr (Thread.wp_mono (fun again h' hagain => ?_)
      (hbody _ hinv))
    cases again with
    | true => exact ⟨hloop, Inv, hagain.1 rfl, hbody⟩
    | false => exact hagain.2 rfl
  started := h.started
  ended := h.ended
  children := h.children

end Steps

/-- One step, of the function or of a thread. -/
theorem Step.ok (hstep : Step kernel p q) (h : p.Ok R Q live) : ∃ live', q.Ok R Q live' := by
  cases hstep with
  | call _ => exact ⟨live, h.call⟩
  | thread at_call _ => exact ⟨live, h.thread at_call⟩
  | fork => exact ⟨_, h.fork⟩
  | join ended => exact ⟨_, h.join ended⟩
  | loop => exact ⟨live, h.loop⟩

theorem Reaches.ok (hreach : Reaches kernel p q) (h : p.Ok R Q live) :
    ∃ live', q.Ok R Q live' := by
  induction hreach with
  | refl => exact ⟨live, h⟩
  | tail _ hstep ih =>
      obtain ⟨live', h'⟩ := ih
      exact hstep.ok h'

/-- What the rules keep of the calls made so far, by all. -/
theorem Reaches.keeps {I : List (Event C ρ) → Prop} {main : Program C ρ α} {s : σ}
    (hmain : main.wp R Q 0 [] []) (hstart : I [])
    (hcall : ∀ live history c r, R.call live (own history) c → I history →
      I (history ++ [⟨none, c, r⟩]))
    (hchild : ∀ h history t c r, R.child h c → I history → I (history ++ [⟨some t, c, r⟩]))
    (hreach : Reaches kernel (Pool.start main s) p) : I p.history := by
  induction hreach with
  | refl => exact hstart
  | tail hreach hstep ih =>
      obtain ⟨live, hok⟩ := Reaches.ok hreach (.start hmain s)
      cases hstep with
      | call _ => exact hcall _ _ _ _ hok.main.1 ih
      | thread at_call _ =>
          obtain ⟨h, -, -, hall⟩ := hok.children _ (List.mem_of_getElem? at_call)
          exact hchild h _ _ _ _ hall.1 ih
      | fork => exact ih
      | join _ => exact ih
      | loop => exact ih

theorem Pool.Ok.allEnded (h : p.Ok R Q []) : p.Ended := by
  intro thread hthread
  obtain ⟨t, ht⟩ := List.getElem?_of_mem hthread
  exact h.ended t thread ht List.not_mem_nil

theorem Pool.Ok.returned {a : α} (h : p.Ok R Q live) (hret : p.main = .ret a) :
    Q a p.threads.length live (own p.history) := by
  have hmain := h.main
  rwa [hret] at hmain

/-! ### A call that is the last -/

/-- What `closes` is only called by the function itself, when no thread is left, and nothing
follows it. -/
structure Rules.Closing (R : Rules C ρ) (closes : C → Prop) : Prop where
  call : ∀ live h c, R.call live h c → (closes c → live = []) ∧ ∀ e ∈ h, ¬ closes e.1
  child : ∀ h c, R.child h c → ¬ closes c
  fork : ∀ h, R.fork h → ∀ e ∈ h, ¬ closes e.1

variable {closes : C → Prop}

/-- In the order of the calls of all, none follows what closes, which has been called by the
function, and no thread is left then. -/
structure Closed (closes : C → Prop) (p : Pool C ρ σ α) (live : List Nat) : Prop where
  ordered : p.history.Pairwise fun e _ => ¬ closes e.call
  alone : ∀ e ∈ p.history, closes e.call → e.caller = none ∧ live = []

theorem mem_own {history : List (Event C ρ)} {e : Event C ρ} (he : e ∈ history)
    (hmain : e.caller = none) : (e.call, e.result) ∈ own history :=
  List.mem_filterMap.mpr ⟨e, he, if_pos hmain⟩

theorem of_mem_own {history : List (Event C ρ)} {c : C} {r : ρ} (he : (c, r) ∈ own history) :
    ⟨none, c, r⟩ ∈ history := by
  obtain ⟨⟨caller, c', r'⟩, hmem, heq⟩ := List.mem_filterMap.mp he
  split at heq
  · rename_i hcaller
    cases heq
    exact hcaller ▸ hmem
  · cases heq

theorem Step.closed (hR : R.Closing closes) (hstep : Step kernel p q) (h : p.Ok R Q live)
    (hclosed : Closed closes p live) : ∃ live', q.Ok R Q live' ∧ Closed closes q live' := by
  cases hstep with
  | @call c next threads s s' history r answer =>
      have hopen : ∀ e ∈ history, ¬ closes e.call := fun e he hcloses =>
        (hR.call _ _ _ h.main.1).2 _ (mem_own he (hclosed.alone e he hcloses).1) hcloses
      refine ⟨live, h.call, ?_, fun e he hcloses => ?_⟩
      · exact List.pairwise_append.mpr ⟨hclosed.ordered, List.pairwise_singleton _ _,
          fun e he _ _ => hopen e he⟩
      · rcases List.mem_append.mp he with hmem | hmem
        · exact absurd hcloses (hopen e hmem)
        · obtain rfl := List.mem_singleton.mp hmem
          exact ⟨rfl, (hR.call _ _ _ h.main.1).1 hcloses⟩
  | @thread main t c next threads s s' history r at_call answer =>
      have hrunning := h.running at_call
      have hopen : ∀ e ∈ history, ¬ closes e.call := by
        intro e he hcloses
        rw [(hclosed.alone e he hcloses).2] at hrunning
        cases hrunning
      refine ⟨live, h.thread at_call, ?_, fun e he hcloses => ?_⟩
      · exact List.pairwise_append.mpr ⟨hclosed.ordered, List.pairwise_singleton _ _,
          fun e he _ _ => hopen e he⟩
      · rcases List.mem_append.mp he with hmem | hmem
        · exact absurd hcloses (hopen e hmem)
        · obtain rfl := List.mem_singleton.mp hmem
          obtain ⟨h', -, -, hall⟩ := h.children _ (List.mem_of_getElem? at_call)
          exact absurd hcloses (hR.child _ _ hall.1)
  | fork =>
      refine ⟨_, h.fork, hclosed.ordered, fun e he hcloses => ?_⟩
      have hown := mem_own he (hclosed.alone e he hcloses).1
      exact absurd hcloses (hR.fork _ h.main.1 _ hown)
  | join ended =>
      refine ⟨_, h.join ended, hclosed.ordered, fun e he hcloses => ?_⟩
      obtain ⟨hmain, rfl⟩ := hclosed.alone e he hcloses
      exact absurd h.main.1 List.not_mem_nil
  | loop => exact ⟨live, h.loop, hclosed.ordered, hclosed.alone⟩

theorem Reaches.closed (hR : R.Closing closes) {main : Program C ρ α}
    (hmain : main.wp R Q 0 [] []) {s : σ} (hreach : Reaches kernel (Pool.start main s) p) :
    ∃ live, p.Ok R Q live ∧ Closed closes p live := by
  induction hreach with
  | refl => exact ⟨[], .start hmain s, .nil, fun e he => absurd he List.not_mem_nil⟩
  | tail _ hstep ih =>
      obtain ⟨live, hok, hclosed⟩ := ih
      exact hstep.closed hR hok hclosed

theorem Closed.last (h : Closed closes p live) {e : Event C ρ} (he : e ∈ p.history)
    (hcloses : closes e.call) : p.history.getLast? = some e := by
  obtain ⟨before, after, hhistory⟩ := List.append_of_mem he
  have hordered := h.ordered
  rw [hhistory, List.pairwise_append, List.pairwise_cons] at hordered
  cases after with
  | nil => rw [hhistory, List.getLast?_concat]
  | cons f after => exact absurd hcloses (hordered.2.1.1 f List.mem_cons_self)

/-! ### What the kernel keeps -/

/-- What one kind of call establishes holds as long as no call of another kind is made. -/
theorem Reaches.since {P : σ → Prop} {sets : C → ρ → Prop} {breaks : C → Prop}
    (hsets : ∀ s c r s', kernel s c r s' → sets c r → P s')
    (hkeeps : ∀ s c r s', kernel s c r s' → ¬ breaks c → P s → P s') {main : Program C ρ α}
    {s : σ} (hreach : Reaches kernel (Pool.start main s) p)
    (hnone : ∀ e ∈ p.history, ¬ breaks e.call) {e : Event C ρ} (he : e ∈ p.history)
    (hset : sets e.call e.result) : P p.state := by
  have called {s s' : σ} {c : C} {r : ρ} {history : List (Event C ρ)} {caller : Option Nat}
      (hanswer : kernel s c r s')
      (ih : (∀ e ∈ history, ¬ breaks e.call) → e ∈ history → P s)
      (hnone : ∀ e ∈ history ++ [⟨caller, c, r⟩], ¬ breaks e.call)
      (he : e ∈ history ++ [⟨caller, c, r⟩]) : P s' := by
    rcases List.mem_append.mp he with hmem | hmem
    · have hlast := hnone ⟨caller, c, r⟩ (List.mem_append_right _ (List.mem_singleton_self _))
      refine hkeeps _ _ _ _ hanswer hlast (ih (fun f hf => ?_) hmem)
      exact hnone f (List.mem_append_left _ hf)
    · obtain rfl := List.mem_singleton.mp hmem
      exact hsets _ _ _ _ hanswer hset
  induction hreach with
  | refl => cases he
  | tail _ hstep ih =>
      cases hstep with
      | call answer => exact called answer ih hnone he
      | thread _ answer => exact called answer ih hnone he
      | fork => exact ih hnone he
      | join _ => exact ih hnone he
      | loop => exact ih hnone he

/-! ### Where a run can hang -/

/-- The kernel does not answer the call. -/
def Blocked (kernel : σ → C → ρ → σ → Prop) (s : σ) (c : C) : Prop := ∀ r s', ¬ kernel s c r s'

/-- A run that cannot go on has returned, or the function waits for the kernel, or for a thread
that does. -/
theorem Pool.Ok.stuck (h : p.Ok R Q live) (hstuck : ∀ q, ¬ Step kernel p q) :
    (∃ a, p.main = .ret a) ∨ (∃ c next, p.main = .call c next ∧ Blocked kernel p.state c) ∨
      ∃ t next c rest, p.main = .join t next ∧ p.threads[t]? = some (.call c rest) ∧
        Blocked kernel p.state c := by
  obtain ⟨main, threads, s, history⟩ := p
  cases main with
  | ret a => exact .inl ⟨a, rfl⟩
  | call c next => exact .inr (.inl ⟨c, next, rfl, fun r s' ha => hstuck _ (.call ha)⟩)
  | fork child next => exact absurd .fork (hstuck _)
  | loop body next => exact absurd .loop (hstuck _)
  | join t next =>
      obtain ⟨thread, hthread⟩ : ∃ thread, threads[t]? = some thread :=
        ⟨_, List.getElem?_eq_getElem (h.started t h.main.1)⟩
      cases thread with
      | done a => exact absurd (.join hthread) (hstuck _)
      | call c rest =>
          exact .inr (.inr ⟨t, next, c, rest, rfl, hthread, fun r s' ha =>
            hstuck _ (.thread hthread ha)⟩)

/-! ### Runs come to an end -/

/-- What one step of the function or of a thread leaves of it, and the thread it starts. -/
inductive Rest : Program C ρ α ⊕ Thread C ρ Unit → Program C ρ α ⊕ Thread C ρ Unit → Prop where
  | call (c : C) (next : ρ → Program C ρ α) (r : ρ) : Rest (.inl (next r)) (.inl (.call c next))
  | fork (child : Thread C ρ Unit) (next : Nat → Program C ρ α) (t : Nat) :
      Rest (.inl (next t)) (.inl (.fork child next))
  | child (child : Thread C ρ Unit) (next : Nat → Program C ρ α) :
      Rest (.inr child) (.inl (.fork child next))
  | join (t : Nat) (next : Program C ρ α) : Rest (.inl next) (.inl (.join t next))
  | thread (c : C) (next : ρ → Thread C ρ Unit) (r : ρ) :
      Rest (.inr (next r)) (.inr (.call c next))

theorem Rest.wellFounded : WellFounded (Rest (C := C) (ρ := ρ) (α := α)) := by
  have hthread (x : Thread C ρ Unit) : Acc (Rest (α := α)) (.inr x) := by
    induction x with
    | done a => exact ⟨_, fun y hy => by cases hy⟩
    | call c next ih =>
        refine ⟨_, fun y hy => ?_⟩
        cases hy with
        | thread _ _ r => exact ih r
  have hmain (x : Program C ρ α) : Acc Rest (.inl x) := by
    induction x with
    | ret a => exact ⟨_, fun y hy => by cases hy⟩
    | call c next ih =>
        refine ⟨_, fun y hy => ?_⟩
        cases hy with
        | call _ _ r => exact ih r
    | fork child next ih =>
        refine ⟨_, fun y hy => ?_⟩
        cases hy with
        | fork _ _ t => exact ih t
        | child => exact hthread child
    | join t next ih =>
        refine ⟨_, fun y hy => ?_⟩
        cases hy with
        | join => exact ih
    | loop body next _ => exact ⟨_, fun y hy => by cases hy⟩
  exact ⟨fun x => x.rec hmain hthread⟩

/-- All that is left to do. -/
def Pool.work (p : Pool C ρ σ α) : Multiset (Program C ρ α ⊕ Thread C ρ Unit) :=
  {.inl p.main} + (p.threads.map .inr : List (Program C ρ α ⊕ Thread C ρ Unit))

/-- A step that does not start a loop over replaces a part of the work by smaller ones. -/
theorem Step.work (hstep : Step kernel p q) (hloop : ∀ body next, p.main ≠ .loop body next) :
    Relation.CutExpand Rest q.work p.work := by
  cases hstep with
  | call _ => exact Relation.cutExpand_single_add (.call _ _ _) _
  | @thread main t c next threads s s' history r at_call _ =>
      obtain ⟨hlt, hget⟩ := List.getElem?_eq_some_iff.mp at_call
      obtain ⟨before, after, hthreads, -, hset⟩ : ∃ before after, threads = before ++ _ :: after ∧
          before.length = t ∧ threads.set t (next r) = before ++ next r :: after :=
        List.exists_of_set hlt
      rw [hget] at hthreads
      refine (Relation.cutExpand_add_left _).mpr ?_
      rw [hset, hthreads, List.map_append, List.map_append, ← Multiset.coe_add,
        ← Multiset.coe_add]
      refine (Relation.cutExpand_add_left _).mpr ?_
      rw [List.map_cons, List.map_cons, ← Multiset.cons_coe, ← Multiset.cons_coe,
        ← Multiset.singleton_add, ← Multiset.singleton_add]
      exact Relation.cutExpand_single_add (.thread _ _ _) _
  | @fork child next threads s history =>
      refine ⟨{.inl (next threads.length), .inr child}, .inl (.fork child next), ?_, ?_⟩
      · intro x hx
        rcases Multiset.mem_cons.mp hx with rfl | hx
        · exact .fork _ _ _
        · obtain rfl := Multiset.mem_singleton.mp hx
          exact .child _ _
      · simp only [Pool.work, List.map_append, List.map_singleton, ← Multiset.coe_add,
          Multiset.coe_singleton, Multiset.insert_eq_cons, ← Multiset.singleton_add]
        ac_rfl
  | join _ => exact Relation.cutExpand_single_add (.join _ _) _
  | loop => exact absurd rfl (hloop _ _)

/-- Whatever the order of the steps, the run comes to where `P` holds. -/
inductive Inevitable (kernel : σ → C → ρ → σ → Prop) (P : Pool C ρ σ α → Prop) :
    Pool C ρ σ α → Prop where
  | now {p : Pool C ρ σ α} (h : P p) : Inevitable kernel P p
  | later {p : Pool C ρ σ α} (go : ∃ q, Step kernel p q)
      (next : ∀ q, Step kernel p q → Inevitable kernel P q) : Inevitable kernel P p

/-- A function without loops comes to rest, so it is enough to look at where it can. -/
theorem Inevitable.of_stuck {P : Pool C ρ σ α → Prop} {main : Program C ρ α} {s : σ}
    (hloop : ¬ R.loop) (hmain : main.wp R Q 0 [] [])
    (hstuck : ∀ p, Reaches kernel (Pool.start main s) p → (∀ q, ¬ Step kernel p q) → P p) :
    Inevitable kernel P (Pool.start main s) := by
  have hreached : ∀ work, ∀ p : Pool C ρ σ α, p.work = work →
      Reaches kernel (Pool.start main s) p → Inevitable kernel P p := by
    intro work
    induction work using Rest.wellFounded.cutExpand.induction with
    | _ work ih =>
        rintro p rfl hreach
        by_cases hgo : ∃ q, Step kernel p q
        · refine .later hgo fun q hstep => ih q.work (hstep.work fun body next heq => ?_) q rfl
            (hreach.tail hstep)
          obtain ⟨live, hok⟩ := hreach.ok (.start hmain s)
          have hwp := hok.main
          rw [heq] at hwp
          exact hloop hwp.1
        · exact .now (hstuck p hreach (not_exists.mp hgo))
  exact hreached _ _ rfl .refl

end Threads
