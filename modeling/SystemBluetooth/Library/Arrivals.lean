import Mathlib.Data.List.Basic

/-!
# Streams that arrive in pieces

A reader asks for some number of cells and is given what has arrived, or an error.
The pieces still to come are a list of `Arrival`s; a read takes the first of them,
and when it asks for less than the piece holds, the remainder stays in front. Every
way to split a stream into reads is some list of arrivals, so a statement about all
lists of arrivals is a statement about all chunkings.

`Cut cs k` says that a read boundary falls after `k` cells. Reading moves the
boundaries that are still ahead and creates none.
-/

/-- What one read finds: an error, or some cells. -/
inductive Arrival (α : Type) where
  | error
  | bytes (data : List α)
  deriving DecidableEq, Repr

namespace Arrival

variable {α : Type}

/-- The result a `read` call reports. -/
def count : Arrival α → Int
  | error => -1
  | bytes data => data.length

/-- The cells a read transfers. -/
def data : Arrival α → List α
  | error => []
  | bytes data => data

@[simp] theorem count_error : (error : Arrival α).count = -1 := rfl
@[simp] theorem count_bytes (l : List α) : (bytes l).count = l.length := rfl
@[simp] theorem data_error : (error : Arrival α).data = [] := rfl
@[simp] theorem data_bytes (l : List α) : (bytes l).data = l := rfl

end Arrival

namespace Arrivals

variable {α : Type}

/-- A read of at most `n` cells: its result and what is still to come. A read that
finds nothing waits, except that a read of no cells returns at once. -/
def read (n : Nat) : List (Arrival α) → Option (Arrival α × List (Arrival α))
  | [] => if n = 0 then some (.bytes [], []) else none
  | .error :: rest => some (.error, rest)
  | .bytes l :: rest =>
      if l.length ≤ n then some (.bytes l, rest)
      else some (.bytes (l.take n), .bytes (l.drop n) :: rest)

/-- A read never transfers more than it asks for. -/
theorem read_length {cs cs' : List (Arrival α)} {n : Nat} {a : Arrival α}
    (h : read n cs = some (a, cs')) : a.data.length ≤ n := by
  cases cs with
  | nil =>
      by_cases hn : n = 0
      · simp only [read, if_pos hn, Option.some.injEq, Prod.mk.injEq] at h
        simp [← h.1]
      · simp [read, hn] at h
  | cons first rest =>
      cases first with
      | error =>
          simp only [read, Option.some.injEq, Prod.mk.injEq] at h
          simp [← h.1]
      | bytes l =>
          by_cases hle : l.length ≤ n
          · simp only [read, if_pos hle, Option.some.injEq, Prod.mk.injEq] at h
            simpa [← h.1] using hle
          · simp only [read, if_neg hle, Option.some.injEq, Prod.mk.injEq] at h
            rw [← h.1]
            exact List.length_take_le n l

/-- Without errors ahead a read transfers something, and no error is ahead of it. -/
theorem read_succeeds {cs cs' : List (Arrival α)} {n : Nat} {a : Arrival α}
    (h : read n cs = some (a, cs')) (hcs : .error ∉ cs) : (∃ l, a = .bytes l) ∧ .error ∉ cs' := by
  cases cs with
  | nil =>
      by_cases hn : n = 0
      · simp only [read, if_pos hn, Option.some.injEq, Prod.mk.injEq] at h
        obtain ⟨rfl, rfl⟩ := h
        exact ⟨⟨[], rfl⟩, hcs⟩
      · simp [read, hn] at h
  | cons first rest =>
      have hrest : .error ∉ rest := fun he => hcs (List.mem_cons_of_mem first he)
      cases first with
      | error => exact absurd List.mem_cons_self hcs
      | bytes l =>
          rw [read] at h
          split at h
          · obtain ⟨rfl, rfl⟩ : _ ∧ _ := by simpa using h
            exact ⟨⟨l, rfl⟩, hrest⟩
          · obtain ⟨rfl, rfl⟩ : _ ∧ _ := by simpa using h
            exact ⟨⟨_, rfl⟩, by simpa using hrest⟩

/-- The cells that arrive, in order. -/
def stream (cs : List (Arrival α)) : List α := cs.flatMap Arrival.data

@[simp] theorem stream_nil : stream ([] : List (Arrival α)) = [] := rfl

@[simp] theorem stream_error (cs : List (Arrival α)) : stream (.error :: cs) = stream cs := rfl

@[simp] theorem stream_bytes (l : List α) (cs : List (Arrival α)) :
    stream (.bytes l :: cs) = l ++ stream cs := rfl

/-- A read takes from the front of the stream, also when it fails. -/
theorem read_stream {cs cs' : List (Arrival α)} {n : Nat} {a : Arrival α}
    (h : read n cs = some (a, cs')) : stream cs = a.data ++ stream cs' := by
  cases cs with
  | nil =>
      by_cases hn : n = 0
      · simp only [read, if_pos hn, Option.some.injEq, Prod.mk.injEq] at h
        simp [← h.1, ← h.2]
      · simp [read, hn] at h
  | cons first rest =>
      cases first with
      | error =>
          obtain ⟨rfl, rfl⟩ : _ ∧ _ := by simpa [read] using h
          rfl
      | bytes l =>
          rw [read] at h
          split at h
          · obtain ⟨rfl, rfl⟩ : _ ∧ _ := by simpa using h
            rfl
          · obtain ⟨rfl, rfl⟩ : _ ∧ _ := by simpa using h
            rw [stream_bytes, stream_bytes, Arrival.data_bytes, ← List.append_assoc,
              List.take_append_drop]

/-- A read that transfers less than it asks for uses up an arrival. -/
theorem read_short {cs cs' : List (Arrival α)} {n : Nat} {a : Arrival α}
    (h : read n cs = some (a, cs')) (hshort : a.data.length < n) : cs'.length < cs.length := by
  cases cs with
  | nil => simp [read, show n ≠ 0 by omega] at h
  | cons first rest =>
      cases first with
      | error =>
          obtain ⟨rfl, rfl⟩ : _ ∧ _ := by simpa [read] using h
          exact Nat.lt_succ_self _
      | bytes l =>
          rw [read] at h
          split at h
          · obtain ⟨rfl, rfl⟩ : _ ∧ _ := by simpa using h
            exact Nat.lt_succ_self _
          · obtain ⟨rfl, rfl⟩ : _ ∧ _ := by simpa using h
            rw [Arrival.data_bytes, List.length_take] at hshort
            omega

/-- A read waits only for something to arrive. -/
theorem read_none {cs : List (Arrival α)} {n : Nat} (h : read n cs = none) :
    cs = [] ∧ n ≠ 0 := by
  cases cs with
  | nil => exact ⟨rfl, fun hn => by simp [read, hn] at h⟩
  | cons first rest =>
      cases first with
      | error => simp [read] at h
      | bytes l =>
          rw [read] at h
          split at h <;> simp at h

/-- Every read that asks for something succeeds and transfers at least one cell. -/
def Positive (cs : List (Arrival α)) : Prop := ∀ a ∈ cs, a.data ≠ []

@[simp] theorem positive_nil : Positive ([] : List (Arrival α)) := by simp [Positive]

@[simp] theorem not_positive_error (cs : List (Arrival α)) : ¬ Positive (.error :: cs) := by
  simp [Positive]

@[simp] theorem positive_bytes {l : List α} {cs : List (Arrival α)} :
    Positive (.bytes l :: cs) ↔ l ≠ [] ∧ Positive cs := by
  simp [Positive]

/-- A read boundary falls after the first `k` cells. -/
def Cut (cs : List (Arrival α)) (k : Nat) : Prop :=
  ∃ as bs, cs = as ++ bs ∧ (stream as).length = k

theorem cut_cons {l : List α} {cs : List (Arrival α)} {k : Nat} (hk : 0 < k) :
    Cut (.bytes l :: cs) k ↔ ∃ j, k = l.length + j ∧ Cut cs j := by
  constructor
  · rintro ⟨as, bs, heq, hlen⟩
    cases as with
    | nil => simp at hlen; omega
    | cons a as =>
        obtain ⟨rfl, rfl⟩ := List.cons.inj heq
        exact ⟨(stream as).length, by simpa using hlen.symm, as, bs, rfl, rfl⟩
  · rintro ⟨j, rfl, as, bs, rfl, hlen⟩
    exact ⟨.bytes l :: as, bs, rfl, by simp [hlen]⟩

@[simp] theorem cut_zero (cs : List (Arrival α)) : Cut cs 0 := ⟨[], cs, rfl, rfl⟩

/-- One positive read of at least one cell, when something is there to read: it
transfers a front part of the stream that no boundary divides, it stops short only at a
boundary, and a boundary further on stays where it is. -/
theorem read_positive {cs : List (Arrival α)} {n : Nat} (hcs : Positive cs) (hne : cs ≠ [])
    (hn : 0 < n) :
    ∃ l cs', read n cs = some (.bytes l, cs') ∧ l ≠ [] ∧ l.length ≤ n ∧
      stream cs = l ++ stream cs' ∧ Positive cs' ∧
      (l.length < n → cs'.length < cs.length ∧ Cut cs l.length) ∧
      (∀ k, 0 < k → k < l.length → ¬ Cut cs k) ∧
      ∀ k, 0 < k → (Cut cs (l.length + k) ↔ Cut cs' k) := by
  cases cs with
  | nil => exact absurd rfl hne
  | cons a rest =>
      cases a with
      | error => simp at hcs
      | bytes l =>
        obtain ⟨hl, hrest⟩ := positive_bytes.mp hcs
        by_cases hle : l.length ≤ n
        · refine ⟨l, rest, by simp [read, hle], hl, hle, rfl, hrest, ?_, ?_, ?_⟩
          · intro _
            exact ⟨by simp, (cut_cons (List.length_pos_iff.mpr hl)).mpr ⟨0, rfl, cut_zero rest⟩⟩
          · intro k hk hlt hcut
            obtain ⟨j, rfl, _⟩ := (cut_cons hk).mp hcut
            omega
          · intro k hk
            rw [cut_cons (by omega)]
            constructor
            · rintro ⟨j, hj, hcut⟩
              obtain rfl : k = j := by omega
              exact hcut
            · intro hcut
              exact ⟨k, rfl, hcut⟩
        · have hlen : (l.take n).length = n := by simp; omega
          have hdrop : (l.drop n).length = l.length - n := List.length_drop
          refine ⟨l.take n, .bytes (l.drop n) :: rest, by simp [read, hle], ?_, by omega, ?_, ?_,
            by omega, ?_, ?_⟩
          · exact List.length_pos_iff.mp (by omega)
          · simp only [stream_bytes, ← List.append_assoc, List.take_append_drop]
          · exact positive_bytes.mpr ⟨List.length_pos_iff.mp (by omega), hrest⟩
          · intro k hk hlt hcut
            obtain ⟨j, rfl, _⟩ := (cut_cons hk).mp hcut
            omega
          · intro k hk
            rw [cut_cons (by omega), cut_cons hk]
            constructor
            · rintro ⟨j, hj, hcut⟩
              exact ⟨j, by omega, hcut⟩
            · rintro ⟨j, hj, hcut⟩
              exact ⟨j, by omega, hcut⟩

end Arrivals
