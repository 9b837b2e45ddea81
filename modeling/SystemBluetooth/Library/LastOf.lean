import Mathlib.Data.List.Basic

/-!
# The last of a list that counts

A list of settings is applied from the front, and each setting may be without effect. What is
left in the end is the value of the last one that has a value. It depends on nothing but the
settings of its kind, in their order.
-/

variable {ο α κ : Type}

/-- The value of the last element that has one. -/
def lastOf (f : ο → Option α) (l : List ο) : Option α := (l.filterMap f).getLast?

variable {f : ο → Option α} {l l' : List ο}

@[simp] theorem lastOf_nil : lastOf f [] = none := rfl

/-- What comes later wins. -/
theorem lastOf_append (l l' : List ο) : lastOf f (l ++ l') = (lastOf f l').or (lastOf f l) := by
  rw [lastOf, List.filterMap_append, List.getLast?_append]
  rfl

theorem lastOf_singleton (o : ο) : lastOf f [o] = f o := by
  cases h : f o <;> simp [lastOf, h]

theorem lastOf_cons (o : ο) (l : List ο) : lastOf f (o :: l) = (lastOf f l).or (f o) := by
  rw [← List.singleton_append, lastOf_append, lastOf_singleton]

/-! ### Kinds -/

section Kinds

variable [DecidableEq κ] {kind : ο → κ} {k : κ}

/-- Only the elements of its kind count. -/
theorem lastOf_filter (hf : ∀ o, f o ≠ none → kind o = k) (l : List ο) :
    lastOf f (l.filter fun o => kind o = k) = lastOf f l := by
  have hnone : ∀ o, ¬ kind o = k → f o = none := fun o ho => by
    by_contra hne
    exact ho (hf o hne)
  induction l with
  | nil => rfl
  | cons o l ih =>
      by_cases ho : kind o = k
      · rw [List.filter_cons_of_pos (by simpa using ho), lastOf_cons, lastOf_cons, ih]
      · rw [List.filter_cons_of_neg (by simpa using ho), lastOf_cons, ih, hnone o ho,
          Option.or_none]

theorem lastOf_eq_of_filter (hf : ∀ o, f o ≠ none → kind o = k)
    (h : (l.filter fun o => kind o = k) = l'.filter fun o => kind o = k) :
    lastOf f l = lastOf f l' := by
  rw [← lastOf_filter hf, h, lastOf_filter hf]

theorem mem_iff_of_filter {o : ο}
    (h : (l.filter fun x => kind x = kind o) = l'.filter fun x => kind x = kind o) :
    o ∈ l ↔ o ∈ l' := by
  have hmem : ∀ l : List ο, o ∈ l ↔ o ∈ l.filter fun x => kind x = kind o := by simp
  rw [hmem l, hmem l', h]

end Kinds
