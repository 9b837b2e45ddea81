import Mathlib.Data.List.Basic

/-!
# Byte memory around a pointer

A memory maps every integer address to a cell. Addresses are integers and not
naturals because pointer arithmetic may leave the object it started in, below as
well as above: such an access is visible here instead of being cut off at zero.

`store` writes a run of cells and `slice` reads one. The lemmas say how runs that
follow each other join, and which part of memory a store leaves alone.
-/

namespace Memory

variable {β : Type}

/-- `m` with the cells from address `i` on replaced by `bs`. -/
def store (m : Int → β) (i : Int) (bs : List β) : Int → β := fun j =>
  if i ≤ j then (bs[(j - i).toNat]?).getD (m j) else m j

/-- The `n` cells from address `i` on. -/
def slice (m : Int → β) (i : Int) (n : Nat) : List β :=
  (List.range n).map fun k : Nat => m (i + (k : Int))

@[simp] theorem store_nil (m : Int → β) (i : Int) : store m i [] = m := by
  funext j
  simp [store]

theorem store_below {m : Int → β} {i j : Int} {bs : List β} (h : j < i) :
    store m i bs j = m j := by
  rw [store, if_neg (by omega)]

theorem store_above {m : Int → β} {i j : Int} {bs : List β} (h : i + bs.length ≤ j) :
    store m i bs j = m j := by
  have hnone : bs[(j - i).toNat]? = none := List.getElem?_eq_none (by omega)
  simp [store, hnone]

theorem store_inside (m : Int → β) (i : Int) (bs : List β) {k : Nat} (h : k < bs.length) :
    store m i bs (i + k) = bs[k] := by
  have hk : (i + (k : Int) - i).toNat = k := by omega
  rw [store, if_pos (by omega), hk, List.getElem?_eq_getElem h, Option.getD_some]

/-- Two stores that meet are one store of the concatenation. -/
theorem store_store_append (m : Int → β) (i : Int) (as bs : List β) :
    store (store m i as) (i + as.length) bs = store m i (as ++ bs) := by
  funext j
  by_cases hlow : j < i + as.length
  · rw [store_below hlow]
    by_cases hi : i ≤ j
    · have hin : (j - i).toNat < as.length := by omega
      simp only [store, if_pos hi, List.getElem?_append_left hin, List.getElem?_eq_getElem hin,
        Option.getD_some]
    · simp [store, hi]
  · have hi : i ≤ j := by omega
    have hout : as.length ≤ (j - i).toNat := by omega
    have hshift : (j - (i + as.length)).toNat = (j - i).toNat - as.length := by omega
    simp only [store, if_pos hi, if_pos (show i + as.length ≤ j by omega), hshift,
      List.getElem?_append_right hout, List.getElem?_eq_none hout, Option.getD_none]

@[simp] theorem length_slice (m : Int → β) (i : Int) (n : Nat) : (slice m i n).length = n := by
  simp [slice]

@[simp] theorem slice_zero (m : Int → β) (i : Int) : slice m i 0 = [] := rfl

/-- A run of cells is a first part followed by the rest. -/
theorem slice_add (m : Int → β) (i : Int) (n k : Nat) :
    slice m i (n + k) = slice m i n ++ slice m (i + n) k := by
  simp only [slice, List.range_add, List.map_append, List.map_map]
  congr 1
  apply List.map_congr_left
  intro a _
  simp [Int.add_assoc]

theorem take_slice (m : Int → β) (i : Int) {k n : Nat} (h : k ≤ n) :
    (slice m i n).take k = slice m i k := by
  obtain ⟨r, rfl⟩ := Nat.exists_eq_add_of_le h
  rw [slice_add, List.take_left' (length_slice m i k)]

/-- The front of what was stored. -/
theorem slice_store_take {m : Int → β} {i : Int} {bs : List β} {n : Nat} (h : n ≤ bs.length) :
    slice (store m i bs) i n = bs.take n := by
  apply List.ext_getElem
  · simp [h]
  · intro k hk hk'
    have hbs : k < bs.length := by
      rw [length_slice] at hk
      omega
    simp [slice, store_inside m i bs hbs]

/-- A run read where it was stored. -/
theorem slice_store {m : Int → β} {i : Int} {bs : List β} {n : Nat} (h : bs.length = n) :
    slice (store m i bs) i n = bs := by
  rw [slice_store_take (Nat.le_of_eq h.symm), ← h, List.take_length]

/-- A store leaves every run it does not meet alone. -/
theorem slice_store_of_disjoint {m : Int → β} {i j : Int} {bs : List β} {n : Nat}
    (h : j + n ≤ i ∨ i + bs.length ≤ j) : slice (store m i bs) j n = slice m j n := by
  apply List.map_congr_left
  intro k hk
  have hk' : k < n := List.mem_range.mp hk
  cases h with
  | inl hbelow => exact store_below (by omega)
  | inr habove => exact store_above (by omega)

/-- A store right behind a known run extends it. -/
theorem slice_store_append {m : Int → β} {i : Int} {as : List β}
    (h : slice m i as.length = as) (bs : List β) :
    slice (store m (i + as.length) bs) i (as ++ bs).length = as ++ bs := by
  have hfront : slice (store m (i + as.length) bs) i as.length = as := by
    rw [slice_store_of_disjoint (Or.inl (Int.le_refl _)), h]
  rw [List.length_append, slice_add, hfront, slice_store rfl]

/-- A cell of a known run. -/
theorem getElem_of_slice {m : Int → β} {i : Int} {n : Nat} {l : List β} (h : slice m i n = l)
    {k : Nat} (hk : k < n) : l[k]? = some (m (i + k)) := by
  rw [← h, slice, List.getElem?_map, List.getElem?_range hk, Option.map_some]

end Memory
