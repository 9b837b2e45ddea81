import SystemBluetooth.Address.Basic

/-!
# Where `str2ba` reads

`str2ba` moves its pointer in two ways: `strtoul` sets it behind a number, and `str++` moves it
on by one, whatever is there. `cursors` are the places of the pointer before the conversions.
They lie in the string, or at its NUL, exactly if a character of the string follows each
number but the last.
-/

namespace Address

/-! ### The pointer -/

/-- The pointer before each of `n` conversions. -/
def cursors : Nat → List UInt8 → List (List UInt8)
  | 0, _ => []
  | n + 1, str => str :: cursors n (Scan.strtoul str).2.tail

/-- `str2ba` reads its numbers at these places and nowhere else. -/
theorem str2baLoop_cursors (is : List (Fin 6)) (str : List UInt8) (ba : Bdaddr) :
    str2baLoop is str ba =
      if ∀ cursor ∈ cursors is.length str, 0 ∈ cursor then
        some ((is.zip (cursors is.length str)).foldl
          (fun ba read => ba.store read.1 (Scan.strtoul read.2).1.toUInt8) ba)
      else none := by
  induction is generalizing str ba with
  | nil => simp [str2baLoop, cursors]
  | cons i is ih =>
      rw [str2baLoop, List.length_cons, cursors]
      by_cases hnul : 0 ∈ str
      · rw [if_neg (not_not.mpr hnul)]
        simp only [ih, List.forall_mem_cons, hnul, true_and, List.zip_cons_cons, List.foldl_cons]
        rfl
      · rw [if_pos hnul, if_neg fun hall => hnul (hall str List.mem_cons_self)]

/-- The cursor is in the string, or at its NUL, and the number there is one of the string:
`strtoul` looks at nothing behind the NUL. -/
def Inside (s behind cursor : List UInt8) : Prop :=
  ∃ rest, rest <:+ s ∧ cursor = rest ++ 0 :: behind ∧
    Scan.strtoul cursor = ((Scan.strtoul rest).1, (Scan.strtoul rest).2 ++ 0 :: behind)

/-- A cursor in the memory is inside if more than what is behind the string is ahead. -/
theorem inside_iff {s behind cursor : List UInt8} (h : cursor <:+ s ++ 0 :: behind) :
    Inside s behind cursor ↔ behind.length < cursor.length := by
  constructor
  · rintro ⟨rest, -, rfl, -⟩
    rw [List.length_append, List.length_cons]
    omega
  · intro hlength
    obtain ⟨front, hfront⟩ := h
    rcases List.append_eq_append_iff.mp hfront with ⟨rest, rfl, rfl⟩ | ⟨more, rfl, hmore⟩
    · exact ⟨rest, List.suffix_append front rest, rfl, Scan.strtoul_nul rest behind⟩
    · cases more with
      | nil => exact ⟨[], List.nil_suffix, hmore.symm, hmore ▸ Scan.strtoul_nul [] behind⟩
      | cons c more =>
          have hbehind : behind = more ++ cursor := (List.cons.inj hmore).2
          rw [hbehind, List.length_append] at hlength
          omega

theorem cursors_suffix {n : Nat} {str cursor : List UInt8} (h : cursor ∈ cursors n str) :
    cursor <:+ str := by
  induction n generalizing str with
  | zero => cases h
  | succ n ih =>
      rcases List.mem_cons.mp h with rfl | hlater
      · exact List.suffix_rfl
      · exact (ih hlater).trans ((List.tail_suffix _).trans (Scan.strtoul_suffix str))

/-! ### Strings with enough fields -/

/-- Behind each of the first `n` numbers, empty ones too, there is a character. -/
def Fields : Nat → List UInt8 → Bool
  | 0, _ => true
  | n + 1, s =>
      match (Scan.strtoul s).2 with
      | [] => false
      | _ :: rest => Fields n rest

/-- The first conversion starts inside, and each further one if a character has followed the
number before. -/
theorem cursors_fields (n : Nat) (s behind : List UInt8) :
    (∀ cursor ∈ cursors (n + 1) (s ++ 0 :: behind), behind.length < cursor.length) ↔
      Fields n s = true := by
  induction n generalizing s with
  | zero =>
      simp only [cursors, List.forall_mem_singleton, Fields, iff_true, List.length_append,
        List.length_cons]
      omega
  | succ n ih =>
      have hfirst : behind.length < (s ++ 0 :: behind).length := by
        rw [List.length_append, List.length_cons]
        omega
      rw [cursors, List.forall_mem_cons, Scan.strtoul_nul, Fields]
      cases (Scan.strtoul s).2 with
      | nil =>
          -- `str++` has moved the pointer behind the NUL.
          refine iff_of_false (fun h => ?_) (by simp)
          exact Nat.lt_irrefl _ (h.2 behind List.mem_cons_self)
      | cons c rest =>
          rw [List.cons_append, List.tail_cons, ih rest]
          exact and_iff_right hfirst

/-- `str2ba` stays inside its argument, whatever stands behind it, exactly if each of the first
five numbers is followed by a character of the string. -/
theorem str2ba_inside (s behind : List UInt8) :
    (∀ cursor ∈ cursors 6 (s ++ 0 :: behind), Inside s behind cursor) ↔ Fields 5 s = true := by
  rw [← cursors_fields 5 s behind]
  constructor
  · intro h cursor hcursor
    exact (inside_iff (cursors_suffix hcursor)).mp (h cursor hcursor)
  · intro h cursor hcursor
    exact (inside_iff (cursors_suffix hcursor)).mpr (h cursor hcursor)

/-- On the empty string the second conversion already starts behind the NUL. -/
theorem str2ba_empty : ¬ ∀ cursor ∈ cursors 6 ([] ++ [0]), Inside [] [] cursor := by
  intro h
  have hsecond : [] ∈ cursors 6 ([] ++ [0]) := by decide
  obtain ⟨rest, -, hrest, -⟩ := h [] hsecond
  exact absurd hrest.symm (by simp)

/-- So there the result is undefined. -/
theorem str2ba_empty_undefined (ba : Bdaddr) : str2ba [0] ba = none := by
  rw [str2ba, str2baLoop_cursors, if_neg (by decide)]
  rfl

end Address
