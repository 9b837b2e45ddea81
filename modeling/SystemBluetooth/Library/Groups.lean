import SystemBluetooth.Library.Scan

/-!
# Groups of digits

Numbers in base 16 that are joined by a separator. Whichever function reads them, and
whether it skips the separators or asks for them, it finds the values of the groups.
-/

namespace Scan

/-- One digit or more, up to a width. -/
@[ext]
structure Group (width : Nat) where
  digits : List UInt8
  nonempty : digits ≠ []
  short : digits.length ≤ width
  hex : ∀ c ∈ digits, isHexDigit c = true
  deriving DecidableEq

namespace Group

variable {width : Nat}

def value (g : Group width) : Nat := Scan.value 16 g.digits

theorem value_lt (g : Group width) : g.value < 16 ^ width :=
  (Scan.value_lt g.hex).trans_le (Nat.pow_le_pow_right (by decide) g.short)

/-- The digits are converted, if no other letter or digit follows. -/
theorem hex_digits (g : Group width) {tail : List UInt8}
    (hstop : ∀ c ∈ tail.head?, isAlnum c = false) :
    Scan.hex width (g.digits ++ tail) = some (UInt32.ofNat g.value, tail) := by
  refine hex_run g.nonempty g.hex g.short fun c hc => hstop c ?_
  cases tail with
  | nil => simp at hc
  | cons d tail =>
      cases hwidth : width - g.digits.length with
      | zero => simp [hwidth] at hc
      | succ n => simpa [hwidth] using hc

theorem strtoul_digits (g : Group width) (hwidth : width < 8) {tail : List UInt8}
    (hstop : ∀ c ∈ tail.head?, isAlnum c = false) :
    strtoul (g.digits ++ tail) = (UInt32.ofNat g.value, tail) := by
  have hlt : g.value < 2 ^ 32 :=
    g.value_lt.trans (Nat.pow_lt_pow_right (by decide) hwidth)
  rw [strtoul, hexNumber_digits g.nonempty g.hex hstop]
  exact if_neg (Nat.not_le.mpr hlt)

theorem strtol_digits (g : Group width) (hwidth : width < 8) {tail : List UInt8}
    (hstop : ∀ c ∈ tail.head?, isAlnum c = false) :
    strtol (g.digits ++ tail) = ((g.value : Int), tail) := by
  have hlt : g.value < 16 ^ 7 :=
    g.value_lt.trans_le (Nat.pow_le_pow_right (by decide) (Nat.le_of_lt_succ hwidth))
  have hrange : max (-2 ^ 31) (min (2 ^ 31 - 1) (g.value : Int)) = g.value := by omega
  rw [strtol, hexNumber_digits g.nonempty g.hex hstop]
  exact congrArg (·, tail) hrange

end Group

/-- The text of groups. -/
def joined {width : Nat} (separator : UInt8) (groups : List (Group width)) : List UInt8 :=
  [separator].intercalate (groups.map Group.digits)

@[simp] theorem joined_singleton {width : Nat} (separator : UInt8) (g : Group width) :
    joined separator [g] = g.digits := by
  simp [joined]

@[simp] theorem joined_cons_cons {width : Nat} (separator : UInt8) (g g' : Group width)
    (groups : List (Group width)) : joined separator (g :: g' :: groups) =
      g.digits ++ separator :: joined separator (g' :: groups) := by
  simp [joined, List.intercalate]

/-- `sscanf` finds the values of all groups. -/
theorem separated_joined {width : Nat} {separator : UInt8} (hsep : isAlnum separator = false)
    (groups : List (Group width)) {tail : List UInt8}
    (hstop : ∀ c ∈ tail.head?, isAlnum c = false) :
    separated (hex width) separator groups.length (joined separator groups ++ tail) =
      groups.map fun g => UInt32.ofNat g.value := by
  match groups with
  | [] => rfl
  | [g] =>
      rw [joined_singleton, List.length_singleton, separated, g.hex_digits hstop]
      cases tail with
      | nil => rfl
      | cons c tail => simp [separated]
  | g :: g' :: groups =>
      have hlater := separated_joined hsep (g' :: groups) hstop
      rw [joined_cons_cons, List.append_assoc, List.cons_append, List.length_cons, separated,
        g.hex_digits (by simpa using hsep)]
      dsimp only
      rw [if_pos rfl, hlater]
      rfl

end Scan
