import Mathlib.Data.List.TakeWhile
import Mathlib.Tactic.Linarith
import Mathlib.Tactic.Ring

/-!
# Numbers in C strings

A string is a list of bytes that is read up to its end or up to a NUL, which is no
space, no sign and no digit. `hex` and `dec` are the conversions `%x` and `%d` of `sscanf`:
each takes the longest prefix that can begin a number. Numbers that `dec`, `strtoul` and
`strtol` cannot return become the bound of a `long` of 32 bits.
-/

namespace Scan

/-! ### Characters -/

/-- The bytes of a text. -/
def ascii (s : String) : List UInt8 := s.toList.map fun c => c.toNat.toUInt8

def isSpace (c : UInt8) : Bool := c == 0x20 || (0x09 ≤ c && c ≤ 0x0d)

def isDigit (c : UInt8) : Bool := 0x30 ≤ c && c ≤ 0x39

def isUpper (c : UInt8) : Bool := 0x41 ≤ c && c ≤ 0x5a

def isLower (c : UInt8) : Bool := 0x61 ≤ c && c ≤ 0x7a

def isAlnum (c : UInt8) : Bool := isDigit c || isUpper c || isLower c

def toLower (c : UInt8) : UInt8 := if isUpper c then c + 0x20 else c

/-- The value of a hexadecimal digit, and of a decimal one. -/
def digit (c : UInt8) : Nat :=
  if isDigit c then c.toNat - 0x30 else (toLower c).toNat - 0x61 + 10

def isHexDigit (c : UInt8) : Bool := isDigit c || (0x61 ≤ toLower c && toLower c ≤ 0x66)

/-! ### Conversions -/

/-- The number that digits denote, the first one being the highest. -/
def value (base : Nat) (digits : List UInt8) : Nat :=
  digits.foldl (fun n c => n * base + digit c) 0

/-- Is there a minus sign, and what follows the sign? -/
def sign : List UInt8 → Bool × List UInt8
  | 0x2d :: s => (true, s)
  | 0x2b :: s => (false, s)
  | s => (false, s)

def dropHexPrefix : List UInt8 → List UInt8
  | 0x30 :: 0x78 :: s => s
  | 0x30 :: 0x58 :: s => s
  | s => s

/-- The number in base 16 at the start of a string: is there a minus sign, the value of the
digits, and what is left of the string. -/
def hexNumber (s : List UInt8) : Option (Bool × Nat × List UInt8) :=
  let (minus, unsigned) := sign (s.dropWhile isSpace)
  let marked := dropHexPrefix unsigned
  -- An `0x` without digits is the number 0, and the `x` is left.
  let number := if marked.takeWhile isHexDigit = [] then unsigned else marked
  let digits := number.takeWhile isHexDigit
  if digits = [] then none
  else some (minus, value 16 digits, number.dropWhile isHexDigit)

/-- `%<width>x` for a width of at most eight, and what is left of the string: the number in
the first characters behind the white space. -/
def hex (width : Nat) (s : List UInt8) : Option (UInt32 × List UInt8) :=
  let s := s.dropWhile isSpace
  (hexNumber (s.take width)).map fun (minus, n, rest) =>
    (if minus then -UInt32.ofNat n else UInt32.ofNat n, rest ++ s.drop width)

/-- `%d` where a `long` has 32 bits: numbers outside of its range become its bounds. -/
def dec (s : List UInt8) : Option (Int × List UInt8) :=
  let (minus, number) := sign (s.dropWhile isSpace)
  let digits := number.takeWhile isDigit
  let n : Int := value 10 digits
  if digits = [] then none
  else some (max (-2 ^ 31) (min (2 ^ 31 - 1) (if minus then -n else n)),
    number.dropWhile isDigit)

/-- `atoi` where a `long` has 32 bits; outside of its range the result is that of `%d`. -/
def atoi (s : List UInt8) : Int := ((dec s).map Prod.fst).getD 0

/-- `strtoul` with the base 16, for an `unsigned long` of 32 bits; the string itself is left
if there is no number. -/
def strtoul (s : List UInt8) : UInt32 × List UInt8 :=
  match hexNumber s with
  | none => (0, s)
  | some (minus, n, rest) =>
      if 2 ^ 32 ≤ n then (UInt32.ofNat (2 ^ 32 - 1), rest)
      else (if minus then -UInt32.ofNat n else UInt32.ofNat n, rest)

/-- `strtol` with the base 16, for a `long` of 32 bits. -/
def strtol (s : List UInt8) : Int × List UInt8 :=
  match hexNumber s with
  | none => (0, s)
  | some (minus, n, rest) =>
      (max (-2 ^ 31) (min (2 ^ 31 - 1) (if minus then -(n : Int) else n)), rest)

/-- The results of `n` conversions with a literal `separator` between two of them, up to
the first that fails. -/
def separated {α : Type} (conversion : List UInt8 → Option (α × List UInt8)) (separator : UInt8) :
    Nat → List UInt8 → List α
  | 0, _ => []
  | n + 1, s =>
      match conversion s with
      | none => []
      | some (a, []) => [a]
      | some (a, c :: rest) =>
          if c = separator then a :: separated conversion separator n rest else [a]

/-! ### Numbers that stand alone -/

theorem forall_byte {p : UInt8 → Prop} (h : ∀ n : Fin 256, p (UInt8.ofFin n)) (c : UInt8) : p c :=
  h c.toFin

/-- Letters and digits are neither space nor punctuation. -/
theorem isAlnum_spec (c : UInt8) : isAlnum c = true →
    isSpace c = false ∧ c ≠ 0 ∧ c ≠ 0x22 ∧ c ≠ 0x2b ∧ c ≠ 0x2d ∧ c ≠ 0x3a := by
  revert c
  exact forall_byte (by decide +kernel)

/-- A hexadecimal digit is not the letter of a prefix. -/
theorem isHexDigit_spec (c : UInt8) : isHexDigit c = true →
    isAlnum c = true ∧ c ≠ 0x58 ∧ c ≠ 0x78 := by
  revert c
  exact forall_byte (by decide +kernel)

theorem sign_of_ne {c : UInt8} (minus : c ≠ 0x2d) (plus : c ≠ 0x2b) (s : List UInt8) :
    sign (c :: s) = (false, c :: s) := by
  unfold sign
  split
  · rename_i heq
    exact absurd (List.cons.inj heq).1 minus
  · rename_i heq
    exact absurd (List.cons.inj heq).1 plus
  · rfl

/-- A prefix is told by its second character. -/
theorem dropHexPrefix_of_ne {c : UInt8} {s : List UInt8}
    (h : ∀ d ∈ s.head?, d ≠ 0x58 ∧ d ≠ 0x78) : dropHexPrefix (c :: s) = c :: s := by
  unfold dropHexPrefix
  split
  · rename_i heq
    rw [(List.cons.inj heq).2] at h
    exact absurd rfl (h 0x78 rfl).2
  · rename_i heq
    rw [(List.cons.inj heq).2] at h
    exact absurd rfl (h 0x58 rfl).1
  · rfl

theorem foldl_digits (base n : Nat) (digits : List UInt8) :
    digits.foldl (fun n c => n * base + digit c) n =
      n * base ^ digits.length + value base digits := by
  induction digits generalizing n with
  | nil => simp [value]
  | cons c digits ih =>
      rw [value, List.foldl_cons, List.foldl_cons, ih, ih (0 * base + digit c), List.length_cons]
      ring

theorem value_cons (base : Nat) (c : UInt8) (digits : List UInt8) :
    value base (c :: digits) = digit c * base ^ digits.length + value base digits := by
  rw [value, List.foldl_cons, foldl_digits, Nat.zero_mul, Nat.zero_add]

/-- Digits in front count for more. -/
theorem value_append (base : Nat) (high low : List UInt8) :
    value base (high ++ low) = value base high * base ^ low.length + value base low := by
  rw [value, List.foldl_append, foldl_digits]
  rfl

theorem digit_lt (c : UInt8) : isHexDigit c = true → digit c < 16 := by
  revert c
  exact forall_byte (by decide +kernel)

theorem value_lt {digits : List UInt8} (h : ∀ c ∈ digits, isHexDigit c = true) :
    value 16 digits < 16 ^ digits.length := by
  induction digits with
  | nil => decide
  | cons c digits ih =>
      have hc := digit_lt c (h c List.mem_cons_self)
      have hrest := ih fun d hd => h d (List.mem_cons_of_mem c hd)
      have hstep : (digit c + 1) * 16 ^ digits.length ≤ 16 * 16 ^ digits.length :=
        Nat.mul_le_mul_right _ hc
      rw [value_cons, List.length_cons, Nat.pow_succ]
      linarith [Nat.add_mul (digit c) 1 (16 ^ digits.length)]

/-- A string begins with digits and nothing else: no space, no sign and no `0x`. -/
structure Leading (digits front : List UInt8) : Prop where
  unspaced : (digits ++ front).dropWhile isSpace = digits ++ front
  unsigned : sign (digits ++ front) = (false, digits ++ front)
  unmarked : dropHexPrefix (digits ++ front) = digits ++ front
  run : (digits ++ front).takeWhile isHexDigit = digits
  rest : (digits ++ front).dropWhile isHexDigit = front

theorem Leading.of_digits {digits front : List UInt8} (hne : digits ≠ [])
    (h : ∀ c ∈ digits, isHexDigit c = true) (hstop : ∀ c ∈ front.head?, isAlnum c = false) :
    Leading digits front := by
  obtain ⟨c, ds, rfl⟩ := List.exists_cons_of_ne_nil hne
  have hc := isAlnum_spec c (isHexDigit_spec c (h c List.mem_cons_self)).1
  have hfront : ∀ d ∈ front.head?, isHexDigit d = false ∧ d ≠ 0x58 ∧ d ≠ 0x78 := by
    intro d hd
    have hnot := hstop d hd
    refine ⟨?_, ?_, ?_⟩
    · by_contra hhex
      rw [(isHexDigit_spec d (by simpa using hhex)).1] at hnot
      cases hnot
    · rintro rfl
      exact absurd hnot (by decide)
    · rintro rfl
      exact absurd hnot (by decide)
  have hnone : front.takeWhile isHexDigit = [] ∧ front.dropWhile isHexDigit = front := by
    cases front with
    | nil => exact ⟨rfl, rfl⟩
    | cons d front =>
        have hd := (hfront d rfl).1
        exact ⟨List.takeWhile_cons_of_neg (by simp [hd]), List.dropWhile_cons_of_neg (by simp [hd])⟩
  refine ⟨List.dropWhile_cons_of_neg (by simp [hc.1]), sign_of_ne hc.2.2.2.2.1 hc.2.2.2.1 _,
    dropHexPrefix_of_ne fun d hd => ?_, ?_, ?_⟩
  · cases ds with
    | nil => exact (hfront d hd).2
    | cons e ds =>
        obtain rfl : e = d := by simpa using hd
        exact (isHexDigit_spec e (h e (by simp))).2
  · rw [List.takeWhile_append_of_pos h, hnone.1, List.append_nil]
  · rw [List.dropWhile_append_of_pos h, hnone.2]

/-- Digits that no letter or digit follows are a number. -/
theorem hexNumber_digits {digits tail : List UInt8} (hne : digits ≠ [])
    (h : ∀ c ∈ digits, isHexDigit c = true) (hstop : ∀ c ∈ tail.head?, isAlnum c = false) :
    hexNumber (digits ++ tail) = some (false, value 16 digits, tail) := by
  have hleading := Leading.of_digits hne h hstop
  simp only [hexNumber, hleading.unspaced, hleading.unsigned, hleading.unmarked, hleading.run]
  simp [hne, hleading.run, hleading.rest]

/-- Digits are taken as a whole if they fill the width or no letter or digit follows. -/
theorem hex_run {digits tail : List UInt8} {width : Nat} (hne : digits ≠ [])
    (h : ∀ c ∈ digits, isHexDigit c = true) (hle : digits.length ≤ width)
    (hstop : ∀ c ∈ (tail.take (width - digits.length)).head?, isAlnum c = false) :
    hex width (digits ++ tail) = some (UInt32.ofNat (value 16 digits), tail) := by
  have hskip : (digits ++ tail).dropWhile isSpace = digits ++ tail := by
    obtain ⟨c, ds, rfl⟩ := List.exists_cons_of_ne_nil hne
    have hc := isAlnum_spec c (isHexDigit_spec c (h c List.mem_cons_self)).1
    exact List.dropWhile_cons_of_neg (by simp [hc.1])
  have hwidth : (digits ++ tail).take width = digits ++ tail.take (width - digits.length) := by
    rw [List.take_append, List.take_of_length_le hle]
  have hrest : (digits ++ tail).drop width = tail.drop (width - digits.length) := by
    rw [List.drop_append, List.drop_of_length_le hle, List.nil_append]
  simp only [hex, hskip, hwidth, hrest, hexNumber_digits hne h hstop, Option.map_some,
    List.take_append_drop]
  rfl

/-- As many digits as the width are taken as a whole, whatever follows. -/
theorem hex_digits {digits : List UInt8} (hne : digits ≠ [])
    (h : ∀ c ∈ digits, isHexDigit c = true) (tail : List UInt8) :
    hex digits.length (digits ++ tail) = some (UInt32.ofNat (value 16 digits), tail) :=
  hex_run hne h (Nat.le_refl _) (by simp)

/-! ### What stands behind a NUL -/

/-- The end of a string is like a NUL, whatever stands behind. -/
theorem takeWhile_nul {p : UInt8 → Bool} (hp : p 0 = false) (s more : List UInt8) :
    (s ++ 0 :: more).takeWhile p = s.takeWhile p := by
  induction s with
  | nil => exact List.takeWhile_cons_of_neg (by simp [hp])
  | cons c s ih =>
      by_cases hc : p c = true
      · rw [List.cons_append, List.takeWhile_cons_of_pos hc, List.takeWhile_cons_of_pos hc, ih]
      · rw [List.cons_append, List.takeWhile_cons_of_neg hc, List.takeWhile_cons_of_neg hc]

theorem dropWhile_nul {p : UInt8 → Bool} (hp : p 0 = false) (s more : List UInt8) :
    (s ++ 0 :: more).dropWhile p = s.dropWhile p ++ 0 :: more := by
  induction s with
  | nil => exact List.dropWhile_cons_of_neg (by simp [hp])
  | cons c s ih =>
      by_cases hc : p c = true
      · rw [List.cons_append, List.dropWhile_cons_of_pos hc, List.dropWhile_cons_of_pos hc, ih]
      · rw [List.cons_append, List.dropWhile_cons_of_neg hc, List.dropWhile_cons_of_neg hc,
          List.cons_append]

theorem sign_nul (s more : List UInt8) :
    sign (s ++ 0 :: more) = ((sign s).1, (sign s).2 ++ 0 :: more) := by
  cases s with
  | nil => rfl
  | cons c s =>
      by_cases hminus : c = 0x2d
      · subst hminus
        rfl
      by_cases hplus : c = 0x2b
      · subst hplus
        rfl
      · rw [List.cons_append, sign_of_ne hminus hplus, sign_of_ne hminus hplus, List.cons_append]

theorem dropHexPrefix_nul (s more : List UInt8) :
    dropHexPrefix (s ++ 0 :: more) = dropHexPrefix s ++ 0 :: more := by
  match s with
  | [] => rfl
  | [c] =>
      have hnul : ∀ d ∈ (0 :: more).head?, d ≠ 0x58 ∧ d ≠ 0x78 := by simp
      rw [List.singleton_append, dropHexPrefix_of_ne hnul, dropHexPrefix_of_ne (by simp)]
      rfl
  | c :: d :: t =>
      by_cases hprefix : c = 0x30 ∧ (d = 0x58 ∨ d = 0x78)
      · obtain ⟨rfl, rfl | rfl⟩ := hprefix <;> rfl
      · have hnone (r : List UInt8) : dropHexPrefix (c :: d :: r) = c :: d :: r := by
          unfold dropHexPrefix
          split
          · rename_i heq
            obtain ⟨hc, htail⟩ := List.cons.inj heq
            exact absurd ⟨hc, .inr (List.cons.inj htail).1⟩ hprefix
          · rename_i heq
            obtain ⟨hc, htail⟩ := List.cons.inj heq
            exact absurd ⟨hc, .inl (List.cons.inj htail).1⟩ hprefix
          · rfl
        rw [List.cons_append, List.cons_append, hnone, hnone]
        rfl

/-- A number ends at a NUL at the latest. -/
theorem hexNumber_nul (s more : List UInt8) :
    hexNumber (s ++ 0 :: more) =
      (hexNumber s).map fun found => (found.1, found.2.1, found.2.2 ++ 0 :: more) := by
  have hspace : isSpace 0 = false := rfl
  have hdigit : isHexDigit 0 = false := rfl
  simp only [hexNumber, dropWhile_nul hspace, sign_nul, dropHexPrefix_nul, takeWhile_nul hdigit]
  split_ifs <;> simp_all [takeWhile_nul hdigit, dropWhile_nul hdigit]

/-- One character is no number unless it is a digit. -/
theorem hexNumber_single (c : UInt8) : isHexDigit c = false → hexNumber [c] = none := by
  revert c
  exact forall_byte (by decide +kernel)

/-- One character in front of a NUL is no number unless it is a digit. -/
theorem hex_single {c : UInt8} (h : isHexDigit c = false) (s : List UInt8) :
    hex 2 (c :: 0 :: s) = none := by
  by_cases hspace : isSpace c = true
  · have hnone : hexNumber (0 :: s.take 1) = none := by
      have hnul := hexNumber_nul [] (s.take 1)
      rw [List.nil_append] at hnul
      rw [hnul]
      rfl
    have hskip : (c :: 0 :: s).dropWhile isSpace = 0 :: s := by
      rw [List.dropWhile_cons_of_pos hspace]
      rfl
    simp only [hex, hskip, List.take_succ_cons, hnone, Option.map_none]
  · have hnone : hexNumber [c, 0] = none := by
      have hnul := hexNumber_nul [c] []
      rw [List.singleton_append] at hnul
      rw [hnul, hexNumber_single c h]
      rfl
    simp only [hex, List.dropWhile_cons_of_neg hspace, List.take_succ_cons, List.take_zero, hnone,
      Option.map_none]

theorem strtoul_nul (s more : List UInt8) :
    strtoul (s ++ 0 :: more) = ((strtoul s).1, (strtoul s).2 ++ 0 :: more) := by
  rw [strtoul, strtoul, hexNumber_nul]
  rcases hexNumber s with _ | ⟨minus, n, rest⟩
  · rfl
  · simp only [Option.map_some]
    split_ifs <;> rfl

theorem sign_suffix (s : List UInt8) : (sign s).2 <:+ s := by
  unfold sign
  split
  · exact List.suffix_cons _ _
  · exact List.suffix_cons _ _
  · exact List.suffix_rfl

theorem dropHexPrefix_suffix (s : List UInt8) : dropHexPrefix s <:+ s := by
  unfold dropHexPrefix
  split
  · exact (List.suffix_cons _ _).trans (List.suffix_cons _ _)
  · exact (List.suffix_cons _ _).trans (List.suffix_cons _ _)
  · exact List.suffix_rfl

theorem hexNumber_suffix {s rest : List UInt8} {minus : Bool} {n : Nat}
    (h : hexNumber s = some (minus, n, rest)) : rest <:+ s := by
  have hunsigned : (sign (s.dropWhile isSpace)).2 <:+ s :=
    (sign_suffix _).trans (List.dropWhile_suffix _)
  have hmarked := (dropHexPrefix_suffix _).trans hunsigned
  simp only [hexNumber] at h
  split_ifs at h
  · simp only [Option.some.injEq, Prod.mk.injEq] at h
    exact h.2.2 ▸ (List.dropWhile_suffix _).trans hunsigned
  · simp only [Option.some.injEq, Prod.mk.injEq] at h
    exact h.2.2 ▸ (List.dropWhile_suffix _).trans hmarked

/-- What a conversion leaves is the end of the string. -/
theorem strtoul_suffix (s : List UInt8) : (strtoul s).2 <:+ s := by
  rw [strtoul]
  split
  · exact List.suffix_rfl
  · rename_i minus n rest hnumber
    split
    · exact hexNumber_suffix hnumber
    · exact hexNumber_suffix hnumber

theorem takeWhile_append_of_mem {p : UInt8 → Bool} (hp : p 0 = false) {s : List UInt8}
    (hnul : 0 ∈ s) (more : List UInt8) : (s ++ more).takeWhile p = s.takeWhile p := by
  obtain ⟨a, b, rfl⟩ := List.append_of_mem hnul
  rw [List.append_assoc, List.cons_append, takeWhile_nul hp, takeWhile_nul hp]

/-- Which number stands at the front of a string does not depend on what is behind its NUL. -/
theorem hex_nul (width : Nat) (s more : List UInt8) :
    (hex width (s ++ 0 :: more)).map Prod.fst = (hex width s).map Prod.fst := by
  have hspace : isSpace 0 = false := rfl
  simp only [hex, dropWhile_nul hspace]
  generalize s.dropWhile isSpace = t
  have hsame : (hexNumber ((t ++ 0 :: more).take width)).map (fun found => (found.1, found.2.1)) =
      (hexNumber (t.take width)).map fun found => (found.1, found.2.1) := by
    by_cases hwidth : width ≤ t.length
    · rw [List.take_append_of_le_length hwidth]
    · obtain ⟨k, hk⟩ : ∃ k, width - t.length = k + 1 := ⟨width - t.length - 1, by omega⟩
      rw [List.take_append, hk, List.take_succ_cons, List.take_of_length_le (by omega),
        hexNumber_nul]
      cases hexNumber t with
      | none => rfl
      | some found => rfl
  have hfst (o : Option (Bool × Nat × List UInt8)) (more : List UInt8) :
      (o.map fun (minus, n, rest) =>
          (if minus then -UInt32.ofNat n else UInt32.ofNat n, rest ++ more)).map Prod.fst =
        (o.map fun found => (found.1, found.2.1)).map fun (minus, n) =>
          if minus then -UInt32.ofNat n else UInt32.ofNat n := by
    cases o with
    | none => rfl
    | some found => rfl
  rw [hfst, hfst, hsame]

/-- A number ends in front of a NUL, whatever stands behind. -/
theorem hex_append {s rest : List UInt8} {width : Nat} {n : UInt32} (hnul : 0 ∈ s)
    (h : hex width s = some (n, rest)) (more : List UInt8) :
    ∃ rest', hex width (s ++ more) = some (n, rest') := by
  obtain ⟨a, b, rfl⟩ := List.append_of_mem hnul
  have hsame : (hex width (a ++ 0 :: (b ++ more))).map Prod.fst = some n := by
    rw [hex_nul, ← hex_nul width a b, h, Option.map_some]
  obtain ⟨⟨m, rest'⟩, hfound, rfl⟩ := Option.map_eq_some_iff.mp hsame
  exact ⟨rest', by rw [List.append_assoc]; exact hfound⟩

/-! ### Where a number stands -/

/-- A string begins with a number of at most `width` characters: white space, a sign that
leaves room for a digit, and a digit. -/
def Numeral (width : Nat) (s : List UInt8) : Prop :=
  ∃ spaces signs c rest, s = spaces ++ (signs ++ c :: rest) ∧ (∀ d ∈ spaces, isSpace d = true) ∧
    signs ∈ [[], [0x2b], [0x2d]] ∧ signs.length < width ∧ isHexDigit c = true

/-- Behind white space and a sign, a digit makes a number. -/
theorem hexNumber_isSome (s : List UInt8) : (hexNumber s).isSome ↔
    ∃ c rest, (sign (s.dropWhile isSpace)).2 = c :: rest ∧ isHexDigit c = true := by
  simp only [hexNumber]
  generalize (sign (s.dropWhile isSpace)).2 = t
  have hsome {digits : List UInt8} {number : Bool × Nat × List UInt8} :
      (if digits = [] then none else some number).isSome = true ↔ digits ≠ [] := by
    split_ifs with h <;> simp [h]
  rw [hsome]
  constructor
  · intro h
    by_contra hnone
    have hrun : t.takeWhile isHexDigit = [] := by
      cases t with
      | nil => rfl
      | cons c t => exact List.takeWhile_cons_of_neg fun hc => hnone ⟨c, t, rfl, hc⟩
    have hunmarked : dropHexPrefix t = t := by
      unfold dropHexPrefix
      split
      · exact absurd ⟨_, _, rfl, by decide⟩ hnone
      · exact absurd ⟨_, _, rfl, by decide⟩ hnone
      · rfl
    rw [hunmarked, if_pos hrun] at h
    exact h hrun
  · rintro ⟨c, rest, rfl, hc⟩
    split_ifs with hmarked
    · rw [List.takeWhile_cons_of_pos hc]
      exact List.cons_ne_nil _ _
    · exact hmarked

theorem sign_cons (s : List UInt8) : ∃ signs, s = signs ++ (sign s).2 ∧
    signs ∈ [[], [0x2b], [0x2d]] := by
  unfold sign
  split
  · exact ⟨[0x2d], rfl, by decide⟩
  · exact ⟨[0x2b], rfl, by decide⟩
  · exact ⟨[], rfl, by decide⟩

/-- A digit is no sign. -/
theorem sign_digit {signs : List UInt8} (h : signs ∈ [[], [0x2b], [0x2d]]) {c : UInt8}
    (hc : isHexDigit c = true) (rest : List UInt8) : (sign (signs ++ c :: rest)).2 = c :: rest := by
  have hsign := isAlnum_spec c (isHexDigit_spec c hc).1
  simp only [List.mem_cons, List.not_mem_nil, or_false] at h
  obtain rfl | rfl | rfl := h
  · exact congrArg Prod.snd (sign_of_ne hsign.2.2.2.2.1 hsign.2.2.2.1 rest)
  · rfl
  · rfl

/-- What begins with a sign or a digit has no white space in front. -/
theorem signed_unspaced {signs : List UInt8} (h : signs ∈ [[], [0x2b], [0x2d]]) {c : UInt8}
    (hc : isHexDigit c = true) (rest : List UInt8) :
    (signs ++ c :: rest).dropWhile isSpace = signs ++ c :: rest := by
  have hspace := (isAlnum_spec c (isHexDigit_spec c hc).1).1
  simp only [List.mem_cons, List.not_mem_nil, or_false] at h
  obtain rfl | rfl | rfl := h
  · exact List.dropWhile_cons_of_neg (by simp [hspace])
  · rfl
  · rfl

theorem hex_isSome (width : Nat) (s : List UInt8) : (hex width s).isSome ↔ Numeral width s := by
  rw [hex, Option.isSome_map, hexNumber_isSome]
  constructor
  · rintro ⟨c, rest, hsign, hc⟩
    have hsplit := List.takeWhile_append_dropWhile (p := isSpace) (l := s)
    have hstop := List.head?_dropWhile_not isSpace s
    generalize s.dropWhile isSpace = t at *
    have hskip : (t.take width).dropWhile isSpace = t.take width := by
      cases h : t.take width with
      | nil => rfl
      | cons d u =>
          have hd : t.head? = some d := by
            cases t with
            | nil => simp at h
            | cons e t => cases width <;> simp_all
          rw [hd] at hstop
          exact List.dropWhile_cons_of_neg (by simpa using hstop)
    rw [hskip] at hsign
    obtain ⟨signs, htake, hsigns⟩ := sign_cons (t.take width)
    rw [hsign] at htake
    have hlen := congrArg List.length htake
    rw [List.length_take, List.length_append, List.length_cons] at hlen
    refine ⟨s.takeWhile isSpace, signs, c, rest ++ t.drop width, ?_,
      fun d hd => List.mem_takeWhile_imp hd, hsigns, by omega, hc⟩
    rw [← List.cons_append, ← List.append_assoc signs, ← htake, List.take_append_drop, hsplit]
  · rintro ⟨spaces, signs, c, rest, rfl, hspaces, hsigns, hwidth, hc⟩
    have htake : (signs ++ c :: rest).take width =
        signs ++ c :: rest.take (width - signs.length - 1) := by
      rw [List.take_append, List.take_of_length_le (by omega)]
      obtain ⟨k, hk⟩ : ∃ k, width - signs.length = k + 1 := ⟨width - signs.length - 1, by omega⟩
      rw [hk, List.take_succ_cons, Nat.add_sub_cancel]
    refine ⟨c, rest.take (width - signs.length - 1), ?_, hc⟩
    rw [List.dropWhile_append_of_pos hspaces, signed_unspaced hsigns hc, htake,
      signed_unspaced hsigns hc, sign_digit hsigns hc]

/-- A letter or a digit stands for itself: it begins a number if it is a digit. -/
theorem numeral_alnum {c : UInt8} (hc : isAlnum c = true) {width : Nat} (hwidth : 0 < width)
    (s : List UInt8) : Numeral width (c :: s) ↔ isHexDigit c = true := by
  have hspec := isAlnum_spec c hc
  constructor
  · rintro ⟨spaces, signs, d, rest, hsplit, hspaces, hsigns, _, hd⟩
    cases spaces with
    | cons e spaces =>
        obtain rfl := (List.cons.inj hsplit).1
        exact absurd (hspaces c List.mem_cons_self) (by simp [hspec.1])
    | nil =>
        simp only [List.mem_cons, List.not_mem_nil, or_false] at hsigns
        obtain rfl | rfl | rfl := hsigns
        · obtain rfl := (List.cons.inj hsplit).1
          exact hd
        · exact absurd (List.cons.inj hsplit).1 hspec.2.2.2.1
        · exact absurd (List.cons.inj hsplit).1 hspec.2.2.2.2.1
  · intro hhex
    exact ⟨[], [], c, s, rfl, by simp, by simp, hwidth, hhex⟩

end Scan
