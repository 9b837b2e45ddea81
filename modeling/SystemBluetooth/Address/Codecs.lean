import SystemBluetooth.Address.Basic
import SystemBluetooth.Patchram.Options

/-!
# All functions read and write the same address

A text of an address is read alike by `str2ba`, by `get_bdaddr` and by the `--bd_addr`
option of the firmware loader, whatever the length of its groups and the case of its digits.
`ba2str` writes one of these texts, the one with two upper-case digits in each group, so all
three undo it.
-/

namespace Scan.Group

/-! ### Two upper-case digits -/

def toUpper (c : UInt8) : UInt8 := if isLower c then c - 0x20 else c

theorem toUpper_isHexDigit (c : UInt8) : isHexDigit c = true →
    isHexDigit (toUpper c) = true ∧ digit (toUpper c) = digit c := by
  revert c
  exact forall_byte (by decide +kernel)

/-- The group with its zeros and in upper case. -/
def upper (g : Group 2) : Group 2 where
  digits := List.replicate (2 - g.digits.length) 0x30 ++ g.digits.map toUpper
  nonempty := by simp [g.nonempty]
  short := by
    have hshort := g.short
    simp
    omega
  hex := by
    intro c hc
    obtain hc | hc := List.mem_append.mp hc
    · rw [List.eq_of_mem_replicate hc]
      decide
    · obtain ⟨d, hd, rfl⟩ := List.mem_map.mp hc
      exact (toUpper_isHexDigit d (g.hex d hd)).1

end Scan.Group

namespace Address

theorem upperDigit_digit (c : UInt8) : Scan.isHexDigit c = true →
    upperDigit (Scan.digit c) = Scan.Group.toUpper c := by
  revert c
  exact Scan.forall_byte (by decide +kernel)

theorem printByte_spec (x : UInt8) : (∀ c ∈ printByte x, Scan.isHexDigit c = true) ∧
    UInt8.ofNat (Scan.value 16 (printByte x)) = x := by
  have hall : ∀ x, (printByte x).all Scan.isHexDigit = true ∧
      UInt8.ofNat (Scan.value 16 (printByte x)) = x := Scan.forall_byte (by decide +kernel)
  exact ⟨List.all_eq_true.mp (hall x).1, (hall x).2⟩

/-- A byte is printed as the group it is read from, in upper case. -/
theorem printByte_value (g : Scan.Group 2) :
    printByte (UInt8.ofNat g.value) = g.upper.digits := by
  obtain ⟨digits, hne, hshort, hhex⟩ := g
  have hpair (high low : UInt8) (hhigh : Scan.isHexDigit high = true)
      (hlow : Scan.isHexDigit low = true) :
      printByte (UInt8.ofNat (Scan.value 16 [high, low])) =
        [Scan.Group.toUpper high, Scan.Group.toUpper low] := by
    have hh := Scan.digit_lt high hhigh
    have hl := Scan.digit_lt low hlow
    have hvalue : Scan.value 16 [high, low] = 16 * Scan.digit high + Scan.digit low := by
      simp [Scan.value, Nat.mul_comm]
    have hbyte : (UInt8.ofNat (16 * Scan.digit high + Scan.digit low)).toNat =
        16 * Scan.digit high + Scan.digit low := by
      apply UInt8.toNat_ofNat_of_lt'
      change _ < 256
      omega
    have hdiv : (16 * Scan.digit high + Scan.digit low) / 16 = Scan.digit high := by omega
    have hmod : (16 * Scan.digit high + Scan.digit low) % 16 = Scan.digit low := by omega
    rw [hvalue, printByte, hbyte, hdiv, hmod, upperDigit_digit high hhigh,
      upperDigit_digit low hlow]
  rcases digits with _ | ⟨c, _ | ⟨d, _ | ⟨_, _⟩⟩⟩
  · exact absurd rfl hne
  · have hzero := hpair 0x30 c (by decide) (hhex c (by simp))
    have hvalue : Scan.value 16 [0x30, c] = Scan.value 16 [c] := by
      simp [Scan.value, Scan.digit, Scan.isDigit]
    rw [hvalue] at hzero
    exact hzero
  · exact hpair c d (hhex c (by simp)) (hhex d (by simp))
  · simp only [List.length_cons] at hshort
    omega

/-! ### Reading a text -/

section Reading

variable {g : Scan.Group 2} {c : UInt8} {s : List UInt8} {i : Fin 6} {is : List (Fin 6)}

theorem str2baLoop_group (hc : Scan.isAlnum c = false) (hnul : 0 ∈ c :: s) (ba : Bdaddr) :
    str2baLoop (i :: is) (g.digits ++ c :: s) ba =
      str2baLoop is s (ba.store i (UInt8.ofNat g.value)) := by
  have hstop : ∀ d ∈ (c :: s).head?, Scan.isAlnum d = false := by simpa using hc
  have hread := g.strtoul_digits (by decide) hstop
  rw [str2baLoop, if_neg (not_not_intro (List.mem_append_right _ hnul)), hread]
  dsimp only
  rw [UInt32.toUInt8_ofNat', List.tail_cons, Bdaddr.store]

theorem getBdaddrLoop_group (hc : Scan.isAlnum c = false) (hnul : 0 ∈ c :: s)
    (hsep : c = 0x3a ∨ i = 5) (ba : Bdaddr) :
    getBdaddrLoop (i :: is) (g.digits ++ c :: s) ba =
      getBdaddrLoop is s (ba.store (5 - i) (UInt8.ofNat g.value)) := by
  have hstop : ∀ d ∈ (c :: s).head?, Scan.isAlnum d = false := by simpa using hc
  have hread := g.strtol_digits (by decide) hstop
  have hlt : g.value < 16 ^ 2 := g.value_lt
  have hmod : ((g.value : Int) % 2 ^ 8).toNat = g.value := by omega
  have hbyte : UInt8.ofInt g.value = UInt8.ofNat g.value := by rw [UInt8.ofInt, hmod]
  rw [getBdaddrLoop, if_neg (not_not_intro (List.mem_append_right _ hnul)), hread]
  dsimp only
  rw [if_neg]
  · rw [hbyte, List.tail_cons, Bdaddr.store]
  · rintro ⟨hne, hi⟩
    obtain rfl | rfl := hsep
    · exact hne rfl
    · exact hi rfl

end Reading

/-- All bytes are overwritten. -/
theorem store_all (ba : Bdaddr) {x₀ x₁ x₂ x₃ x₄ x₅ : UInt8} :
    (((((ba.store 5 x₅).store 4 x₄).store 3 x₃).store 2 x₂).store 1 x₁).store 0 x₀ =
      ⟨#v[x₀, x₁, x₂, x₃, x₄, x₅]⟩ := by
  obtain ⟨⟨⟨cells⟩, size⟩⟩ := ba
  match cells, size with
  | [_, _, _, _, _, _], _ => rfl

theorem str2ba_text (t : Text) (behind : List UInt8) (ba : Bdaddr) :
    str2ba (t.string ++ 0 :: behind) ba = some (0, t.address) := by
  obtain ⟨groups, six⟩ := t
  match groups, six with
  | [g₁, g₂, g₃, g₄, g₅, g₆], six =>
      have hsep : Scan.isAlnum 0x3a = false := rfl
      simp only [Text.string, Scan.joined_cons_cons, Scan.joined_singleton, List.append_assoc,
        List.cons_append]
      rw [str2ba, str2baLoop_group hsep (by simp), str2baLoop_group hsep (by simp),
        str2baLoop_group hsep (by simp), str2baLoop_group hsep (by simp),
        str2baLoop_group hsep (by simp), str2baLoop_group rfl (by simp), str2baLoop]
      rw [Option.map_some]
      exact congrArg (fun ba => some ((0 : Int), ba)) (store_all ba)

theorem getBdaddr_text (t : Text) (behind : List UInt8) (ba : Bdaddr) :
    getBdaddr (t.string ++ 0 :: behind) ba = some (0, t.address) := by
  obtain ⟨groups, six⟩ := t
  match groups, six with
  | [g₁, g₂, g₃, g₄, g₅, g₆], six =>
      have hsep : Scan.isAlnum 0x3a = false := rfl
      simp only [Text.string, Scan.joined_cons_cons, Scan.joined_singleton, List.append_assoc,
        List.cons_append]
      rw [getBdaddr, getBdaddrLoop_group hsep (by simp) (Or.inl rfl),
        getBdaddrLoop_group hsep (by simp) (Or.inl rfl),
        getBdaddrLoop_group hsep (by simp) (Or.inl rfl),
        getBdaddrLoop_group hsep (by simp) (Or.inl rfl),
        getBdaddrLoop_group hsep (by simp) (Or.inl rfl),
        getBdaddrLoop_group rfl (by simp) (Or.inr rfl), getBdaddrLoop]
      exact congrArg (fun ba => some ((0 : Int), ba)) (store_all ba)

/-- The `--bd_addr` option takes the same bytes. -/
theorem parseBdaddr_text (t : Text) {tail : List UInt8} (hend : ∀ c ∈ tail.head?, c = 0)
    (w : Patchram.World) : Patchram.parseBdaddr (t.string ++ tail) w = (.ok 0,
      { w with config :=
        { w.config with
          hciWriteBdAddr := w.config.hciWriteBdAddr.take 4 ++ t.address.b.toList
          bdaddrFlag := true } }) := by
  have hstop : ∀ c ∈ tail.head?, Scan.isAlnum c = false := by
    intro c hc
    rw [hend c hc]
    rfl
  have hsep : Scan.isAlnum 0x3a = false := rfl
  have hfound := Scan.separated_joined hsep t.groups hstop
  rw [t.six] at hfound
  rw [Patchram.parseBdaddr_apply, Text.string, hfound]
  obtain ⟨groups, six⟩ := t
  match groups, six with
  | [g₁, g₂, g₃, g₄, g₅, g₆], six =>
      simp [List.range, List.range.loop, Text.address]

/-! ### Writing a text -/

namespace Text

def upper (t : Text) : Text where
  groups := t.groups.map Scan.Group.upper
  six := by rw [List.length_map, t.six]

/-- The group a byte is printed as. -/
def group (x : UInt8) : Scan.Group 2 where
  digits := printByte x
  nonempty := List.cons_ne_nil _ _
  short := Nat.le_refl _
  hex := (printByte_spec x).1

def ofBdaddr (ba : Bdaddr) : Text where
  groups := ba.b.toList.reverse.map group
  six := by simp

theorem ofBdaddr_address (ba : Bdaddr) : (ofBdaddr ba).address = ba := by
  have hbyte : ∀ x, UInt8.ofNat (group x).value = x := fun x => (printByte_spec x).2
  obtain ⟨⟨⟨cells⟩, size⟩⟩ := ba
  simp [address, ofBdaddr, hbyte, Function.comp_def]

end Text

theorem ba2str_ofBdaddr (ba : Bdaddr) : ba2str ba = (17, (Text.ofBdaddr ba).string ++ [0]) := by
  obtain ⟨⟨⟨cells⟩, size⟩⟩ := ba
  match cells, size with
  | [x₀, x₁, x₂, x₃, x₄, x₅], size => rfl

theorem ba2str_address (t : Text) : ba2str t.address = (17, t.upper.string ++ [0]) := by
  have hgroup : ∀ g : Scan.Group 2, Text.group (UInt8.ofNat g.value) = g.upper :=
    fun g => Scan.Group.ext (printByte_value g)
  have hsame : Text.ofBdaddr t.address = t.upper := by
    apply Text.ext
    simp [Text.ofBdaddr, Text.address, Text.upper, hgroup, Function.comp_def]
  rw [ba2str_ofBdaddr, hsame]

/-- There is a colon between two groups. -/
theorem Text.string_count (t : Text) : t.string.count 0x3a = 5 := by
  have hgroup : ∀ g : Scan.Group 2, g.digits.count 0x3a = 0 := fun g =>
    List.count_eq_zero.mpr fun hmem => absurd (g.hex _ hmem) (by decide)
  obtain ⟨groups, six⟩ := t
  match groups, six with
  | [g₁, g₂, g₃, g₄, g₅, g₆], six => simp [Text.string, List.count_append, hgroup]

/-! ### The codecs agree -/

/-- What is printed is read back, and every text is read alike by all functions and printed in
its normal form. -/
theorem codecs_agree (ba : Bdaddr) (t : Text) (behind : List UInt8) (old : Bdaddr)
    (w : Patchram.World) :
    (∃ str, ba2str ba = (17, str ++ [0]) ∧ str2ba (str ++ 0 :: behind) old = some (0, ba) ∧
      (Patchram.parseBdaddr str w).2.config.hciWriteBdAddr =
        w.config.hciWriteBdAddr.take 4 ++ ba.b.toList) ∧
      str2ba (t.string ++ 0 :: behind) old = some (0, t.address) ∧
      getBdaddr (t.string ++ 0 :: behind) old = some (0, t.address) ∧
      (Patchram.parseBdaddr t.string w).2.config.hciWriteBdAddr =
        w.config.hciWriteBdAddr.take 4 ++ t.address.b.toList ∧
      ba2str t.address = (17, t.upper.string ++ [0]) := by
  have hparse : ∀ t : Text, (Patchram.parseBdaddr t.string w).2.config.hciWriteBdAddr =
      w.config.hciWriteBdAddr.take 4 ++ t.address.b.toList := by
    intro t
    have hnone : ∀ c ∈ ([] : List UInt8).head?, c = 0 := by simp
    have hrun := parseBdaddr_text t hnone w
    rw [List.append_nil] at hrun
    rw [hrun]
  refine ⟨⟨(Text.ofBdaddr ba).string, ba2str_ofBdaddr ba, ?_, ?_⟩, str2ba_text t behind old,
    getBdaddr_text t behind old, hparse t, ba2str_address t⟩
  · rw [str2ba_text, Text.ofBdaddr_address]
  · rw [hparse, Text.ofBdaddr_address]

end Address
