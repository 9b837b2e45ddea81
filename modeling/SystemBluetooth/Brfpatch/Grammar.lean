import SystemBluetooth.Brfpatch.Arguments

/-!
# Well-formed commands

The lines of a script as they are meant: tokens with white space between them, and what
they denote, without any buffer. A command that is written out denotes what it means: the
scans find every number where it stands, and after every argument the pointer is at the
next white space or at the closing quotation mark, from where it advances to the next one.
-/

namespace Brfpatch

structure HexDigit where
  char : UInt8
  valid : Scan.isHexDigit char = true

/-- White space that does not end a line. -/
structure Blank where
  char : UInt8
  space : Scan.isSpace char = true
  inLine : char ≠ 0x0a

def zero : HexDigit := ⟨0x30, by decide⟩

def space : Blank := ⟨0x20, by decide, by decide⟩

/-- At least one blank. -/
structure Gap where
  first : Blank
  more : List Blank

structure Pair where
  high : HexDigit
  low : HexDigit
  colon : Bool

inductive Arg where
  | literal (digits : List HexDigit) (size : digits.length ∈ [2, 4, 6, 8, 16])
  | quoted (pairs : List Pair)

/-- A line that sends a command. -/
structure Command where
  indent : List Blank
  name : List UInt8
  named : ∀ c ∈ name, c ≠ 0 ∧ Scan.isSpace c = false
  gap : Gap
  opcode : List HexDigit
  four : opcode.length = 4
  args : List (Gap × Arg)
  trailing : List Blank

/-! ### Text and meaning -/

def chars (digits : List HexDigit) : List UInt8 := digits.map HexDigit.char

def number (digits : List HexDigit) : Nat := Scan.value 16 (chars digits)

def blanks (bs : List Blank) : List UInt8 := bs.map Blank.char

def Gap.text (gap : Gap) : List UInt8 := gap.first.char :: blanks gap.more

def Pair.text (p : Pair) : List UInt8 :=
  p.high.char :: p.low.char :: if p.colon then [0x3a] else []

def Pair.byte (p : Pair) : List UInt8 := LittleEndian.encode 1 (number [p.high, p.low])

def Arg.text : Arg → List UInt8
  | literal digits _ => 0x30 :: 0x78 :: chars digits
  | quoted pairs => 0x22 :: pairs.flatMap Pair.text ++ [0x22]

/-- The bytes of a literal are those of its value; a quoted string has one for each pair. -/
def Arg.bytes : Arg → List UInt8
  | literal digits _ => LittleEndian.encode (digits.length / 2) (number digits)
  | quoted pairs => pairs.flatMap Pair.byte

def argsText (args : List (Gap × Arg)) : List UInt8 :=
  args.flatMap fun a => a.1.text ++ a.2.text

def Command.bytes (c : Command) : List UInt8 := c.args.flatMap fun a => a.2.bytes

def Command.body (c : Command) : List UInt8 :=
  [0x53, 0x65, 0x6e, 0x64, 0x5f] ++ c.name ++ (c.gap.text ++
    (0x30 :: 0x78 :: chars c.opcode ++ (argsText c.args ++ blanks c.trailing)))

def Command.text (c : Command) : List UInt8 := blanks c.indent ++ c.body

/-! ### Digits -/

theorem chars_valid (digits : List HexDigit) : ∀ c ∈ chars digits, Scan.isHexDigit c = true := by
  intro c hc
  obtain ⟨d, _, rfl⟩ := List.mem_map.mp hc
  exact d.valid

theorem chars_alnum (digits : List HexDigit) : ∀ c ∈ chars digits, Scan.isAlnum c = true :=
  fun c hc => (Scan.isHexDigit_spec c (chars_valid digits c hc)).1

theorem number_lt (digits : List HexDigit) : number digits < 16 ^ digits.length := by
  have h := Scan.value_lt (chars_valid digits)
  rwa [chars, List.length_map] at h

/-- Up to eight digits are scanned as their number. -/
theorem scans_chars {digits : List HexDigit} (hne : digits ≠ []) (hlen : digits.length ≤ 8)
    {tail : List UInt8} (hnul : 0 ∈ tail) :
    ∃ value, Scans digits.length (chars digits ++ tail) value ∧
      value.toNat = number digits := by
  have hchars : chars digits ≠ [] := by simpa [chars] using hne
  have hscan := Scan.hex_digits hchars (chars_valid digits) tail
  rw [show (chars digits).length = digits.length by simp [chars]] at hscan
  refine ⟨_, ⟨by simp [hnul], _, hscan⟩, ?_⟩
  have hlt : number digits < 2 ^ 32 :=
    calc number digits < 16 ^ digits.length := number_lt digits
      _ ≤ 16 ^ 8 := Nat.pow_le_pow_right (by decide) hlen
      _ = 2 ^ 32 := by decide
  exact UInt32.toNat_ofNat_of_lt' hlt

theorem HexDigit.spec (d : HexDigit) :
    Scan.isSpace d.char = false ∧ d.char ≠ 0 ∧ d.char ≠ 0x22 ∧ d.char ≠ 0x3a := by
  have h := Scan.isAlnum_spec d.char (Scan.isHexDigit_spec d.char d.valid).1
  exact ⟨h.1, h.2.1, h.2.2.1, h.2.2.2.2.2⟩

/-! ### Words and white space -/

/-- No white space, and no end of a string. -/
def Word (w : List UInt8) : Prop := ∀ c ∈ w, c ≠ 0 ∧ Scan.isSpace c = false

/-- A word ends before this: white space or the end of a string. -/
def Boundary (s : List UInt8) : Prop := ∃ c t, s = c :: t ∧ (Scan.isSpace c = true ∨ c = 0)

/-- White space and the end of the string: what is left of a line. -/
def Ends (tail : List UInt8) : Prop :=
  ∃ bs s, tail = bs ++ 0 :: s ∧ ∀ d ∈ bs, Scan.isSpace d = true

theorem blanks_space (bs : List Blank) : ∀ d ∈ blanks bs, Scan.isSpace d = true := by
  intro d hd
  obtain ⟨b, _, rfl⟩ := List.mem_map.mp hd
  exact b.space

theorem Gap.space (gap : Gap) : ∀ d ∈ gap.text, Scan.isSpace d = true :=
  List.forall_mem_cons.mpr ⟨gap.first.space, blanks_space gap.more⟩

theorem Ends.boundary {tail : List UInt8} (h : Ends tail) : Boundary tail := by
  obtain ⟨bs, s, rfl, hbs⟩ := h
  cases bs with
  | nil => exact ⟨0, s, rfl, Or.inr rfl⟩
  | cons b bs => exact ⟨b, _, rfl, Or.inl (hbs b List.mem_cons_self)⟩

theorem Ends.nul {tail : List UInt8} (h : Ends tail) : 0 ∈ tail := by
  obtain ⟨bs, s, rfl, _⟩ := h
  simp

theorem Ends.blanks {tail : List UInt8} (h : Ends tail) (bs : List Blank) :
    Ends (blanks bs ++ tail) := by
  obtain ⟨ds, s, rfl, hds⟩ := h
  refine ⟨Brfpatch.blanks bs ++ ds, s, by simp, fun d hd => ?_⟩
  exact (List.mem_append.mp hd).elim (blanks_space bs d) (hds d)

/-- The run of letters and digits ends where the word does. -/
theorem takeWhile_chars (digits : List HexDigit) {s : List UInt8} (h : Boundary s) :
    (chars digits ++ s).takeWhile Scan.isAlnum = chars digits := by
  obtain ⟨c, t, rfl, hc⟩ := h
  have hstop : ¬ Scan.isAlnum c = true := by
    intro halnum
    have hspec := Scan.isAlnum_spec c halnum
    cases hc with
    | inl hc => exact absurd hspec.1 (by simp [hc])
    | inr hc => exact hspec.2.1 hc
  rw [List.takeWhile_append_of_pos (chars_alnum digits), List.takeWhile_cons_of_neg hstop,
    List.append_nil]

/-- From within a word to the next one. -/
theorem advance_word {w bs : List UInt8} (hw : Word w) (hbs : ∀ d ∈ bs, Scan.isSpace d = true)
    {c : UInt8} (hc : Scan.isSpace c = false) (hgap : bs ≠ [] ∨ c = 0) (s : List UInt8) :
    advance (w ++ (bs ++ c :: s)) = .ok (if c = 0 then none else some (c :: s)) := by
  have hword : (w ++ (bs ++ c :: s)).dropWhile (fun c => c != 0 && !Scan.isSpace c) =
      bs ++ c :: s := by
    rw [List.dropWhile_append_of_pos fun d hd => by simp [hw d hd]]
    cases bs with
    | nil =>
        obtain hgap | rfl := hgap
        · exact absurd rfl hgap
        · exact List.dropWhile_cons_of_neg (by simp)
    | cons b bs => exact List.dropWhile_cons_of_neg (by simp [hbs b List.mem_cons_self])
  have hspace : (bs ++ c :: s).dropWhile Scan.isSpace = c :: s := by
    rw [List.dropWhile_append_of_pos hbs, List.dropWhile_cons_of_neg (by simp [hc])]
  simp only [advance, hword, hspace]

/-! ### No command contains a newline -/

theorem blanks_inLine (bs : List Blank) : 0x0a ∉ blanks bs := by
  intro h
  obtain ⟨b, _, hb⟩ := List.mem_map.mp h
  exact b.inLine hb

theorem chars_inLine (digits : List HexDigit) : 0x0a ∉ chars digits := fun h =>
  absurd (chars_alnum digits _ h) (by decide)

theorem Gap.inLine (gap : Gap) : 0x0a ∉ gap.text :=
  List.not_mem_cons_of_ne_of_not_mem gap.first.inLine.symm (blanks_inLine gap.more)

theorem Pair.inLine (p : Pair) : 0x0a ∉ p.text := by
  have hchars : 0x0a ∉ chars [p.high, p.low] := chars_inLine _
  cases hcolon : p.colon <;> simpa [Pair.text, chars, hcolon] using hchars

theorem Arg.inLine (a : Arg) : 0x0a ∉ a.text := by
  cases a with
  | literal digits size => simpa [Arg.text] using chars_inLine digits
  | quoted pairs =>
      have hpairs : 0x0a ∉ pairs.flatMap Pair.text := by
        intro h
        obtain ⟨p, _, hp⟩ := List.mem_flatMap.mp h
        exact p.inLine hp
      simpa [Arg.text] using hpairs

theorem argsText_inLine (args : List (Gap × Arg)) : 0x0a ∉ argsText args := by
  intro h
  obtain ⟨a, _, ha⟩ := List.mem_flatMap.mp h
  exact (List.mem_append.mp ha).elim a.1.inLine a.2.inLine

theorem Command.inLine (c : Command) : 0x0a ∉ c.text := by
  have hname : 0x0a ∉ c.name := fun h => absurd (c.named _ h).2 (by decide)
  simp [Command.text, Command.body, blanks_inLine, hname, c.gap.inLine, chars_inLine,
    argsText_inLine]

/-! ### Arguments and commands -/

/-- Behind digit pairs stands no colon. -/
theorem pairs_next (pairs : List Pair) (s : List UInt8) : ∃ next t,
    pairs.flatMap Pair.text ++ 0x22 :: s = next :: t ∧ next ≠ 0x3a := by
  cases pairs with
  | nil => exact ⟨0x22, s, rfl, by decide⟩
  | cons p pairs => exact ⟨p.high.char, _, rfl, p.high.spec.2.2.2⟩

/-- All pairs up to the closing quotation mark. -/
theorem quoted_pairs (pairs : List Pair) {s : List UInt8} (hnul : 0 ∈ s) :
    Quoted (pairs.flatMap Pair.text ++ 0x22 :: s) (pairs.flatMap Pair.byte) (0x22 :: s) := by
  induction pairs with
  | nil => exact .stop (Or.inl rfl)
  | cons p pairs ih =>
      have hhigh := p.high.spec
      have hinside : ¬ (p.high.char = 0x22 ∨ p.high.char = 0) :=
        fun h => h.elim hhigh.2.2.1 hhigh.2.1
      have hscan {tail : List UInt8} (htail : 0 ∈ tail) :
          ∃ value, Scans 2 (p.high.char :: p.low.char :: tail) value ∧
            LittleEndian.encode 1 value.toNat = p.byte := by
        have hpair : [p.high, p.low] ≠ [] := List.cons_ne_nil _ _
        obtain ⟨value, hvalue, hnumber⟩ := scans_chars hpair (by simp) htail
        exact ⟨value, hvalue, by rw [hnumber, Pair.byte]⟩
      have hrest : 0 ∈ pairs.flatMap Pair.text ++ 0x22 :: s := by simp [hnul]
      rw [List.flatMap_cons, List.flatMap_cons, List.append_assoc]
      cases hcolon : p.colon with
      | true =>
          obtain ⟨value, hvalue, hbyte⟩ := hscan (List.mem_cons_of_mem 0x3a hrest)
          rw [← hbyte]
          simpa [Pair.text, hcolon] using Quoted.colon hinside hvalue ih
      | false =>
          obtain ⟨next, t, hnext, hother⟩ := pairs_next pairs s
          obtain ⟨value, hvalue, hbyte⟩ := hscan hrest
          rw [hnext] at ih hvalue
          rw [← hbyte]
          simpa [Pair.text, hcolon, hnext] using Quoted.pair hinside hother hvalue ih

theorem literal_short {digits : List HexDigit} {n : Nat} (hn : 1 ≤ n ∧ n ≤ 4)
    (hlen : digits.length = 2 * n) {s : List UInt8} (hs : Boundary s) (hnul : 0 ∈ s) :
    Argument (0x30 :: 0x78 :: (chars digits ++ s)) (LittleEndian.encode n (number digits)) s := by
  have hchars : (chars digits).length = 2 * n := by rw [chars, List.length_map, hlen]
  have hne : digits ≠ [] := fun h => by
    rw [h, List.length_nil] at hlen
    omega
  obtain ⟨value, hvalue, hnumber⟩ := scans_chars hne (by omega) hnul
  have h := Argument.short hn (by rw [takeWhile_chars digits hs, hchars]) (hlen ▸ hvalue)
  rwa [List.drop_left' hchars, hnumber] at h

/-- The two halves of sixteen digits, the higher one first. -/
theorem literal_long {digits : List HexDigit} (hlen : digits.length = 16) {s : List UInt8}
    (hs : Boundary s) (hnul : 0 ∈ s) :
    Argument (0x30 :: 0x78 :: (chars digits ++ s)) (LittleEndian.encode 8 (number digits)) s := by
  obtain ⟨high, low, rfl, hhigh⟩ : ∃ high low, digits = high ++ low ∧ high.length = 8 :=
    ⟨digits.take 8, digits.drop 8, by simp, by simp [hlen]⟩
  have hlow : low.length = 8 := by
    rw [List.length_append, hhigh] at hlen
    omega
  have hnonempty {l : List HexDigit} (h : l.length = 8) : l ≠ [] := fun hnil => by simp [hnil] at h
  have hchars : chars (high ++ low) = chars high ++ chars low := List.map_append
  have hlength {l : List HexDigit} (h : l.length = 8) : (chars l).length = 8 := by simp [chars, h]
  have hall : (chars (high ++ low)).length = 16 := by simp [chars, hhigh, hlow]
  have hnumber : number (high ++ low) = number high * 256 ^ 4 + number low := by
    rw [number, hchars, Scan.value_append, hlength hlow]
    rfl
  obtain ⟨upper, hupper, hfirst⟩ := scans_chars (hnonempty hhigh) (Nat.le_of_eq hhigh)
    (List.mem_append_right (chars low) hnul)
  obtain ⟨lower, hlower, hsecond⟩ := scans_chars (hnonempty hlow) (Nat.le_of_eq hlow) hnul
  have hdrop : (chars (high ++ low) ++ s).drop 8 = chars low ++ s := by
    rw [hchars, List.append_assoc, List.drop_left' (hlength hhigh)]
  rw [hhigh, ← List.append_assoc, ← hchars] at hupper
  rw [hlow, ← hdrop] at hlower
  have h := Argument.long (by rw [takeWhile_chars _ hs, hall]) hupper hlower
  have hhalf : number low < 2 ^ 32 := by
    have := number_lt low
    rw [hlow] at this
    omega
  rwa [List.drop_left' hall, hfirst, hsecond, ← LittleEndian.encode_halves hhalf,
    ← hnumber] at h

/-- Where an argument has been read, its closing quotation mark is still ahead. -/
def Arg.closing : Arg → List UInt8
  | literal _ _ => []
  | quoted _ => [0x22]

theorem Arg.closing_word (a : Arg) : Word a.closing := by
  cases a with
  | literal digits size => simp [Arg.closing, Word]
  | quoted pairs =>
      simp only [Arg.closing, Word, List.forall_mem_singleton]
      decide

/-- A literal is read up to its end, and a quoted string up to the quotation mark. -/
theorem Arg.argument (a : Arg) {s : List UInt8} (hs : Boundary s) (hnul : 0 ∈ s) :
    Argument (a.text ++ s) a.bytes (a.closing ++ s) := by
  cases a with
  | quoted pairs =>
      simpa [Arg.text, Arg.bytes, Arg.closing] using Argument.quoted (quoted_pairs pairs hnul)
  | literal digits size =>
      have hshort {n : Nat} (hn : 1 ≤ n ∧ n ≤ 4) (hlen : digits.length = 2 * n) :
          Argument ((literal digits size).text ++ s) (literal digits size).bytes s := by
        have h := literal_short hn hlen hs hnul
        rwa [show n = digits.length / 2 by omega] at h
      have hcases : digits.length = 2 ∨ digits.length = 4 ∨ digits.length = 6 ∨
          digits.length = 8 ∨ digits.length = 16 := by simpa using size
      obtain h | h | h | h | h := hcases
      · exact hshort (n := 1) (by decide) h
      · exact hshort (n := 2) (by decide) h
      · exact hshort (n := 3) (by decide) h
      · exact hshort (n := 4) (by decide) h
      · have hlong := literal_long h hs hnul
        rwa [show 8 = digits.length / 2 by omega] at hlong

theorem Arg.text_cons (a : Arg) : ∃ c t, a.text = c :: t ∧ Scan.isSpace c = false ∧ c ≠ 0 := by
  cases a with
  | literal digits size => exact ⟨0x30, _, rfl, by decide, by decide⟩
  | quoted pairs => exact ⟨0x22, _, rfl, by decide, by decide⟩

theorem argsText_boundary (args : List (Gap × Arg)) {tail : List UInt8} (htail : Ends tail) :
    Boundary (argsText args ++ tail) := by
  cases args with
  | nil => exact htail.boundary
  | cons a args => exact ⟨a.1.first.char, _, rfl, Or.inl a.1.first.space⟩

/-- From within a word, all arguments ahead are read one after the other. -/
theorem args_denote (args : List (Gap × Arg)) {w tail : List UInt8} (hw : Word w)
    (htail : Ends tail) :
    Arguments (w ++ (argsText args ++ tail)) (args.flatMap fun a => a.2.bytes) := by
  induction args generalizing w with
  | nil =>
      obtain ⟨bs, s, rfl, hbs⟩ := htail
      exact .done (advance_word hw hbs rfl (Or.inr rfl) s)
  | cons a args ih =>
      obtain ⟨gap, arg⟩ := a
      have hrest := argsText_boundary args htail
      have hnul : 0 ∈ argsText args ++ tail := List.mem_append_right _ htail.nul
      have harg := arg.argument hrest hnul
      obtain ⟨c, t, htext, hspace, hc⟩ := arg.text_cons
      have hadvance := advance_word hw gap.space hspace (Or.inl (List.cons_ne_nil _ _))
        (t ++ (argsText args ++ tail))
      rw [if_neg hc, ← List.cons_append, ← htext] at hadvance
      have hall := Arguments.next hadvance harg (ih arg.closing_word)
      simpa [argsText] using hall

theorem send_word : Word [0x53, 0x65, 0x6e, 0x64, 0x5f] := by
  simp only [Word, List.forall_mem_cons]
  exact ⟨by decide, by decide, by decide, by decide, by decide, by simp⟩

theorem literal_word (digits : List HexDigit) : Word (0x30 :: 0x78 :: chars digits) := by
  refine List.forall_mem_cons.mpr ⟨by decide, List.forall_mem_cons.mpr ⟨by decide, ?_⟩⟩
  intro d hd
  have hspec := Scan.isAlnum_spec d (chars_alnum digits d hd)
  exact ⟨hspec.2.1, hspec.1⟩

/-- From the name of a command to its opcode. -/
theorem advance_opcode {name : List UInt8} (named : Word name) (gap : Gap)
    (opcode : List HexDigit) (s : List UInt8) :
    advance ([0x53, 0x65, 0x6e, 0x64, 0x5f] ++ name ++ (gap.text ++
      (0x30 :: 0x78 :: chars opcode ++ s))) = .ok (some (0x30 :: 0x78 :: (chars opcode ++ s))) := by
  have hword : Word ([0x53, 0x65, 0x6e, 0x64, 0x5f] ++ name) :=
    fun d hd => (List.mem_append.mp hd).elim (send_word d) (named d)
  exact advance_word hword gap.space (show Scan.isSpace 0x30 = false by decide)
    (Or.inl (List.cons_ne_nil _ _)) (0x78 :: chars opcode ++ s)

/-- An opcode of up to four digits is scanned as its number. -/
theorem scans_opcode {opcode : List HexDigit} (hne : opcode ≠ []) (hle : opcode.length ≤ 4)
    {s : List UInt8} (hs : Boundary s) (hnul : 0 ∈ s) :
    ∃ value, Scans 4 (chars opcode ++ s) value ∧ value.toNat = number opcode := by
  have hlength : (chars opcode).length = opcode.length := List.length_map _
  have hstop : ∀ c ∈ (s.take (4 - (chars opcode).length)).head?, Scan.isAlnum c = false := by
    intro c hc
    obtain ⟨d, t, rfl, hd⟩ := hs
    obtain rfl : d = c := by
      cases h : 4 - (chars opcode).length with
      | zero => simp [h] at hc
      | succ n => simpa [h] using hc
    by_contra halnum
    have hspec := Scan.isAlnum_spec d (by simpa using halnum)
    exact hd.elim (fun hd => by simp [hspec.1] at hd) hspec.2.1
  have hscan := Scan.hex_run (by simpa [chars] using hne) (chars_valid opcode)
    (by rwa [hlength]) hstop
  refine ⟨_, ⟨by simp [hnul], _, hscan⟩, ?_⟩
  have hlt : number opcode < 2 ^ 32 :=
    calc number opcode < 16 ^ opcode.length := number_lt opcode
      _ ≤ 16 ^ 4 := Nat.pow_le_pow_right (by decide) hle
      _ ≤ 2 ^ 32 := by decide
  exact UInt32.toNat_ofNat_of_lt' hlt

/-- A command that is written out denotes its opcode and its bytes. -/
theorem sends_denotes {name : List UInt8} (named : Word name) (gap : Gap)
    {opcode : List HexDigit} (hne : opcode ≠ []) (hle : opcode.length ≤ 4)
    (args : List (Gap × Arg)) {tail : List UInt8} (htail : Ends tail) :
    ∃ value, Denotes ([0x53, 0x65, 0x6e, 0x64, 0x5f] ++ name ++ (gap.text ++
        (0x30 :: 0x78 :: chars opcode ++ (argsText args ++ tail)))) value
        (args.flatMap fun a => a.2.bytes) ∧ value.toNat = number opcode := by
  have hnul : 0 ∈ argsText args ++ tail := List.mem_append_right _ htail.nul
  obtain ⟨value, hvalue, hnumber⟩ :=
    scans_opcode hne hle (argsText_boundary args htail) hnul
  refine ⟨value, ⟨rfl, _, advance_opcode named gap opcode _, hvalue, ?_⟩, hnumber⟩
  simpa using args_denote args (literal_word opcode) htail

theorem Command.denotes (c : Command) {tail : List UInt8} (htail : Ends tail) :
    ∃ opcode, Denotes (c.body ++ tail) opcode c.bytes ∧ opcode.toNat = number c.opcode := by
  have hne : c.opcode ≠ [] := fun h => by simpa [h] using c.four
  have h := sends_denotes c.named c.gap hne (Nat.le_of_eq c.four) c.args (htail.blanks c.trailing)
  simpa [Command.body, Command.bytes] using h

end Brfpatch
