import SystemBluetooth.Brfpatch.Reading
import SystemBluetooth.Brfpatch.Safety

/-!
# The language of the script

A line is a sentence if it is a command in the sense of the usage: digits where digits
belong, and white space between its parts. Every sentence is accepted. The converse fails,
since the parser looks at less than it steps over. `Sloppy` lists, by their text, the lines
that are read to the end with a part that does not belong there; these are the lines that
are wrongly accepted, and there are no others.
-/

namespace Brfpatch

open Effect

/-- A command as the format describes it. -/
structure Sentence where
  name : List UInt8
  named : Word name
  nonempty : name ≠ []
  gap : Gap
  opcode : List HexDigit
  size : opcode.length ∈ [2, 4]
  args : List (Gap × Arg)
  trailing : List Blank

def Sentence.text (s : Sentence) : List UInt8 :=
  [0x53, 0x65, 0x6e, 0x64, 0x5f] ++ s.name ++ (s.gap.text ++
    (0x30 :: 0x78 :: chars s.opcode ++ (argsText s.args ++ blanks s.trailing)))

/-! ### What is no sentence but read to the end -/

/-- White space follows, or the end of the text. -/
def Apart (s : List UInt8) : Prop := ∀ c ∈ s.head?, Scan.isSpace c = true

/-- From behind a quotation mark: a pair that begins with a number is not two digits, or
nothing closes the string. -/
inductive Misquoted : List UInt8 → List UInt8 → Prop where
  | unclosed : Misquoted [] []
  | pair {c d s rest} (inside : c ≠ 0x22) (number : Scan.Numeral 2 (c :: d :: s))
      (bad : ¬ (Scan.isHexDigit c = true ∧ Scan.isHexDigit d = true))
      (more : ReadsPairs (skipColon s) rest) : Misquoted (c :: d :: s) rest
  | later {c d s rest} (inside : c ≠ 0x22) (number : Scan.Numeral 2 (c :: d :: s))
      (more : Misquoted (skipColon s) rest) : Misquoted (c :: d :: s) rest

/-- An argument with a string like that, a letter that is no digit, or something behind it. -/
inductive SloppyArgument : List UInt8 → List UInt8 → Prop where
  | quoted {s rest} (bad : Misquoted s rest) : SloppyArgument (0x22 :: s) rest
  | letter {s c} (run : Run s) (letter : c ∈ s.takeWhile Scan.isAlnum)
      (bad : ¬ Scan.isHexDigit c = true) :
      SloppyArgument (0x30 :: 0x78 :: s) (s.dropWhile Scan.isAlnum)
  | behindLiteral {s} (run : Run s) (bad : ¬ Apart (s.dropWhile Scan.isAlnum)) :
      SloppyArgument (0x30 :: 0x78 :: s) (s.dropWhile Scan.isAlnum)
  | behindQuote {s rest} (pairs : ReadsPairs s (0x22 :: rest)) (bad : ¬ Apart rest) :
      SloppyArgument (0x22 :: s) (0x22 :: rest)

/-- Arguments of which one is like that. -/
inductive SloppyArguments : List UInt8 → Prop where
  | here {s rest} (first : SloppyArgument (beyond s) rest) (more : ReadsArguments rest) :
      SloppyArguments s
  | later {s rest} (first : ReadsArgument (beyond s) rest) (more : SloppyArguments rest) :
      SloppyArguments s

/-- Two or four digits and nothing else. -/
def ProperOpcode (s : List UInt8) : Prop :=
  ∃ opcode : List HexDigit, opcode.length ∈ [2, 4] ∧ ∃ rest, s = chars opcode ++ rest ∧ Apart rest

/-- A line without a name, with an opcode that is not two or four digits, or with such
arguments. -/
inductive Sloppy (text : List UInt8) : Prop where
  | name (read : Reads text) (bad : Apart (text.drop 5))
  | opcode {digits} (read : Reads text) (found : beyond text = 0x30 :: 0x78 :: digits)
      (bad : ¬ ProperOpcode digits)
  | arguments {digits} (sends : text.take 5 = [0x53, 0x65, 0x6e, 0x64, 0x5f])
      (found : beyond text = 0x30 :: 0x78 :: digits) (number : Scan.Numeral 4 digits)
      (bad : SloppyArguments (beyond text))

/-! ### Sloppy lines are read -/

theorem Misquoted.reads {s rest : List UInt8} (h : Misquoted s rest) : ReadsPairs s rest := by
  induction h with
  | unclosed => exact .unclosed
  | pair inside number _ more => exact .pair inside number more
  | later inside number _ ih => exact .pair inside number ih

theorem SloppyArgument.reads {b rest : List UInt8} (h : SloppyArgument b rest) :
    ReadsArgument b rest := by
  cases h with
  | quoted bad => exact .quoted bad.reads
  | letter run _ _ => exact .literal run
  | behindLiteral run _ => exact .literal run
  | behindQuote pairs _ => exact .quoted pairs

theorem SloppyArguments.reads {s : List UInt8} (h : SloppyArguments s) : ReadsArguments s := by
  induction h with
  | here first more => exact .next first.reads more
  | later first _ ih => exact .next first ih

theorem Sloppy.reads {text : List UInt8} (h : Sloppy text) : Reads text := by
  cases h with
  | name read _ => exact read
  | opcode read _ _ => exact read
  | arguments sends found number bad => exact ⟨sends, ⟨_, found, number⟩, bad.reads⟩

/-! ### From what is read to a sentence -/

theorem exists_digits {s : List UInt8} (h : ∀ c ∈ s, Scan.isHexDigit c = true) :
    ∃ digits, chars digits = s :=
  ⟨s.attach.map fun c => ⟨c.1, h c.1 c.2⟩, by simp [chars]⟩

theorem exists_blanks {s : List UInt8} (h : ∀ c ∈ s, Scan.isSpace c = true) (hline : 0x0a ∉ s) :
    ∃ bs, blanks bs = s :=
  ⟨s.attach.map fun c => ⟨c.1, h c.1 c.2, fun hc => hline (hc ▸ c.2)⟩, by simp [blanks]⟩

theorem exists_gap {s : List UInt8} (h : ∀ c ∈ s, Scan.isSpace c = true) (hline : 0x0a ∉ s)
    (hne : s ≠ []) : ∃ gap : Gap, gap.text = s := by
  obtain ⟨bs, rfl⟩ := exists_blanks h hline
  cases bs with
  | nil => exact absurd rfl hne
  | cons b bs => exact ⟨⟨b, bs⟩, rfl⟩

theorem skipColon_cases (s : List UInt8) :
    (∃ t, s = 0x3a :: t ∧ skipColon s = t) ∨ skipColon s = s := by
  unfold skipColon
  split
  · rename_i t
    exact Or.inl ⟨t, rfl, rfl⟩
  · exact Or.inr rfl

/-- A string that is read is one that is meant, or it has a bad pair or no end. -/
theorem ReadsPairs.meant {s rest : List UInt8} (h : ReadsPairs s rest) :
    (∃ (pairs : List Pair) (t : List UInt8),
      s = pairs.flatMap Pair.text ++ 0x22 :: t ∧ rest = 0x22 :: t) ∨ Misquoted s rest := by
  induction h with
  | unclosed => exact Or.inr .unclosed
  | @closed s => exact Or.inl ⟨[], s, rfl, rfl⟩
  | @pair c d s rest inside number more ih =>
      by_cases hdigits : Scan.isHexDigit c = true ∧ Scan.isHexDigit d = true
      · obtain ⟨pairs, t, hs, rfl⟩ | hbad := ih
        · obtain ⟨u, rfl, hskip⟩ | hskip := skipColon_cases s
          · refine Or.inl ⟨⟨⟨c, hdigits.1⟩, ⟨d, hdigits.2⟩, true⟩ :: pairs, t, ?_, rfl⟩
            simp [Pair.text, ← hs, hskip]
          · refine Or.inl ⟨⟨⟨c, hdigits.1⟩, ⟨d, hdigits.2⟩, false⟩ :: pairs, t, ?_, rfl⟩
            simp [Pair.text, ← hs, hskip]
        · exact Or.inr (.later inside number hbad)
      · exact Or.inr (.pair inside number hdigits more)

theorem ReadsArgument.meant {b rest : List UInt8} (h : ReadsArgument b rest) :
    (∃ (a : Arg) (t : List UInt8), b = a.text ++ t ∧ rest = a.closing ++ t ∧ Apart t) ∨
      SloppyArgument b rest := by
  cases h with
  | quoted pairs =>
      obtain ⟨ps, t, rfl, rfl⟩ | hbad := pairs.meant
      · by_cases hapart : Apart t
        · exact Or.inl ⟨.quoted ps, t, by simp [Arg.text], rfl, hapart⟩
        · exact Or.inr (.behindQuote pairs hapart)
      · exact Or.inr (.quoted hbad)
  | @literal s run =>
      by_cases hdigits : ∀ c ∈ s.takeWhile Scan.isAlnum, Scan.isHexDigit c = true
      · by_cases hapart : Apart (s.dropWhile Scan.isAlnum)
        · obtain ⟨digits, hchars⟩ := exists_digits hdigits
          have hsize : digits.length ∈ [2, 4, 6, 8, 16] := by
            have hsize := run.size
            rwa [← hchars, chars, List.length_map] at hsize
          refine Or.inl ⟨.literal digits hsize, s.dropWhile Scan.isAlnum, ?_, rfl, hapart⟩
          simp [Arg.text, hchars]
        · exact Or.inr (.behindLiteral run hapart)
      · push Not at hdigits
        obtain ⟨c, hc, hbad⟩ := hdigits
        exact Or.inr (.letter run hc (by simpa using hbad))

/-- A text is a word, white space, and what stands behind it. -/
theorem beyond_split (s : List UInt8) : ∃ w bs, s = w ++ (bs ++ beyond s) ∧
    (∀ c ∈ w, Scan.isSpace c = false) ∧ (∀ c ∈ bs, Scan.isSpace c = true) ∧
    (bs = [] → beyond s = []) := by
  have hword := List.takeWhile_append_dropWhile (p := fun c => !Scan.isSpace c) (l := s)
  have hstop := List.head?_dropWhile_not (fun c => !Scan.isSpace c) s
  have hgap := List.takeWhile_append_dropWhile (p := Scan.isSpace)
    (l := s.dropWhile fun c => !Scan.isSpace c)
  refine ⟨_, _, (hgap ▸ hword).symm, fun c hc => ?_, fun c hc => List.mem_takeWhile_imp hc, ?_⟩
  · simpa using List.mem_takeWhile_imp hc
  · intro hnil
    rw [beyond]
    generalize s.dropWhile (fun c => !Scan.isSpace c) = t at *
    cases t with
    | nil => rfl
    | cons c t =>
        have hc : Scan.isSpace c = true := by simpa using hstop
        rw [List.takeWhile_cons_of_pos hc] at hnil
        exact absurd hnil (List.cons_ne_nil _ _)

/-- A word ends where it does. -/
theorem word_unique {w w' s s' : List UInt8} (h : w ++ s = w' ++ s') (hw : Word w) (hw' : Word w')
    (hs : Boundary s) (hs' : Boundary s') : w = w' ∧ s = s' := by
  have hrun {v t : List UInt8} (hv : Word v) (ht : Boundary t) :
      (v ++ t).takeWhile (fun c => c != 0 && !Scan.isSpace c) = v := by
    obtain ⟨c, t, rfl, hc⟩ := ht
    rw [List.takeWhile_append_of_pos fun d hd => by simp [hv d hd],
      List.takeWhile_cons_of_neg (by simp; tauto), List.append_nil]
  have hword : w = w' := by rw [← hrun hw hs, h, hrun hw' hs']
  subst hword
  exact ⟨rfl, List.append_cancel_left h⟩

/-- The newline is the last character of what is left of a line. -/
theorem newline_last {l front t : List UInt8} (h : l ++ [0x0a] = front ++ t)
    (hfront : 0x0a ∉ front) :
    ∃ l', l = front ++ l' ∧ t = l' ++ [0x0a] := by
  rw [List.append_eq_append_iff] at h
  obtain ⟨a, rfl, h⟩ | ⟨a, rfl, rfl⟩ := h
  · cases a with
    | nil => exact ⟨[], by simp, by simpa using h.symm⟩
    | cons d a =>
        obtain ⟨rfl, _⟩ := List.cons.inj h
        exact absurd (by simp) hfront
  · exact ⟨a, rfl, rfl⟩

theorem line_of_append {l front t : List UInt8} (h : l ++ [0x0a] = front ++ t) (ht : t ≠ []) :
    ∃ l', l = front ++ l' ∧ t = l' ++ [0x0a] := by
  rw [← List.dropLast_append_getLast ht, ← List.append_assoc] at h
  obtain ⟨hl, hlast⟩ := List.append_inj' h rfl
  refine ⟨t.dropLast, hl, ?_⟩
  rw [hlast, List.dropLast_append_getLast ht]

theorem word_inLine {w : List UInt8} (hw : ∀ c ∈ w, Scan.isSpace c = false) : 0x0a ∉ w :=
  fun h => absurd (hw _ h) (by decide)

theorem newline_ends (behind : List UInt8) : Ends (0x0a :: 0 :: behind) :=
  ⟨[0x0a], behind, rfl, List.forall_mem_singleton.mpr rfl⟩

/-- Behind a word that ends the same way, the arguments are the same. -/
theorem meant_of_word {p w l : List UInt8} {args : List (Gap × Arg)} {trailing : List Blank}
    (h : p ++ l = w ++ (argsText args ++ blanks trailing)) (hp : Word p) (hw : Word w)
    (hapart : Apart (l ++ [0x0a])) : l = argsText args ++ blanks trailing := by
  have hend : p ++ (l ++ [0x0a, 0]) = w ++ (argsText args ++ (blanks trailing ++ [0x0a, 0])) := by
    rw [← List.append_assoc, h]
    simp
  have hl : Boundary (l ++ [0x0a, 0]) := by
    cases l with
    | nil => exact ⟨0x0a, [0], rfl, Or.inl (by decide)⟩
    | cons c l => exact ⟨c, l ++ [0x0a, 0], rfl, Or.inl (hapart c rfl)⟩
  obtain ⟨rfl, _⟩ := word_unique hend hp hw hl
    (argsText_boundary args ((newline_ends []).blanks trailing))
  exact List.append_cancel_left h

/-- Arguments that are read are meant, or one of them is not as it should be. -/
theorem ReadsArguments.meant {s : List UInt8} (h : ReadsArguments s) {l : List UInt8}
    (hs : s = l ++ [0x0a]) (hline : 0x0a ∉ l) (hnul : 0 ∉ l) :
    (∃ w args trailing, Word w ∧ l = w ++ (argsText args ++ blanks trailing)) ∨
      SloppyArguments s := by
  induction h generalizing l with
  | @done s ended =>
      obtain ⟨w, bs, hsplit, hw, hbs, _⟩ := beyond_split s
      rw [ended, List.append_nil, hs] at hsplit
      obtain ⟨l, rfl, hl⟩ := newline_last hsplit (word_inLine hw)
      obtain ⟨trailing, rfl⟩ := exists_blanks (s := l)
        (fun c hc => hbs c (hl ▸ List.mem_append_left _ hc)) fun h => hline (by simp [h])
      refine Or.inl ⟨w, [], trailing, fun c hc => ⟨?_, hw c hc⟩, rfl⟩
      rintro rfl
      exact hnul (List.mem_append_left _ hc)
  | @next s rest first more ih =>
      obtain ⟨a, t, htext, rfl, hapart⟩ | hbad := first.meant
      · obtain ⟨w, bs, hsplit, hw, hbs, hgap⟩ := beyond_split s
        have hne : bs ≠ [] := by
          intro hnil
          rw [hgap hnil] at first
          cases first
        rw [htext, hs, ← List.append_assoc] at hsplit
        obtain ⟨c, text, hcons, _⟩ := a.text_cons
        obtain ⟨l, rfl, hrest⟩ := line_of_append hsplit (by simp [hcons])
        obtain ⟨l, rfl, rfl⟩ := newline_last hrest.symm a.inLine
        have hl : 0x0a ∉ l ∧ 0 ∉ l := ⟨fun h => hline (by simp [h]), fun h => hnul (by simp [h])⟩
        obtain ⟨w', args, trailing, hw', hall⟩ | hlater := ih (List.append_assoc ..).symm
          (fun h => (List.mem_append.mp h).elim
            (fun h => absurd (a.closing_word _ h).2 (by decide)) hl.1)
          (fun h => (List.mem_append.mp h).elim (fun h => (a.closing_word _ h).1 rfl) hl.2)
        · obtain ⟨gap, rfl⟩ := exists_gap hbs (fun h => hline (by simp [h])) hne
          refine Or.inl ⟨w, (gap, a) :: args, trailing, fun c hc => ⟨?_, hw c hc⟩, ?_⟩
          · rintro rfl
            exact hnul (by simp [hc])
          · rw [meant_of_word hall a.closing_word hw' hapart]
            simp [argsText]
        · exact Or.inr (.later first hlater)
      · exact Or.inr (.here hbad more)

/-- The name of a command goes up to the first white space. -/
theorem name_of_word {w bs s rest : List UInt8} (hw : Word w)
    (hbs : ∀ d ∈ bs, Scan.isSpace d = true) (hne : bs ≠ [])
    (h : w ++ (bs ++ s) = [0x53, 0x65, 0x6e, 0x64, 0x5f] ++ rest) :
    ∃ name, w = [0x53, 0x65, 0x6e, 0x64, 0x5f] ++ name ∧ rest = name ++ (bs ++ s) := by
  rw [List.append_eq_append_iff] at h
  obtain ⟨a, hsend, h⟩ | ⟨a, rfl, rfl⟩ := h
  · cases a with
    | nil => exact ⟨[], by simpa using hsend.symm, by simpa using h.symm⟩
    | cons d a =>
        obtain ⟨b, bs, rfl⟩ := List.exists_cons_of_ne_nil hne
        obtain rfl : b = d := (List.cons.inj h).1
        have hb := send_word b (hsend ▸ List.mem_append_right w List.mem_cons_self)
        exact absurd (hbs b List.mem_cons_self) (by simp [hb.2])
  · exact ⟨a, rfl, rfl⟩

/-- A line that is read to the end is a sentence, or it is sloppy. -/
theorem Reads.meant {line : List UInt8} (h : Reads (line ++ [0x0a])) (hline : 0x0a ∉ line)
    (hnul : 0 ∉ line) : (∃ s : Sentence, line = s.text) ∨ Sloppy (line ++ [0x0a]) := by
  obtain ⟨digits, hfound, hnumber⟩ := h.opcode
  by_cases hbare : Apart ((line ++ [0x0a]).drop 5)
  · exact Or.inr (.name h hbare)
  by_cases hproper : ProperOpcode digits
  swap
  · exact Or.inr (.opcode h hfound hproper)
  -- The white space in front of the opcode.
  obtain ⟨w, bs, hsplit, hw, hbs, hgap⟩ := beyond_split (line ++ [0x0a])
  have hne : bs ≠ [] := by
    intro hnil
    rw [hgap hnil] at hfound
    cases hfound
  -- The name.
  have hsend : w ++ (bs ++ beyond (line ++ [0x0a])) =
      [0x53, 0x65, 0x6e, 0x64, 0x5f] ++ (line ++ [0x0a]).drop 5 := by
    rw [← hsplit, ← h.sends, List.take_append_drop]
  have hsplit' := (List.append_assoc ..).symm ▸ hsplit
  obtain ⟨l, rfl, hl⟩ := line_of_append hsplit' (by simp [hfound])
  have hword : Word w := by
    refine fun c hc => ⟨?_, hw c hc⟩
    rintro rfl
    exact hnul (by simp [hc])
  obtain ⟨name, rfl, hname⟩ := name_of_word hword hbs hne hsend
  have hnamed : name ≠ [] := by
    rintro rfl
    refine hbare fun c hc => hbs c ?_
    obtain ⟨b, bs, rfl⟩ := List.exists_cons_of_ne_nil hne
    rw [hname] at hc
    obtain rfl : b = c := by simpa using hc
    exact List.mem_cons_self
  obtain ⟨gap, rfl⟩ := exists_gap hbs (fun h => hline (by simp [h])) hne
  -- The opcode and the arguments.
  have hl' : 0x0a ∉ l ∧ 0 ∉ l := ⟨fun h => hline (by simp [h]), fun h => hnul (by simp [h])⟩
  obtain ⟨opcode, hsize, rest, rfl, hapart⟩ := hproper
  have hopcode : l ++ [0x0a] = (0x30 :: 0x78 :: chars opcode) ++ rest := hl.symm.trans hfound
  have hinLine : 0x0a ∉ 0x30 :: 0x78 :: chars opcode :=
    List.not_mem_cons_of_ne_of_not_mem (by decide)
      (List.not_mem_cons_of_ne_of_not_mem (by decide) (chars_inLine opcode))
  obtain ⟨w, args, trailing, hw', hall⟩ | hbad := h.args.meant hl hl'.1 hl'.2
  · obtain ⟨l, rfl, rfl⟩ := newline_last hopcode hinLine
    obtain rfl := meant_of_word hall (literal_word opcode) hw' hapart
    refine Or.inl ⟨⟨name, fun c hc => hword c (by simp [hc]), hnamed, gap, opcode, hsize, args,
      trailing⟩, ?_⟩
    simp [Sentence.text]
  · exact Or.inr (.arguments h.sends hfound hnumber hbad)

/-! ### Sentences -/

/-- Behind digit pairs and a quotation mark nothing is skipped but a colon. -/
theorem Pair.skipColon (p : Pair) (pairs : List Pair) (s : List UInt8) :
    ∃ t, p.text ++ (pairs.flatMap Pair.text ++ 0x22 :: s) = p.high.char :: p.low.char :: t ∧
      Brfpatch.skipColon t = pairs.flatMap Pair.text ++ 0x22 :: s := by
  cases hcolon : p.colon with
  | true => exact ⟨0x3a :: _, by simp [Pair.text, hcolon], rfl⟩
  | false =>
      obtain ⟨next, t, hnext, hother⟩ := pairs_next pairs s
      refine ⟨next :: t, by simp [Pair.text, hcolon, hnext], ?_⟩
      rw [hnext]
      exact skipColon_of_ne hother t

theorem not_misquoted (pairs : List Pair) (s rest : List UInt8) :
    ¬ Misquoted (pairs.flatMap Pair.text ++ 0x22 :: s) rest := by
  induction pairs with
  | nil =>
      intro h
      cases h with
      | pair inside _ _ _ => exact inside rfl
      | later inside _ _ => exact inside rfl
  | cons p pairs ih =>
      obtain ⟨t, htext, hskip⟩ := p.skipColon pairs s
      rw [List.flatMap_cons, List.append_assoc, htext]
      intro h
      cases h with
      | pair _ _ bad _ => exact bad ⟨p.high.valid, p.low.valid⟩
      | later _ _ more => exact ih (hskip ▸ more)

theorem ReadsPairs.rest_eq {pairs : List Pair} {s rest : List UInt8}
    (h : ReadsPairs (pairs.flatMap Pair.text ++ 0x22 :: s) rest) : rest = 0x22 :: s := by
  induction pairs with
  | nil =>
      cases h with
      | closed => rfl
      | pair inside _ _ => exact absurd rfl inside
  | cons p pairs ih =>
      obtain ⟨t, htext, hskip⟩ := p.skipColon pairs s
      have hhigh := p.high.spec.2.2.1
      rw [List.flatMap_cons, List.append_assoc, htext] at h
      generalize hc : p.high.char = c at h
      cases h with
      | closed => exact absurd hc hhigh
      | pair _ _ more => exact ih (hskip ▸ more)

/-- The digits of a literal are its run. -/
theorem chars_run (digits : List HexDigit) {s : List UInt8} (hs : Apart s) :
    (chars digits ++ s).takeWhile Scan.isAlnum = chars digits ∧
      (chars digits ++ s).dropWhile Scan.isAlnum = s := by
  have hstop : s.takeWhile Scan.isAlnum = [] ∧ s.dropWhile Scan.isAlnum = s := by
    cases s with
    | nil => exact ⟨rfl, rfl⟩
    | cons c s =>
        have hc : ¬ Scan.isAlnum c = true := fun h => by
          have hspace : Scan.isSpace c = true := hs c rfl
          simp [(Scan.isAlnum_spec c h).1] at hspace
        exact ⟨List.takeWhile_cons_of_neg hc, List.dropWhile_cons_of_neg hc⟩
  rw [List.takeWhile_append_of_pos (chars_alnum digits), List.dropWhile_append_of_pos
    (chars_alnum digits), hstop.1, hstop.2, List.append_nil]
  exact ⟨rfl, rfl⟩

theorem Arg.not_sloppy (a : Arg) {s rest : List UInt8} (hs : Apart s) :
    ¬ SloppyArgument (a.text ++ s) rest := by
  cases a with
  | quoted pairs =>
      intro h
      simp only [Arg.text, List.cons_append, List.append_assoc, List.nil_append] at h
      cases h with
      | quoted bad => exact not_misquoted pairs s _ bad
      | behindQuote read bad =>
          obtain rfl := (List.cons.inj read.rest_eq).2
          exact bad hs
  | literal digits size =>
      obtain ⟨hrun, hdrop⟩ := chars_run digits hs
      intro h
      simp only [Arg.text, List.cons_append] at h
      generalize hrest : rest = after at h
      cases h with
      | letter _ letter bad => exact bad (chars_valid digits _ (hrun ▸ letter))
      | behindLiteral _ bad => exact bad (hdrop.symm ▸ hs)

theorem Arg.rest_eq (a : Arg) {s rest : List UInt8} (hs : Apart s)
    (h : ReadsArgument (a.text ++ s) rest) : rest = a.closing ++ s := by
  cases a with
  | quoted pairs =>
      simp only [Arg.text, List.cons_append, List.append_assoc, List.nil_append] at h
      cases h with
      | quoted read => exact read.rest_eq
  | literal digits size =>
      simp only [Arg.text, List.cons_append] at h
      cases h with
      | literal _ => exact (chars_run digits hs).2

/-- From within a word to what follows it. -/
theorem beyond_word {w bs s : List UInt8} (hw : Word w) (hbs : ∀ d ∈ bs, Scan.isSpace d = true)
    (hgap : bs ≠ [] ∨ s = []) (hs : ∀ c ∈ s.head?, Scan.isSpace c = false) :
    beyond (w ++ (bs ++ s)) = s := by
  have hword : (w ++ (bs ++ s)).dropWhile (fun c => !Scan.isSpace c) = bs ++ s := by
    rw [List.dropWhile_append_of_pos fun d hd => by simp [hw d hd]]
    cases bs with
    | nil =>
        obtain rfl := hgap.resolve_left fun h => h rfl
        rfl
    | cons b bs => exact List.dropWhile_cons_of_neg (by simp [hbs b List.mem_cons_self])
  rw [beyond, hword, List.dropWhile_append_of_pos hbs]
  cases s with
  | nil => rfl
  | cons c s => exact List.dropWhile_cons_of_neg (by simp [hs c rfl])

theorem argsText_apart (args : List (Gap × Arg)) {tail : List UInt8}
    (htail : ∀ d ∈ tail, Scan.isSpace d = true) : Apart (argsText args ++ tail) := by
  cases args with
  | nil => exact fun c hc => htail c (List.mem_of_mem_head? hc)
  | cons a args =>
      intro c hc
      obtain rfl : a.1.first.char = c := by simpa [argsText, Gap.text] using hc
      exact a.1.first.space

theorem args_not_sloppy (args : List (Gap × Arg)) {w tail : List UInt8} (hw : Word w)
    (htail : ∀ d ∈ tail, Scan.isSpace d = true) :
    ¬ SloppyArguments (w ++ (argsText args ++ tail)) := by
  induction args generalizing w with
  | nil =>
      have hend : beyond (w ++ (argsText [] ++ tail)) = [] := by
        have h := beyond_word hw htail (Or.inr rfl) (s := []) (by simp)
        simpa [argsText] using h
      intro h
      cases h with
      | here first _ => rw [hend] at first; cases first
      | later first _ => rw [hend] at first; cases first
  | cons a args ih =>
      obtain ⟨gap, arg⟩ := a
      have hrest := argsText_apart args htail
      have hnext : beyond (w ++ (argsText ((gap, arg) :: args) ++ tail)) =
          arg.text ++ (argsText args ++ tail) := by
        obtain ⟨c, t, htext, hspace, _⟩ := arg.text_cons
        have h := beyond_word hw gap.space (Or.inl (List.cons_ne_nil _ _))
          (s := arg.text ++ (argsText args ++ tail)) (by simp [htext, hspace])
        simpa [argsText] using h
      intro h
      cases h with
      | here first _ => exact arg.not_sloppy hrest (hnext ▸ first)
      | later first more =>
          obtain rfl := arg.rest_eq hrest (hnext ▸ first)
          exact ih arg.closing_word more

namespace Sentence

variable (s : Sentence) {tail : List UInt8}

theorem text_append (tail : List UInt8) : s.text ++ tail =
    [0x53, 0x65, 0x6e, 0x64, 0x5f] ++ s.name ++ (s.gap.text ++
      (0x30 :: 0x78 :: chars s.opcode ++ (argsText s.args ++ (blanks s.trailing ++ tail)))) := by
  simp [text]

theorem opcode_size : s.opcode ≠ [] ∧ s.opcode.length ≤ 4 := by
  have hsize : s.opcode.length = 2 ∨ s.opcode.length = 4 := by simpa using s.size
  refine ⟨fun h => ?_, by omega⟩
  simp [h] at hsize

theorem denotes (htail : Ends tail) : ∃ opcode, Denotes (s.text ++ tail) opcode
    (s.args.flatMap fun a => a.2.bytes) := by
  obtain ⟨hne, hle⟩ := s.opcode_size
  obtain ⟨opcode, h, _⟩ := sends_denotes s.named s.gap hne hle s.args (htail.blanks s.trailing)
  exact ⟨opcode, s.text_append tail ▸ h⟩

theorem not_sloppy : ¬ Sloppy (s.text ++ [0x0a]) := by
  have htail : ∀ d ∈ blanks s.trailing ++ [0x0a], Scan.isSpace d = true := by
    intro d hd
    obtain hd | hd := List.mem_append.mp hd
    · exact blanks_space s.trailing d hd
    · obtain rfl := List.mem_singleton.mp hd
      decide
  have hword : Word ([0x53, 0x65, 0x6e, 0x64, 0x5f] ++ s.name) :=
    fun d hd => (List.mem_append.mp hd).elim (send_word d) (s.named d)
  have hbeyond : beyond (s.text ++ [0x0a]) =
      0x30 :: 0x78 :: (chars s.opcode ++ (argsText s.args ++ (blanks s.trailing ++ [0x0a]))) := by
    rw [s.text_append]
    exact beyond_word hword s.gap.space (Or.inl (List.cons_ne_nil _ _))
      (by simp only [List.cons_append, List.head?_cons, Option.mem_some_iff]; rintro c rfl; decide)
  intro h
  cases h with
  | name _ bad =>
      obtain ⟨d, name, hname⟩ := List.exists_cons_of_ne_nil s.nonempty
      have hd := s.named d (by simp [hname])
      have hspace := bad d (by simp [text, hname])
      simp [hd.2] at hspace
  | opcode _ found bad =>
      obtain rfl := by simpa using hbeyond.symm.trans found
      exact bad ⟨s.opcode, s.size, _, rfl, argsText_apart s.args htail⟩
  | arguments _ _ _ bad =>
      rw [hbeyond] at bad
      exact args_not_sloppy s.args (literal_word s.opcode) htail (by simpa using bad)

end Sentence

/-! ### What is accepted -/

/-- A line in the buffer: its newline, its NUL, and what stands behind. -/
def terminated (line behind : List UInt8) : List UInt8 := line ++ 0x0a :: 0 :: behind

/-- A line is accepted if it is a sentence, and then adds one record; if it is none, it is
rejected with a message and adds nothing. -/
structure MeetsFormat (line behind : List UInt8) : Prop where
  accepted : ∀ s : Sentence, line = s.text → ∀ buffer w, ∃ opcode bytes t,
    processLine (terminated line behind) buffer w = (.ok (), t) ∧
      t.out = w.out ++ record opcode bytes
  rejected : (∀ s : Sentence, line ≠ s.text) → ∀ buffer w, ∃ message string t,
    processLine (terminated line behind) buffer w = (.error (.failed message string), t) ∧
      t.out = w.out

theorem terminated_lined {line behind : List UInt8} (hnul : 0 ∉ line) :
    Lined (terminated line behind) :=
  ⟨line ++ [0x0a], behind, by simp [terminated], by simp [hnul], Or.inr ⟨line, rfl⟩⟩

theorem reads_terminated {line : List UInt8} (hnul : 0 ∉ line) (behind : List UInt8) :
    Reads (line ++ [0x0a]) ↔
      ∃ opcode bytes, Denotes (terminated line behind) opcode bytes := by
  have h := reads_iff_denotes hnul behind
  rwa [List.append_assoc] at h

theorem Sentence.terminated_denotes (s : Sentence) (behind : List UInt8) :
    ∃ opcode bytes, Denotes (terminated s.text behind) opcode bytes := by
  obtain ⟨opcode, h⟩ := s.denotes (newline_ends behind)
  exact ⟨opcode, _, h⟩

/-- A line is treated as its format demands exactly if it is not sloppy. -/
theorem processLine_meetsFormat {line behind : List UInt8} (hline : 0x0a ∉ line) (hnul : 0 ∉ line)
    (hsize : (terminated line behind).length ≤ dataSize) :
    MeetsFormat line behind ↔ ¬ Sloppy (line ++ [0x0a]) := by
  constructor
  · intro h hsloppy
    obtain ⟨opcode, bytes, hdenotes⟩ := (reads_terminated hnul behind).mp hsloppy.reads
    let w : State := ⟨⟨List.replicate 1024 0, List.length_replicate⟩, fun _ _ => 0, []⟩
    have hrun : processLine (terminated line behind) [] w = (.ok (), _) :=
      (processLine_eq_ok hsize).mpr ⟨opcode, bytes, hdenotes, rfl⟩
    have hnone : ∀ s : Sentence, line ≠ s.text := fun s hs => s.not_sloppy (hs ▸ hsloppy)
    obtain ⟨message, string, t, hrejected, _⟩ := h.rejected hnone [] w
    rw [hrun] at hrejected
    cases hrejected
  · intro h
    refine ⟨?_, ?_⟩
    · rintro s rfl buffer w
      obtain ⟨opcode, bytes, hdenotes⟩ := s.terminated_denotes behind
      exact ⟨opcode, bytes, _, (processLine_eq_ok hsize).mpr ⟨opcode, bytes, hdenotes, rfl⟩, rfl⟩
    · intro hnone buffer w
      obtain ⟨t, hrun⟩ | hfailed := processLine_returns (terminated_lined hnul) hsize w
      · obtain ⟨opcode, bytes, hdenotes, _⟩ := (processLine_eq_ok hsize).mp hrun
        have hreads := (reads_terminated hnul behind).mpr ⟨opcode, bytes, hdenotes⟩
        obtain ⟨s, hs⟩ | hsloppy := hreads.meant hline hnul
        · exact absurd hs (hnone s)
        · exact absurd hsloppy h
      · exact hfailed

/-- `Send_a 0x00`. -/
def plainSentence : Sentence where
  name := [0x61]
  named := by
    simp only [Word, List.forall_mem_singleton]
    decide
  nonempty := List.cons_ne_nil _ _
  gap := ⟨space, []⟩
  opcode := List.replicate 2 zero
  size := by decide
  args := []
  trailing := []

theorem processLine_meetsFormat_plain : MeetsFormat plainSentence.text [] :=
  (processLine_meetsFormat (by decide) (by decide) (by decide)).mpr plainSentence.not_sloppy

/-- In `Send_a 0x00 "0x"` the string is a number, but no pair of digits. -/
example : Sloppy ([0x53, 0x65, 0x6e, 0x64, 0x5f, 0x61, 0x20, 0x30, 0x78, 0x30, 0x30, 0x20, 0x22,
    0x30, 0x78, 0x22] ++ [0x0a]) := by
  have hnumber (width : Nat) (hwidth : 0 < width) (s : List UInt8) :
      Scan.Numeral width (0x30 :: s) := ⟨[], [], 0x30, s, rfl, by simp, by simp, hwidth, by decide⟩
  have hpair : Misquoted [0x30, 0x78, 0x22, 0x0a] [0x22, 0x0a] :=
    .pair (by decide) (hnumber 2 (by decide) _) (by decide) .closed
  exact .arguments rfl rfl (hnumber 4 (by decide) _) (.here (.quoted hpair) (.done rfl))

/-- `Send_a 0x12345`. -/
def wideLine : List UInt8 :=
  [0x53, 0x65, 0x6e, 0x64, 0x5f, 0x61, 0x20, 0x30, 0x78, 0x31, 0x32, 0x33, 0x34, 0x35]

theorem wideLine_sloppy : Sloppy (wideLine ++ [0x0a]) := by
  have hfound : beyond (wideLine ++ [0x0a]) =
      0x30 :: 0x78 :: [0x31, 0x32, 0x33, 0x34, 0x35, 0x0a] := by rfl
  have hnumber : Scan.Numeral 4 [0x31, 0x32, 0x33, 0x34, 0x35, 0x0a] :=
    ⟨[], [], 0x31, _, rfl, by simp, by simp, by decide, by decide⟩
  refine .opcode ⟨rfl, ⟨_, hfound, hnumber⟩, .done rfl⟩ hfound ?_
  rintro ⟨opcode, hsize, rest, hsplit, hapart⟩
  have hsize : (chars opcode).length = 2 ∨ (chars opcode).length = 4 := by
    simpa [chars] using hsize
  obtain hsize | hsize := hsize
  · have hrest := congrArg (List.drop 2) hsplit
    rw [List.drop_left' hsize] at hrest
    exact absurd (hapart 0x33 (hrest ▸ rfl)) (by decide)
  · have hrest := congrArg (List.drop 4) hsplit
    rw [List.drop_left' hsize] at hrest
    exact absurd (hapart 0x35 (hrest ▸ rfl)) (by decide)

/-- The fifth digit is skipped, and a record with the opcode 0x1234 is written. -/
theorem processLine_wideLine : ¬ MeetsFormat wideLine [] := by
  intro h
  have hnone : ∀ s : Sentence, wideLine ≠ s.text := fun s hs =>
    s.not_sloppy (hs ▸ wideLine_sloppy)
  let w : State := ⟨⟨List.replicate 1024 0, List.length_replicate⟩, fun _ _ => 0, []⟩
  obtain ⟨message, string, t, hrejected, _⟩ := h.rejected hnone [] w
  have haccepted : (processLine (terminated wideLine []) [] w).1.isOk = true := by decide +kernel
  rw [hrejected] at haccepted
  cases haccepted

end Brfpatch
