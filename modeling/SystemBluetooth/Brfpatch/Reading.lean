import SystemBluetooth.Brfpatch.Grammar

/-!
# Lines that are read to the end

What the parser needs of a line, as a grammar of its text: there is no buffer here, no value
and no `sscanf`, and a text ends where its list does. The grammar is wider than the usage.
The length of a literal counts letters of any kind, a pair and the opcode only have to begin
with a number, and what follows a literal or a string is skipped up to the next white space.
`reads_iff_denotes` is the connection: these are the lines that denote a record, whatever the
buffer holds behind them.
-/

namespace Brfpatch

/-- What stands behind the next white space. -/
def beyond (text : List UInt8) : List UInt8 :=
  (text.dropWhile fun c => !Scan.isSpace c).dropWhile Scan.isSpace

def skipColon : List UInt8 → List UInt8
  | 0x3a :: s => s
  | s => s

/-- From behind a quotation mark to the closing one, or to the end of the text. -/
inductive ReadsPairs : List UInt8 → List UInt8 → Prop where
  | unclosed : ReadsPairs [] []
  | closed {s} : ReadsPairs (0x22 :: s) (0x22 :: s)
  | pair {c d s rest} (inside : c ≠ 0x22) (number : Scan.Numeral 2 (c :: d :: s))
      (more : ReadsPairs (skipColon s) rest) : ReadsPairs (c :: d :: s) rest

/-- Letters and digits behind an `0x`; the first one, and the first of the second half of
sixteen, are digits. -/
structure Run (s : List UInt8) : Prop where
  size : (s.takeWhile Scan.isAlnum).length ∈ [2, 4, 6, 8, 16]
  first : ∀ c ∈ (s.takeWhile Scan.isAlnum).head?, Scan.isHexDigit c = true
  ninth : ∀ c ∈ ((s.takeWhile Scan.isAlnum).drop 8).head?, Scan.isHexDigit c = true

/-- One argument, and what is left of the text behind it. -/
inductive ReadsArgument : List UInt8 → List UInt8 → Prop where
  | quoted {s rest} (pairs : ReadsPairs s rest) : ReadsArgument (0x22 :: s) rest
  | literal {s} (run : Run s) : ReadsArgument (0x30 :: 0x78 :: s) (s.dropWhile Scan.isAlnum)

/-- All arguments behind the next white space. -/
inductive ReadsArguments : List UInt8 → Prop where
  | done {s} (ended : beyond s = []) : ReadsArguments s
  | next {s rest} (first : ReadsArgument (beyond s) rest) (more : ReadsArguments rest) :
      ReadsArguments s

/-- A line with `Send_` in front, an opcode that begins with a number, and arguments. -/
structure Reads (text : List UInt8) : Prop where
  sends : text.take 5 = [0x53, 0x65, 0x6e, 0x64, 0x5f]
  opcode : ∃ digits, beyond text = 0x30 :: 0x78 :: digits ∧ Scan.Numeral 4 digits
  args : ReadsArguments (beyond text)

/-! ### What is left of a text -/

theorem beyond_suffix (s : List UInt8) : beyond s <:+ s :=
  (List.dropWhile_suffix _).trans (List.dropWhile_suffix _)

theorem skipColon_suffix (s : List UInt8) : skipColon s <:+ s := by
  unfold skipColon
  split
  · exact List.suffix_cons _ _
  · exact List.suffix_rfl

theorem skipColon_of_ne {c : UInt8} (hc : c ≠ 0x3a) (s : List UInt8) :
    skipColon (c :: s) = c :: s := by
  unfold skipColon
  split
  · rename_i heq
    exact absurd (List.cons.inj heq).1 hc
  · rfl

theorem ReadsPairs.suffix {s rest : List UInt8} (h : ReadsPairs s rest) : rest <:+ s := by
  induction h with
  | unclosed => exact List.suffix_rfl
  | closed => exact List.suffix_rfl
  | pair _ _ _ ih =>
      exact ((ih.trans (skipColon_suffix _)).trans (List.suffix_cons _ _)).trans
        (List.suffix_cons _ _)

theorem ReadsArgument.suffix {s rest : List UInt8} (h : ReadsArgument s rest) : rest <:+ s := by
  cases h with
  | quoted pairs => exact pairs.suffix.trans (List.suffix_cons _ _)
  | literal _ =>
      exact ((List.dropWhile_suffix _).trans (List.suffix_cons _ _)).trans (List.suffix_cons _ _)

/-! ### A text and its buffer -/

section Buffer

variable {line behind s : List UInt8}

/-- Whether a number is scanned in front of a NUL depends on the text alone. -/
theorem scans_iff (behind : List UInt8) {width : Nat} :
    (∃ value, Scans width (s ++ 0 :: behind) value) ↔ Scan.Numeral width s := by
  rw [← Scan.hex_isSome, ← Option.isSome_map (f := Prod.fst), ← Scan.hex_nul width s behind,
    Option.isSome_map, Option.isSome_iff_exists]
  constructor
  · rintro ⟨value, _, rest, h⟩
    exact ⟨(value, rest), h⟩
  · rintro ⟨⟨value, rest⟩, h⟩
    exact ⟨value, by simp, rest, h⟩

/-- The pointer advances as the text says. -/
theorem advance_text (hnul : 0 ∉ s) : advance (s ++ 0 :: behind) =
    .ok (if beyond s = [] then none else some (beyond s ++ 0 :: behind)) := by
  have hword : ∀ s : List UInt8, 0 ∉ s → s.dropWhile (fun c => c != 0 && !Scan.isSpace c) =
      s.dropWhile fun c => !Scan.isSpace c := by
    intro s hnul
    induction s with
    | nil => rfl
    | cons c s ih =>
        have hc : c ≠ 0 := fun h => hnul (h ▸ List.mem_cons_self)
        simp only [List.dropWhile_cons, bne_iff_ne.mpr hc, Bool.true_and,
          ih fun h => hnul (List.mem_cons_of_mem c h)]
  have hbeyond : ((s ++ 0 :: behind).dropWhile fun c => c != 0 && !Scan.isSpace c).dropWhile
      Scan.isSpace = beyond s ++ 0 :: behind := by
    rw [Scan.dropWhile_nul rfl, hword s hnul, Scan.dropWhile_nul rfl, beyond]
  rw [advance]
  simp only [hbeyond]
  cases hrest : beyond s with
  | nil => rfl
  | cons c t =>
      have hc : c ≠ 0 := by
        rintro rfl
        exact hnul ((beyond_suffix s).subset (hrest ▸ List.mem_cons_self))
      simp [hc]

/-- A line and its newline. -/
theorem suffix_nul (hnul : 0 ∉ line) (hs : s <:+ line ++ [0x0a]) : 0 ∉ s := fun h =>
  absurd (hs.subset h) (by simp [hnul])

/-- What is left of a line is not a single digit: it ends with the newline. -/
theorem suffix_single {c : UInt8} (hs : [c] <:+ line ++ [0x0a]) : c = 0x0a := by
  obtain ⟨front, h⟩ := hs
  exact (List.append_inj' h rfl).2 |> List.singleton_inj.mp

theorem ReadsPairs.quoted {rest : List UInt8} (h : ReadsPairs s rest) (hnul : 0 ∉ s)
    (behind : List UInt8) :
    ∃ bytes, Quoted (s ++ 0 :: behind) bytes (rest ++ 0 :: behind) := by
  induction h with
  | unclosed => exact ⟨[], .stop (Or.inr rfl)⟩
  | closed => exact ⟨[], .stop (Or.inl rfl)⟩
  | @pair c d s rest inside number more ih =>
      have hinside : ¬ (c = 0x22 ∨ c = 0) := by
        rintro (hc | rfl)
        · exact inside hc
        · exact hnul List.mem_cons_self
      have hs : 0 ∉ s := fun h => hnul (by simp [h])
      obtain ⟨bytes, hmore⟩ := ih fun h => hs ((skipColon_suffix s).subset h)
      obtain ⟨value, hscans⟩ := (scans_iff behind).mpr number
      match s, hmore, hscans with
      | [], hmore, hscans => exact ⟨_, .pair hinside (by decide) hscans hmore⟩
      | next :: s, hmore, hscans =>
          by_cases hcolon : next = 0x3a
          · subst hcolon
            exact ⟨_, .colon hinside hscans hmore⟩
          · have hkeep : skipColon (next :: s) = next :: s := by
              unfold skipColon
              split
              · rename_i heq
                exact absurd (List.cons.inj heq).1 hcolon
              · rfl
            rw [hkeep] at hmore
            exact ⟨_, .pair hinside hcolon hscans hmore⟩

/-- A character that is no NUL is part of the text. -/
theorem text_cons {c : UInt8} {t : List UInt8} (h : c :: t = s ++ 0 :: behind) (hc : c ≠ 0) :
    ∃ s', s = c :: s' ∧ t = s' ++ 0 :: behind := by
  cases s with
  | nil => exact absurd (List.cons.inj h).1 hc
  | cons d s =>
      obtain ⟨rfl, rfl⟩ := List.cons.inj h
      exact ⟨s, rfl, rfl⟩

/-- A pair that is scanned is part of the text: a single character is the newline. -/
theorem pair_text {c d : UInt8} {t : List UInt8} {value : UInt32}
    (h : c :: d :: t = s ++ 0 :: behind) (inside : ¬ (c = 0x22 ∨ c = 0))
    (scans : Scans 2 (c :: d :: t) value) (hs : s <:+ line ++ [0x0a]) :
    ∃ s', s = c :: d :: s' ∧ t = s' ++ 0 :: behind ∧ Scan.Numeral 2 (c :: d :: s') := by
  obtain ⟨s, rfl, hd⟩ := text_cons h fun hc => inside (Or.inr hc)
  cases s with
  | nil =>
      obtain ⟨rfl, rfl⟩ := List.cons.inj hd
      obtain rfl := suffix_single hs
      obtain ⟨_, rest, hscan⟩ := scans
      rw [Scan.hex_single (by decide)] at hscan
      cases hscan
  | cons e s =>
      obtain ⟨rfl, rfl⟩ := List.cons.inj hd
      exact ⟨s, rfl, rfl, (scans_iff behind).mp ⟨value, scans⟩⟩

/-- A string in the buffer is read as the text says. -/
theorem Quoted.reads {buf bytes after : List UInt8} (h : Quoted buf bytes after)
    (hbuf : buf = s ++ 0 :: behind) (hs : s <:+ line ++ [0x0a]) (hnul : 0 ∉ line) :
    ∃ rest, after = rest ++ 0 :: behind ∧ ReadsPairs s rest := by
  induction h generalizing s with
  | @stop c t ends =>
      cases s with
      | nil => exact ⟨[], hbuf, .unclosed⟩
      | cons e s =>
          obtain ⟨rfl, rfl⟩ := List.cons.inj hbuf
          have hc : c ≠ 0 := fun hc => suffix_nul hnul hs (hc ▸ List.mem_cons_self)
          obtain rfl := ends.resolve_right hc
          exact ⟨0x22 :: s, rfl, .closed⟩
  | @colon c d t value bytes after inside scans more ih =>
      obtain ⟨s, rfl, hrest, number⟩ := pair_text hbuf inside scans hs
      obtain ⟨s, rfl, rfl⟩ := text_cons hrest (by decide)
      have hsuffix : s <:+ c :: d :: 0x3a :: s := ⟨[c, d, 0x3a], rfl⟩
      obtain ⟨rest, rfl, hmore⟩ := ih rfl (hsuffix.trans hs)
      exact ⟨rest, rfl, .pair (fun hc => inside (Or.inl hc)) number hmore⟩
  | @pair c d next t value bytes after inside other scans more ih =>
      obtain ⟨s, rfl, hrest, number⟩ := pair_text hbuf inside scans hs
      have hsuffix : s <:+ c :: d :: s := ⟨[c, d], rfl⟩
      obtain ⟨rest, rfl, hmore⟩ := ih hrest (hsuffix.trans hs)
      have hkeep : skipColon s = s := by
        cases s with
        | nil => rfl
        | cons e s =>
            obtain ⟨rfl, rfl⟩ := List.cons.inj hrest
            exact skipColon_of_ne other s
      exact ⟨rest, rfl, .pair (fun hc => inside (Or.inl hc)) number (hkeep.symm ▸ hmore)⟩

/-- The run of letters and digits ends with the text at the latest. -/
theorem run_text (s behind : List UInt8) :
    (s ++ 0 :: behind).takeWhile Scan.isAlnum = s.takeWhile Scan.isAlnum ∧
      (s ++ 0 :: behind).drop (s.takeWhile Scan.isAlnum).length =
        s.dropWhile Scan.isAlnum ++ 0 :: behind := by
  refine ⟨Scan.takeWhile_nul (by decide) s behind, ?_⟩
  have hsplit := List.takeWhile_append_dropWhile (p := Scan.isAlnum) (l := s)
  conv_lhs =>
    rw [← hsplit, List.append_assoc]
  rw [hsplit]
  exact List.drop_left

/-- In a run of letters and digits, a number begins where a digit stands. -/
theorem run_numeral {n : Nat} (hn : n < (s.takeWhile Scan.isAlnum).length) {width : Nat}
    (hwidth : 0 < width) : Scan.Numeral width (s.drop n) ↔
      ∀ c ∈ ((s.takeWhile Scan.isAlnum).drop n).head?, Scan.isHexDigit c = true := by
  have hsplit := List.takeWhile_append_dropWhile (p := Scan.isAlnum) (l := s)
  have halnum : ∀ c ∈ s.takeWhile Scan.isAlnum, Scan.isAlnum c = true :=
    fun c hc => List.mem_takeWhile_imp hc
  generalize s.takeWhile Scan.isAlnum = run at *
  rw [← hsplit, List.drop_append_of_le_length (Nat.le_of_lt hn)]
  cases hrun : run.drop n with
  | nil =>
      rw [List.drop_eq_nil_iff] at hrun
      omega
  | cons c more =>
      have hc := halnum c (List.mem_of_mem_drop (hrun ▸ List.mem_cons_self))
      rw [List.cons_append, Scan.numeral_alnum hc hwidth]
      simp

theorem ReadsArgument.argument {rest : List UInt8} (h : ReadsArgument s rest) (hnul : 0 ∉ s)
    (behind : List UInt8) :
    ∃ bytes, Argument (s ++ 0 :: behind) bytes (rest ++ 0 :: behind) := by
  cases h with
  | quoted pairs =>
      obtain ⟨bytes, hquoted⟩ := pairs.quoted (fun h => hnul (List.mem_cons_of_mem _ h)) behind
      exact ⟨bytes, .quoted hquoted⟩
  | @literal s run =>
      obtain ⟨hrun, hdrop⟩ := run_text s behind
      have hscans (width : Nat) (hwidth : 0 < width) :
          0 < (s.takeWhile Scan.isAlnum).length →
            ∃ value, Scans width (s ++ 0 :: behind) value := fun hlen =>
        (scans_iff behind).mpr ((run_numeral hlen hwidth).mpr run.first)
      by_cases hlong : (s.takeWhile Scan.isAlnum).length = 16
      · obtain ⟨high, hfirst⟩ := hscans 8 (by decide) (by omega)
        have hle := (List.takeWhile_sublist Scan.isAlnum (l := s)).length_le
        obtain ⟨low, hsecond⟩ : ∃ low, Scans 8 ((s ++ 0 :: behind).drop 8) low := by
          rw [List.drop_append_of_le_length (by omega)]
          exact (scans_iff behind).mpr ((run_numeral (by omega) (by decide)).mpr run.ninth)
        rw [hlong] at hdrop
        exact ⟨_, hdrop ▸ Argument.long (by rw [hrun, hlong]) hfirst hsecond⟩
      · obtain ⟨n, hn, hlen⟩ : ∃ n, (1 ≤ n ∧ n ≤ 4) ∧
            (s.takeWhile Scan.isAlnum).length = 2 * n := by
          have hsize := run.size
          simp only [List.mem_cons, List.not_mem_nil, or_false] at hsize
          exact ⟨(s.takeWhile Scan.isAlnum).length / 2, by omega, by omega⟩
        obtain ⟨value, hvalue⟩ := hscans (2 * n) (by omega) (by omega)
        rw [hlen] at hdrop
        exact ⟨_, hdrop ▸ Argument.short hn (by rw [hrun, hlen]) hvalue⟩

/-- An argument in the buffer is read as the text says. -/
theorem Argument.reads {buf bytes after : List UInt8} (h : Argument buf bytes after)
    (hbuf : buf = s ++ 0 :: behind) (hs : s <:+ line ++ [0x0a]) (hnul : 0 ∉ line) :
    ∃ rest, after = rest ++ 0 :: behind ∧ ReadsArgument s rest := by
  have hliteral {t : List UInt8} (hbuf : 0x30 :: 0x78 :: t = s ++ 0 :: behind) {n : Nat}
      (hsize : n ∈ [2, 4, 6, 8, 16]) (hrun : (t.takeWhile Scan.isAlnum).length = n) {width : Nat}
      (hwidth : 0 < width) {value : UInt32} (first : Scans width t value)
      (ninth : n = 16 → ∃ low, Scans 8 (t.drop 8) low) :
      ∃ rest, t.drop n = rest ++ 0 :: behind ∧ ReadsArgument s rest := by
    obtain ⟨s, rfl, hx⟩ := text_cons hbuf (by decide)
    obtain ⟨s, rfl, rfl⟩ := text_cons hx (by decide)
    obtain ⟨htake, hdrop⟩ := run_text s behind
    rw [htake] at hrun
    have hpos : 0 < (s.takeWhile Scan.isAlnum).length := by
      have hcases : n = 2 ∨ n = 4 ∨ n = 6 ∨ n = 8 ∨ n = 16 := by simpa using hsize
      omega
    rw [hrun] at hdrop
    refine ⟨_, hdrop, .literal ⟨hrun ▸ hsize, ?_, ?_⟩⟩
    · exact (run_numeral hpos hwidth).mp ((scans_iff behind).mp ⟨value, first⟩)
    · by_cases hlong : n = 16
      · obtain ⟨low, hlow⟩ := ninth hlong
        have hle := (List.takeWhile_sublist Scan.isAlnum (l := s)).length_le
        rw [List.drop_append_of_le_length (by omega)] at hlow
        exact (run_numeral (by omega) (by decide)).mp ((scans_iff behind).mp ⟨low, hlow⟩)
      · have hcases : n = 2 ∨ n = 4 ∨ n = 6 ∨ n = 8 ∨ n = 16 := by simpa using hsize
        rw [List.drop_of_length_le (by omega)]
        simp
  cases h with
  | quoted pairs =>
      obtain ⟨s, rfl, rfl⟩ := text_cons hbuf (by decide)
      obtain ⟨rest, rfl, hpairs⟩ := pairs.reads rfl ((List.suffix_cons _ _).trans hs) hnul
      exact ⟨rest, rfl, .quoted hpairs⟩
  | @short t n value size run scans =>
      have hn : 2 * n ∈ [2, 4, 6, 8, 16] := by
        obtain rfl | rfl | rfl | rfl : n = 1 ∨ n = 2 ∨ n = 3 ∨ n = 4 := by omega
        all_goals decide
      exact hliteral hbuf hn run (by omega) scans fun h => by omega
  | long run first second =>
      exact hliteral hbuf (by decide) run (by decide) first fun _ => ⟨_, second⟩

theorem ReadsArguments.arguments (h : ReadsArguments s) (hnul : 0 ∉ s) (behind : List UInt8) :
    ∃ bytes, Arguments (s ++ 0 :: behind) bytes := by
  induction h with
  | done ended => exact ⟨[], .done (by rw [advance_text hnul, if_pos ended])⟩
  | @next s rest first _ ih =>
      have hbeyond : 0 ∉ beyond s := fun h => hnul ((beyond_suffix s).subset h)
      obtain ⟨piece, hfirst⟩ := first.argument hbeyond behind
      obtain ⟨bytes, hmore⟩ := ih fun h => hbeyond (first.suffix.subset h)
      have hne : beyond s ≠ [] := by
        intro hnil
        rw [hnil] at first
        cases first
      exact ⟨piece ++ bytes, .next (by rw [advance_text hnul, if_neg hne]) hfirst hmore⟩

theorem Arguments.reads {buf bytes : List UInt8} (h : Arguments buf bytes)
    (hbuf : buf = s ++ 0 :: behind) (hs : s <:+ line ++ [0x0a]) (hnul : 0 ∉ line) :
    ReadsArguments s := by
  induction h generalizing s with
  | done ended =>
      rw [hbuf, advance_text (suffix_nul hnul hs)] at ended
      by_contra hbad
      rw [if_neg fun h => hbad (.done h)] at ended
      cases ended
  | next found first _ ih =>
      rw [hbuf, advance_text (suffix_nul hnul hs)] at found
      split_ifs at found with hnil
      · cases found
      · have hbeyond := (beyond_suffix s).trans hs
        obtain ⟨rest, rfl, hfirst⟩ := first.reads (Option.some.inj (Except.ok.inj found)).symm
          hbeyond hnul
        exact .next hfirst (ih rfl (hfirst.suffix.trans hbeyond))

end Buffer

/-- The NUL is no part of the name of a command. -/
theorem take_send {text behind : List UInt8} :
    (text ++ 0 :: behind).take 5 = [0x53, 0x65, 0x6e, 0x64, 0x5f] ↔
      text.take 5 = [0x53, 0x65, 0x6e, 0x64, 0x5f] := by
  by_cases hlen : 5 ≤ text.length
  · rw [List.take_append_of_le_length hlen]
  · obtain ⟨k, hk⟩ : ∃ k, 5 - text.length = k + 1 := ⟨4 - text.length, by omega⟩
    rw [List.take_append, hk, List.take_succ_cons, List.take_of_length_le (by omega)]
    constructor
    · intro h
      have hmem : (0 : UInt8) ∈ text ++ 0 :: behind.take k := by simp
      rw [h] at hmem
      exact absurd hmem (by decide)
    · intro h
      rw [h] at hlen
      exact absurd (Nat.le_refl 5) hlen

/-- The lines that denote a record are those that are read to the end, whatever the buffer
holds behind them. -/
theorem reads_iff_denotes {line : List UInt8} (hnul : 0 ∉ line) (behind : List UInt8) :
    Reads (line ++ [0x0a]) ↔
      ∃ opcode bytes, Denotes (line ++ [0x0a] ++ 0 :: behind) opcode bytes := by
  have htext : 0 ∉ line ++ [0x0a] := suffix_nul hnul List.suffix_rfl
  have hbeyond := beyond_suffix (line ++ [0x0a])
  constructor
  · rintro ⟨hsends, ⟨digits, hfound, hnumber⟩, hargs⟩
    obtain ⟨opcode, hscans⟩ := (scans_iff behind).mpr hnumber
    obtain ⟨bytes, harguments⟩ :=
      hargs.arguments (fun h => htext (hbeyond.subset h)) behind
    rw [hfound] at harguments
    refine ⟨opcode, bytes, take_send.mpr hsends, digits ++ 0 :: behind, ?_, hscans, harguments⟩
    rw [advance_text htext, hfound, if_neg (List.cons_ne_nil _ _)]
    rfl
  · rintro ⟨opcode, bytes, hsends, digits, hfound, hscans, harguments⟩
    rw [advance_text htext] at hfound
    split_ifs at hfound
    · cases hfound
    · have hbuf := (Option.some.inj (Except.ok.inj hfound)).symm
      obtain ⟨s, hzero, hx⟩ := text_cons hbuf (by decide)
      obtain ⟨s, rfl, rfl⟩ := text_cons hx (by decide)
      exact ⟨take_send.mp hsends, ⟨s, hzero, (scans_iff behind).mp ⟨opcode, hscans⟩⟩,
        harguments.reads hbuf hbeyond hnul⟩

end Brfpatch
