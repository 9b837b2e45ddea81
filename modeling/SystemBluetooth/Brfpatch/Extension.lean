import SystemBluetooth.Brfpatch.Language

/-!
# A text and what follows it

What a text that ends with its NUL denotes does not depend on the bytes behind it
(`Denotes.append`): the parser has met the NUL before. If the text is continued in place of
its NUL, it may denote something else, but never fewer bytes (`Denotes.length_le`): only the
last argument can change, and it can only grow.
-/

namespace Brfpatch

theorem Quoted.unique {buf piece rest piece' rest' : List UInt8} (h : Quoted buf piece rest)
    (h' : Quoted buf piece' rest') : rest = rest' := by
  induction h generalizing piece' with
  | stop ends =>
      cases h' with
      | stop _ => rfl
      | colon inside _ _ => exact absurd ends inside
      | pair inside _ _ _ => exact absurd ends inside
  | colon inside _ _ ih =>
      cases h' with
      | stop ends => exact absurd ends inside
      | colon _ _ later => exact ih later
      | pair _ other _ _ => exact absurd rfl other
  | pair inside other _ _ ih =>
      cases h' with
      | stop ends => exact absurd ends inside
      | colon _ _ _ => exact absurd rfl other
      | pair _ _ _ later => exact ih later

/-- The pointer skips a word and the white space behind it. -/
theorem advance_split {buf : List UInt8} {found : Option (List UInt8)}
    (h : advance buf = .ok found) : ∃ w bs c t, buf = w ++ (bs ++ c :: t) ∧ Word w ∧
      (∀ d ∈ bs, Scan.isSpace d = true) ∧ Scan.isSpace c = false ∧ (bs ≠ [] ∨ c = 0) ∧
      found = if c = 0 then none else some (c :: t) := by
  have hword : Word (buf.takeWhile fun c => c != 0 && !Scan.isSpace c) := fun d hd => by
    simpa using List.mem_takeWhile_imp hd
  have hsplit :=
    List.takeWhile_append_dropWhile (p := fun c => c != 0 && !Scan.isSpace c) (l := buf)
  have hstop := List.head?_dropWhile_not (fun c => c != 0 && !Scan.isSpace c) buf
  rw [advance] at h
  generalize buf.takeWhile (fun c => c != 0 && !Scan.isSpace c) = w at *
  generalize buf.dropWhile (fun c => c != 0 && !Scan.isSpace c) = s at *
  have hspace : ∀ d ∈ s.takeWhile Scan.isSpace, Scan.isSpace d = true := fun d hd =>
    List.mem_takeWhile_imp hd
  have hsplit' := List.takeWhile_append_dropWhile (p := Scan.isSpace) (l := s)
  have hstop' := List.head?_dropWhile_not Scan.isSpace s
  split at h
  · cases h
  · rename_i c t heq
    rw [heq] at hsplit' hstop'
    refine ⟨w, s.takeWhile Scan.isSpace, c, t, by rw [hsplit', hsplit], hword, hspace, hstop', ?_,
      by rw [← heq, Except.ok.inj h]⟩
    by_contra hne
    obtain ⟨hnil, hc⟩ := not_or.mp hne
    rw [not_not] at hnil
    rw [hnil, List.nil_append] at hsplit'
    rw [← hsplit'] at hstop
    have hspacec : Scan.isSpace c = false := hstop'
    simp [hc, hspacec] at hstop

theorem nul_not_mem {w bs : List UInt8} (hw : Word w) (hbs : ∀ d ∈ bs, Scan.isSpace d = true) :
    0 ∉ w ++ bs :=
  fun hmem => (List.mem_append.mp hmem).elim (fun h => (hw 0 h).1 rfl) fun h =>
    absurd (hbs 0 h) (by decide)

/-- What is found behind a word and some white space. -/
theorem advance_found {buf b : List UInt8} (h : advance buf = .ok (some b)) :
    ∃ w bs c t, buf = w ++ bs ++ c :: t ∧ b = c :: t ∧ Word w ∧
      (∀ d ∈ bs, Scan.isSpace d = true) ∧ bs ≠ [] ∧ 0 ∉ w ++ bs ∧ c ≠ 0 ∧
      Scan.isSpace c = false := by
  obtain ⟨w, bs, c, t, hsplit, hw, hbs, hspace, hgap, hfound⟩ := advance_split h
  have hc : c ≠ 0 := by
    rintro rfl
    cases hfound
  rw [if_neg hc] at hfound
  exact ⟨w, bs, c, t, by rw [hsplit, List.append_assoc], Option.some.inj hfound, hw, hbs,
    hgap.resolve_right hc, nul_not_mem hw hbs, hc, hspace⟩

/-! ### Bytes behind the end -/

section Behind

variable {s piece rest bytes : List UInt8}

theorem Scans.append {width : Nat} {value : UInt32} (h : Scans width s value)
    (more : List UInt8) : Scans width (s ++ more) value := by
  obtain ⟨hnul, rest, hscan⟩ := h
  exact ⟨List.mem_append_left more hnul, Scan.hex_append hnul hscan more⟩

theorem Quoted.append (h : Quoted s piece rest) (more : List UInt8) :
    Quoted (s ++ more) piece (rest ++ more) := by
  induction h with
  | stop ends => exact .stop ends
  | colon inside scans _ ih => exact .colon inside (scans.append more) ih
  | pair inside other scans _ ih => exact .pair inside other (scans.append more) ih

theorem Argument.append (h : Argument s piece rest) (more : List UInt8) :
    Argument (s ++ more) piece (rest ++ more) := by
  have hrun {s : List UInt8} (hnul : 0 ∈ s) :
      (s ++ more).takeWhile Scan.isAlnum = s.takeWhile Scan.isAlnum :=
    Scan.takeWhile_append_of_mem (by decide) hnul more
  have hdrop {s : List UInt8} {n : Nat} (hlen : (s.takeWhile Scan.isAlnum).length = n) :
      (s ++ more).drop n = s.drop n ++ more := by
    have hle := (List.takeWhile_sublist Scan.isAlnum (l := s)).length_le
    exact List.drop_append_of_le_length (by omega)
  cases h with
  | quoted pairs => exact .quoted (pairs.append more)
  | @short s n value size run scans =>
      have hall := Argument.short size ((congrArg List.length (hrun scans.1)).trans run)
        (scans.append more)
      rwa [hdrop run] at hall
  | @long s high low run first second =>
      have hle := (List.takeWhile_sublist Scan.isAlnum (l := s)).length_le
      have height : (s ++ more).drop 8 = s.drop 8 ++ more :=
        List.drop_append_of_le_length (by omega)
      have hsecond := second.append more
      rw [← height] at hsecond
      have hall := Argument.long ((congrArg List.length (hrun first.1)).trans run)
        (first.append more) hsecond
      rwa [hdrop run] at hall

theorem advance_append {found : Option (List UInt8)} (h : advance s = .ok found)
    (more : List UInt8) : advance (s ++ more) = .ok (found.map (· ++ more)) := by
  obtain ⟨w, bs, c, t, rfl, hw, hbs, hspace, hgap, rfl⟩ := advance_split h
  have hadvance := advance_word hw hbs hspace hgap (t ++ more)
  by_cases hc : c = 0
  · simpa [hc] using hadvance
  · simpa [hc] using hadvance

theorem Arguments.append (h : Arguments s bytes) (more : List UInt8) :
    Arguments (s ++ more) bytes := by
  induction h with
  | done ended => exact .done (advance_append ended more)
  | next found first _ ih => exact .next (advance_append found more) (first.append more) ih

theorem Denotes.append {opcode : UInt32} (h : Denotes s opcode bytes) (more : List UInt8) :
    Denotes (s ++ more) opcode bytes := by
  obtain ⟨hsends, digits, hadvance, hscans, harguments⟩ := h
  have hlen : 5 ≤ s.length := by
    have htake := congrArg List.length hsends
    rw [List.length_take] at htake
    simp only [List.length_cons, List.length_nil] at htake
    omega
  refine ⟨?_, digits ++ more, advance_append hadvance more, hscans.append more,
    harguments.append more⟩
  rw [List.take_append_of_le_length hlen, hsends]

end Behind

/-! ### A text that goes on -/

section Continued

variable {s p t piece rest piece' rest' bytes bytes' : List UInt8}

/-- The rest of a text that ends with its NUL, up to that NUL. -/
theorem split_nul (front : List UInt8) {t : List UInt8} {c : UInt8} (h : p ++ [0] = front ++ c :: t)
    (hc : c ≠ 0) : ∃ q, p = front ++ c :: q ∧ t = q ++ [0] := by
  rw [List.append_eq_append_iff] at h
  obtain ⟨a, rfl, h⟩ | ⟨a, rfl, h⟩ := h
  · cases a with
    | nil => exact absurd (List.cons.inj h).1.symm hc
    | cons d a => simp at h
  · cases a with
    | nil => exact absurd (List.cons.inj h).1 hc
    | cons d a =>
        obtain ⟨rfl, rfl⟩ := List.cons.inj h
        exact ⟨a, rfl, rfl⟩

/-- Both readings are at the same place, or the first one is at its end. -/
def Aligned (t rest rest' : List UInt8) : Prop :=
  (∃ q, rest = q ++ [0] ∧ rest' = q ++ t) ∨ rest = [0]

theorem Quoted.continued (h : Quoted s piece rest) (hs : s = p ++ [0])
    (h' : Quoted (p ++ t) piece' rest') :
    piece.length ≤ piece'.length ∧ Aligned t rest rest' := by
  induction h generalizing p piece' with
  | @stop c s ends =>
      refine ⟨Nat.zero_le _, ?_⟩
      cases p with
      | nil => exact Or.inr hs
      | cons d p =>
          obtain ⟨rfl, rfl⟩ := List.cons.inj hs
          have hsame := h'.unique (.stop ends)
          exact Or.inl ⟨c :: p, rfl, hsame⟩
  | @colon c d s value piece rest inside scans later ih =>
      have hc : c ≠ 0 := fun hc => inside (Or.inr hc)
      obtain ⟨q, rfl, hq⟩ := split_nul [] hs.symm hc
      obtain ⟨q, rfl, rfl⟩ := split_nul [d] hq.symm (by decide)
      cases h' with
      | stop ends => exact absurd ends inside
      | colon _ _ later' =>
          obtain ⟨hle, haligned⟩ := ih rfl later'
          simpa using ⟨hle, haligned⟩
      | pair _ other _ _ => exact absurd rfl other
  | @pair c d next s value piece rest inside other scans later ih =>
      have hc : c ≠ 0 := fun hc => inside (Or.inr hc)
      obtain ⟨q, rfl, hq⟩ := split_nul [] hs.symm hc
      match q, hq with
      | [e], hq =>
          -- The NUL follows the pair, so the first reading ends here.
          obtain ⟨rfl, hnext⟩ := List.cons.inj hq
          obtain ⟨rfl, rfl⟩ := List.cons.inj hnext
          cases later with
          | stop _ =>
              refine ⟨?_, Or.inr rfl⟩
              cases h' with
              | stop ends => exact absurd ends inside
              | colon _ _ _ => simp
              | pair _ _ _ _ => simp
      | e :: f :: q, hq =>
          obtain ⟨rfl, hnext⟩ := List.cons.inj hq
          obtain ⟨rfl, rfl⟩ := List.cons.inj hnext
          cases h' with
          | stop ends => exact absurd ends inside
          | colon _ _ _ => exact absurd rfl other
          | pair _ _ _ later' =>
              have hlater : Quoted ((next :: q) ++ t) _ rest' := later'
              obtain ⟨hle, haligned⟩ := ih rfl hlater
              simpa using ⟨hle, haligned⟩

/-- A literal has a byte for every two letters and digits, which it is read up to. -/
theorem Argument.of_literal (h : Argument (0x30 :: 0x78 :: s) piece rest) :
    piece.length = (s.takeWhile Scan.isAlnum).length / 2 ∧
      rest = s.drop (s.takeWhile Scan.isAlnum).length := by
  cases h with
  | short size run scans =>
      rw [run]
      exact ⟨by simp, rfl⟩
  | long run first second =>
      rw [run]
      exact ⟨by simp, rfl⟩

theorem Argument.continued (h : Argument (p ++ [0]) piece rest)
    (h' : Argument (p ++ t) piece' rest') :
    piece.length ≤ piece'.length ∧ Aligned t rest rest' := by
  generalize hs : p ++ [0] = s at h
  have hliteral {r : List UInt8} (hr : p ++ [0] = [0x30, 0x78] ++ r)
      (h : Argument (0x30 :: 0x78 :: r) piece rest) :
      piece.length ≤ piece'.length ∧ Aligned t rest rest' := by
    obtain ⟨q, rfl, hq⟩ := split_nul [0x30] hr (by decide)
    subst hq
    obtain ⟨hlen, rfl⟩ := h.of_literal
    have hcontinued : Argument (0x30 :: 0x78 :: (q ++ t)) piece' rest' := h'
    obtain ⟨hlen', rfl⟩ := hcontinued.of_literal
    rw [hlen, hlen', List.takeWhile_append, List.takeWhile_append]
    by_cases hall : (q.takeWhile Scan.isAlnum).length = q.length
    · have hstop : [(0 : UInt8)].takeWhile Scan.isAlnum = [] := rfl
      rw [if_pos hall, if_pos hall, hstop, List.append_nil]
      refine ⟨Nat.div_le_div_right (by simp), Or.inr ?_⟩
      exact List.drop_left
    · rw [if_neg hall, if_neg hall]
      have hle := (List.takeWhile_sublist Scan.isAlnum (l := q)).length_le
      refine ⟨Nat.le_refl _, Or.inl ⟨q.drop (q.takeWhile Scan.isAlnum).length, ?_, ?_⟩⟩
      · exact List.drop_append_of_le_length hle
      · exact List.drop_append_of_le_length hle
  cases h with
  | quoted pairs =>
      obtain ⟨q, rfl, hq⟩ := split_nul [] hs (by decide)
      cases h' with
      | quoted pairs' => exact pairs.continued hq pairs'
  | short size run scans => exact hliteral hs (.short size run scans)
  | long run first second => exact hliteral hs (.long run first second)

/-- A text that is continued finds the same next argument, with the continuation behind. -/
theorem advance_continued {b : List UInt8} (h : advance (p ++ [0]) = .ok (some b)) :
    ∃ c q, b = c :: q ++ [0] ∧ advance (p ++ t) = .ok (some (c :: q ++ t)) := by
  obtain ⟨w, bs, c, r, hsplit, rfl, hw, hbs, hgap, _, hc, hspace⟩ := advance_found h
  obtain ⟨q, rfl, rfl⟩ := split_nul (w ++ bs) hsplit hc
  have hadvance := advance_word hw hbs hspace (Or.inl hgap) (q ++ t)
  rw [if_neg hc] at hadvance
  exact ⟨c, q, rfl, by simpa using hadvance⟩

theorem Arguments.continued (h : Arguments s bytes) (hs : s = p ++ [0])
    (h' : Arguments (p ++ t) bytes') : bytes.length ≤ bytes'.length := by
  induction h generalizing p bytes' with
  | done _ => exact Nat.zero_le _
  | @next buf b piece rest bytes found first later ih =>
      subst hs
      obtain ⟨c, q, rfl, hadvance⟩ := advance_continued (t := t) found
      cases h' with
      | done ended =>
          rw [hadvance] at ended
          cases ended
      | @next _ b' piece' rest' bytes' found' first' later' =>
          obtain rfl : c :: q ++ t = b' := by simpa using hadvance.symm.trans found'
          obtain ⟨hpiece, haligned⟩ := first.continued first'
          rw [List.length_append, List.length_append]
          obtain ⟨q, rfl, rfl⟩ | rfl := haligned
          · exact Nat.add_le_add hpiece (ih rfl later')
          · have hnone : bytes = [] := by
              cases later with
              | done _ => rfl
              | next found _ _ => cases found
            rw [hnone]
            exact Nat.le_add_right_of_le hpiece

/-- A text that goes on denotes at least as many bytes. -/
theorem Denotes.length_le {opcode opcode' : UInt32} (h : Denotes (p ++ [0]) opcode bytes)
    (h' : Denotes (p ++ t) opcode' bytes') : bytes.length ≤ bytes'.length := by
  obtain ⟨_, digits, hadvance, _, harguments⟩ := h
  obtain ⟨_, digits', hadvance', _, harguments'⟩ := h'
  obtain ⟨c, q, hsplit, hcontinued⟩ := advance_continued (t := t) hadvance
  rw [hcontinued] at hadvance'
  obtain heq := Option.some.inj (Except.ok.inj hadvance')
  rw [← heq] at harguments'
  exact harguments.continued hsplit harguments'

end Continued

end Brfpatch
