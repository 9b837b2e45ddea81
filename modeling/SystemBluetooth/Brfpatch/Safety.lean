import SystemBluetooth.Brfpatch.Arguments

/-!
# Lines that end

The pointer moves by fixed steps behind a scan, and a scan may have read further or less far
than the step. A newline in front of the NUL keeps the pointer in the string all the same:
no scan succeeds at it. So a line that ends with a newline is either read to its end or
rejected with a message, and never read behind its NUL.
-/

namespace Brfpatch

/-- Nothing is left of a line, or its last character is a newline. -/
def Lined (buf : List UInt8) : Prop :=
  ∃ line behind, buf = line ++ 0 :: behind ∧ 0 ∉ line ∧ (line = [] ∨ ∃ l, line = l ++ [0x0a])

namespace Lined

theorem nul {buf : List UInt8} (h : Lined buf) : 0 ∈ buf := by
  obtain ⟨line, behind, rfl, _⟩ := h
  simp

theorem ne_nil {buf : List UInt8} (h : Lined buf) : buf ≠ [] := List.ne_nil_of_mem h.nul

/-- Behind a character of the line. -/
theorem tail {c : UInt8} {s : List UInt8} (h : Lined (c :: s)) (hc : c ≠ 0) : Lined s := by
  obtain ⟨line, behind, heq, hnul, hend⟩ := h
  cases line with
  | nil => exact absurd (List.cons.inj heq).1 hc
  | cons d line =>
      obtain ⟨rfl, rfl⟩ := List.cons.inj heq
      refine ⟨line, behind, rfl, fun h => hnul (List.mem_cons_of_mem c h), ?_⟩
      obtain hnone | ⟨l, hl⟩ := hend
      · cases hnone
      · cases l with
        | nil => exact Or.inl (List.cons.inj hl).2
        | cons e l => exact Or.inr ⟨l, (List.cons.inj hl).2⟩

theorem append (front : List UInt8) {s : List UInt8} (h : Lined (front ++ s))
    (hfront : 0 ∉ front) : Lined s := by
  induction front with
  | nil => exact h
  | cons c front ih =>
      have hc : c ≠ 0 := fun hc => hfront (hc ▸ List.mem_cons_self)
      exact ih (h.tail hc) fun h => hfront (List.mem_cons_of_mem c h)

theorem dropWhile {buf : List UInt8} (h : Lined buf) {p : UInt8 → Bool} (hp : p 0 = false) :
    Lined (buf.dropWhile p) := by
  refine append (buf.takeWhile p) ?_ fun hmem => ?_
  · rwa [List.takeWhile_append_dropWhile]
  · rw [List.mem_takeWhile_imp hmem] at hp
    cases hp

/-- The last character of a line is its newline. -/
theorem newline {c : UInt8} {s : List UInt8} (h : Lined (c :: 0 :: s)) (hc : c ≠ 0) :
    c = 0x0a := by
  obtain ⟨line, behind, heq, hnul, hend⟩ := h
  cases line with
  | nil => exact absurd (List.cons.inj heq).1 hc
  | cons d line =>
      obtain ⟨rfl, htail⟩ := List.cons.inj heq
      cases line with
      | nil =>
          obtain hnone | ⟨l, hl⟩ := hend
          · cases hnone
          · cases l with
            | nil => exact (List.cons.inj hl).1
            | cons e l => simp at hl
      | cons e line =>
          obtain ⟨rfl, _⟩ := List.cons.inj htail
          exact absurd (by simp) hnul

end Lined

/-- A step of the parser that stays in the line: a value, or a message. -/
def Returns {α : Type} (P : α → Prop) (result : Except Halt α) : Prop :=
  (∃ a, result = .ok a ∧ P a) ∨ ∃ message string, result = .error (.failed message string)

section Returns

variable {α β : Type} {P : α → Prop} {Q : β → Prop}

theorem Returns.ok {a : α} (h : P a) : Returns P (.ok a) := Or.inl ⟨a, rfl, h⟩

theorem Returns.failed (message : String) (string : List UInt8) :
    Returns P (.error (.failed message string)) :=
  Or.inr ⟨message, string, rfl⟩

theorem Returns.bind {x : Except Halt α} {f : α → Except Halt β} (first : Returns P x)
    (second : ∀ a, P a → Returns Q (f a)) : Returns Q (x >>= f) := by
  obtain ⟨a, rfl, ha⟩ | ⟨message, string, rfl⟩ := first
  · exact second a ha
  · exact .failed message string

/-- What is known of the value in another way. -/
theorem Returns.and {P' : α → Prop} {x : Except Halt α} (h : Returns P x)
    (hval : ∀ a, x = .ok a → P' a) : Returns (fun a => P a ∧ P' a) x := by
  obtain ⟨a, ha, hP⟩ | hfailed := h
  · exact Or.inl ⟨a, ha, hP, hval a ha⟩
  · exact Or.inr hfailed

theorem failIf_returns (p : Prop) [Decidable p] (message : String) (buffer : List UInt8) :
    Returns (fun _ => ¬ p) (failIf p message buffer) := by
  by_cases hp : p
  · rw [failIf, if_pos hp]
    exact .failed _ _
  · rw [failIf, if_neg hp]
    exact .ok hp

end Returns

variable {buffer : List UInt8}

/-- What is left of a line, and room in the array for the bytes it can denote. -/
def Ahead (r : List UInt8 × Data) : Prop := Lined r.1 ∧ 2 * r.2.dp + r.1.length ≤ dataSize

theorem scan_returns {line width dp : Nat} {buf : List UInt8} {cells : Int → UInt8}
    (hbuf : 0 ∈ buf) (hdp : dp + 4 ≤ dataSize) :
    Returns (fun _ => ∃ value, Scans width buf value) (scan buffer line width buf dp cells) := by
  rw [scan, if_neg (not_not.mpr hbuf)]
  split
  · exact .failed _ _
  · rename_i value rest hscan
    rw [if_pos hdp]
    exact .ok ⟨value, hbuf, rest, hscan⟩

/-- A scan of the last character of a string reads a digit. -/
theorem Scans.last {c : UInt8} {s : List UInt8} {value : UInt32} (h : Scans 2 (c :: 0 :: s) value) :
    Scan.isHexDigit c = true := by
  obtain ⟨_, rest, hscan⟩ := h
  by_contra hdigit
  rw [Scan.hex_single (by simpa using hdigit)] at hscan
  cases hscan

/-- At the newline that ends a line there is nothing to scan. -/
theorem not_scans_newline {s : List UInt8} {value : UInt32} : ¬ Scans 2 (0x0a :: 0 :: s) value :=
  fun h => absurd h.last (by decide)

theorem advance_returns {buf : List UInt8} (h : Lined buf) :
    Returns (fun found => ∀ b, found = some b → Lined b ∧ b.length < buf.length) (advance buf) := by
  have hlined :
      Lined ((buf.dropWhile fun c => c != 0 && !Scan.isSpace c).dropWhile Scan.isSpace) :=
    (h.dropWhile (by decide)).dropWhile (by decide)
  obtain ⟨c, s, heq⟩ := List.exists_cons_of_ne_nil hlined.ne_nil
  rw [heq] at hlined
  have hrun : advance buf = .ok (if c = 0 then none else some (c :: s)) := by
    simp only [advance, heq]
  rw [hrun]
  refine .ok fun b hb => ?_
  rw [hb] at hrun
  split at hb
  · cases hb
  · cases hb
    exact ⟨hlined, advance_length hrun⟩

theorem quoted_returns {buf : List UInt8} {data : Data} (h : Ahead (buf, data)) :
    Returns Ahead (quoted buffer buf data) := by
  have hsize : dataSize = 1024 := rfl
  induction buf, data using quoted.induct with
  | case1 data => exact absurd rfl h.1.ne_nil
  | case2 c s data hends =>
      rw [quoted, if_pos hends]
      exact .ok h
  | case3 c s data hinside ih =>
      obtain ⟨hlined, hroom⟩ := h
      have hc : c ≠ 0 := fun hc => hinside (Or.inr hc)
      have hs := hlined.tail hc
      obtain ⟨d, s, rfl⟩ := List.exists_cons_of_ne_nil hs.ne_nil
      simp only [List.length_cons] at hroom
      rw [quoted, if_neg hinside]
      refine (failIf_returns _ _ _).bind fun _ _ => ?_
      refine (scan_returns hlined.nul (by omega)).bind fun cells hscans => ?_
      have hd : d ≠ 0 := by
        rintro rfl
        obtain ⟨value, hscans⟩ := hscans
        exact not_scans_newline (hlined.newline hc ▸ hscans)
      obtain ⟨next, s, rfl⟩ := List.exists_cons_of_ne_nil (hs.tail hd).ne_nil
      obtain ⟨hcolon, hother⟩ := ih cells
      simp only [List.length_cons] at hroom
      dsimp only
      split
      · rename_i hnext
        refine hcolon ⟨(hs.tail hd).tail (by rw [hnext]; decide), ?_⟩
        dsimp only
        omega
      · refine hother ⟨hs.tail hd, ?_⟩
        simp only [List.length_cons]
        omega

/-- Behind as many letters and digits as the run has. -/
theorem Lined.drop_run {buf : List UInt8} (h : Lined buf) {n : Nat}
    (hrun : (buf.takeWhile Scan.isAlnum).length = n) : Lined (buf.drop n) := by
  have hdrop : buf.drop n = buf.dropWhile Scan.isAlnum := by
    have hsplit := List.takeWhile_append_dropWhile (p := Scan.isAlnum) (l := buf)
    conv_lhs => rw [← hsplit]
    exact List.drop_left' hrun
  rw [hdrop]
  exact h.dropWhile (by decide)

theorem digits_returns {buf : List UInt8} {data : Data} {line n : Nat} (h : Ahead (buf, data))
    (_ : 1 ≤ n) (hrun : (buf.takeWhile Scan.isAlnum).length = 2 * n) :
    Returns Ahead (digits buffer line n buf data) := by
  have hsize : dataSize = 1024 := rfl
  obtain ⟨hlined, hroom⟩ := h
  have hlength := (List.takeWhile_sublist Scan.isAlnum (l := buf)).length_le
  simp only at hlined hroom
  refine (scan_returns hlined.nul (by omega)).bind fun cells _ => .ok ⟨hlined.drop_run hrun, ?_⟩
  simp only [List.length_drop]
  omega

theorem digits16_returns {buf : List UInt8} {data : Data} (h : Ahead (buf, data))
    (hrun : (buf.takeWhile Scan.isAlnum).length = 16) :
    Returns Ahead (digits16 buffer buf data) := by
  have hsize : dataSize = 1024 := rfl
  obtain ⟨hlined, hroom⟩ := h
  have hlength := (List.takeWhile_sublist Scan.isAlnum (l := buf)).length_le
  simp only at hlined hroom
  have hsecond : 0 ∈ buf.drop 8 := by
    have hrest := (hlined.drop_run hrun).nul
    rw [show 16 = 8 + 8 from rfl, ← List.drop_drop] at hrest
    exact List.mem_of_mem_drop hrest
  refine (scan_returns hlined.nul (by omega)).bind fun upper _ => ?_
  refine (scan_returns hsecond (by omega)).bind fun lower _ => .ok ⟨hlined.drop_run hrun, ?_⟩
  simp only [List.length_drop]
  omega

theorem literal_returns {buf : List UInt8} {data : Data} (h : Ahead (buf, data)) :
    Returns Ahead (literal buffer buf data) := by
  obtain ⟨hlined, hroom⟩ := h
  obtain ⟨c, buf, rfl⟩ := List.exists_cons_of_ne_nil hlined.ne_nil
  simp only [List.length_cons] at hroom
  rw [literal]
  refine (failIf_returns _ _ _).bind fun _ hc => ?_
  have hx : c = 0x78 := not_not.mp hc
  have hbuf : Ahead (buf, data) := by
    refine ⟨hlined.tail (by rw [hx]; decide), ?_⟩
    dsimp only
    omega
  have hstop : ¬ buf.all Scan.isAlnum = true := by
    intro hall
    exact absurd (List.all_eq_true.mp hall 0 hbuf.1.nul) (by decide)
  rw [if_neg hstop]
  split
  · exact digits_returns hbuf (by decide) ‹_›
  · exact digits_returns hbuf (by decide) ‹_›
  · exact digits_returns hbuf (by decide) ‹_›
  · exact digits_returns hbuf (by decide) ‹_›
  · exact digits16_returns hbuf ‹_›
  · exact .failed _ _

theorem argument_returns {buf : List UInt8} {data : Data} (h : Ahead (buf, data)) :
    Returns Ahead (argument buffer buf data) := by
  obtain ⟨hlined, hroom⟩ := h
  unfold argument
  split
  · exact absurd rfl hlined.ne_nil
  · simp only [List.length_cons] at hroom
    refine quoted_returns ⟨hlined.tail (by decide), ?_⟩
    dsimp only
    omega
  · simp only [List.length_cons] at hroom
    refine literal_returns ⟨hlined.tail (by decide), ?_⟩
    dsimp only
    omega
  · exact .failed _ _

/-- Whatever the array holds so far, an argument moves the pointer. -/
theorem argument_length {buf rest : List UInt8} {data data' : Data}
    (h : argument buffer buf data = .ok (rest, data')) : rest.length < buf.length := by
  have hdata : data.Holds (Memory.slice data.cells 0 data.dp) :=
    ⟨(Memory.length_slice ..).symm, by rw [Memory.length_slice]⟩
  obtain ⟨piece, hpiece, _⟩ := argument_holds h hdata
  have hroom := hpiece.room
  omega

theorem arguments_returns {fuel : Nat} {buf : List UInt8} {data : Data} (h : Ahead (buf, data))
    (hfuel : buf.length < fuel) : Returns (fun _ => True) (arguments buffer fuel buf data) := by
  induction fuel generalizing buf data with
  | zero => omega
  | succ fuel ih =>
      obtain ⟨hlined, hroom⟩ := h
      simp only at hroom
      rw [arguments]
      refine (advance_returns hlined).bind fun found hfound => ?_
      cases found with
      | none => exact .ok trivial
      | some b =>
          obtain ⟨hb, hahead⟩ := hfound b rfl
          dsimp only at hahead
          have hnext : Ahead (b, data) := by
            refine ⟨hb, ?_⟩
            dsimp only
            omega
          refine ((argument_returns hnext).and fun r hr => argument_length hr).bind fun r hr => ?_
          exact ih hr.1 (by omega)

/-- A line that ends with a newline is never read behind its NUL, nor does its data leave
the array: it is accepted, or rejected with a message and without a record. -/
theorem processLine_returns {buf : List UInt8} (hlined : Lined buf)
    (hsize : buf.length ≤ dataSize) (w : State) :
    (∃ t, processLine buf buffer w = (.ok (), t)) ∨ ∃ message string t,
      processLine buf buffer w = (.error (.failed message string), t) ∧ t.out = w.out := by
  have hparse : Returns (fun _ => True) (parseLine (w.stack 0) buf buffer) := by
    rw [parseLine]
    refine (failIf_returns _ _ _).bind fun _ _ => ?_
    refine (advance_returns hlined).bind fun found hfound => ?_
    cases found with
    | none => exact .failed _ _
    | some b =>
        obtain ⟨hb, hahead⟩ := hfound b rfl
        have hopcode : Returns (fun _ => True) (scanOpcode buffer b) := by
          unfold scanOpcode
          rw [if_neg (not_not.mpr hb.nul)]
          split
          · rename_i digits
            cases Scan.hex 4 digits with
            | none => exact .failed _ _
            | some found => exact .ok trivial
          · exact .failed _ _
        have hdata : Ahead (b, ⟨w.stack 0, 0⟩) := by
          refine ⟨hb, ?_⟩
          dsimp only
          omega
        refine hopcode.bind fun opcode _ => ?_
        exact (arguments_returns hdata (Nat.lt_succ_self _)).bind fun data _ => .ok trivial
  rw [processLine_apply]
  obtain ⟨⟨opcode, data⟩, hok, _⟩ | ⟨message, string, herror⟩ := hparse
  · left
    simp only [hok, dumpRecord, Effect.modify_apply]
    exact ⟨_, rfl⟩
  · right
    simp only [herror]
    exact ⟨message, string, _, rfl, rfl⟩

end Brfpatch
