import SystemBluetooth.Brfpatch.Basic

/-!
# What the arguments of a line denote

`Arguments buf bytes` says that the arguments from `buf` on denote `bytes`, one piece after
the other, with no array and no pointer into it. The program stores four bytes for every
piece, more than most pieces have, and the high half of a long literal before the low one.
`Holds` is what survives of this: the bytes in front of `dp`.
-/

namespace Brfpatch

/-- `sscanf` finds a number at the front of a string that ends in the buffer. -/
def Scans (width : Nat) (buf : List UInt8) (value : UInt32) : Prop :=
  0 ∈ buf ∧ ∃ rest, Scan.hex width buf = some (value, rest)

/-- The pairs of a quoted string, each with an optional colon behind it. -/
inductive Quoted : List UInt8 → List UInt8 → List UInt8 → Prop where
  | stop {c s} (ends : c = 0x22 ∨ c = 0) : Quoted (c :: s) [] (c :: s)
  | colon {c d s value bytes rest} (inside : ¬ (c = 0x22 ∨ c = 0))
      (scans : Scans 2 (c :: d :: 0x3a :: s) value) (later : Quoted s bytes rest) :
      Quoted (c :: d :: 0x3a :: s) (LittleEndian.encode 1 value.toNat ++ bytes) rest
  | pair {c d next s value bytes rest} (inside : ¬ (c = 0x22 ∨ c = 0)) (other : next ≠ 0x3a)
      (scans : Scans 2 (c :: d :: next :: s) value) (later : Quoted (next :: s) bytes rest) :
      Quoted (c :: d :: next :: s) (LittleEndian.encode 1 value.toNat ++ bytes) rest

/-- One argument, the bytes it denotes, and what follows it. -/
inductive Argument : List UInt8 → List UInt8 → List UInt8 → Prop where
  | quoted {s bytes rest} (pairs : Quoted s bytes rest) : Argument (0x22 :: s) bytes rest
  | short {s n value} (size : 1 ≤ n ∧ n ≤ 4) (run : (s.takeWhile Scan.isAlnum).length = 2 * n)
      (scans : Scans (2 * n) s value) :
      Argument (0x30 :: 0x78 :: s) (LittleEndian.encode n value.toNat) (s.drop (2 * n))
  | long {s high low} (run : (s.takeWhile Scan.isAlnum).length = 16) (first : Scans 8 s high)
      (second : Scans 8 (s.drop 8) low) :
      Argument (0x30 :: 0x78 :: s)
        (LittleEndian.encode 4 low.toNat ++ LittleEndian.encode 4 high.toNat) (s.drop 16)

/-- All arguments up to the end of the string. -/
inductive Arguments : List UInt8 → List UInt8 → Prop where
  | done {buf} (ended : advance buf = .ok none) : Arguments buf []
  | next {buf b piece rest bytes} (found : advance buf = .ok (some b))
      (first : Argument b piece rest) (later : Arguments rest bytes) :
      Arguments buf (piece ++ bytes)

/-! ### No argument denotes more bytes than half its length -/

theorem Quoted.room {buf piece rest : List UInt8} (h : Quoted buf piece rest) :
    2 * piece.length + rest.length ≤ buf.length := by
  induction h with
  | stop => simp
  | colon _ _ _ ih => simp; omega
  | pair _ _ _ _ ih => simp at ih ⊢; omega

theorem Argument.room {buf piece rest : List UInt8} (h : Argument buf piece rest) :
    2 * piece.length + rest.length < buf.length := by
  cases h with
  | quoted pairs => exact Nat.lt_succ_of_le pairs.room
  | @short s n _ _ run _ =>
      have hrun := (List.takeWhile_sublist Scan.isAlnum (l := s)).length_le
      simp
      omega
  | @long s _ _ run _ _ =>
      have hrun := (List.takeWhile_sublist Scan.isAlnum (l := s)).length_le
      simp
      omega

/-- The pointer moves behind a character that is no NUL. -/
theorem advance_length {buf b : List UInt8} (h : advance buf = .ok (some b)) :
    b.length < buf.length := by
  have hdrop (p : UInt8 → Bool) (l : List UInt8) : (l.dropWhile p).length ≤ l.length :=
    (List.dropWhile_sublist p).length_le
  cases buf with
  | nil => simp [advance] at h
  | cons c s =>
      simp only [advance] at h
      split at h
      · simp at h
      · rename_i d tail heq
        obtain ⟨hd, rfl⟩ : d ≠ 0 ∧ _ = b := by simpa using h
        by_cases hspace : Scan.isSpace c
        · rw [List.dropWhile_cons_of_neg (by simp [hspace]), List.dropWhile_cons_of_pos hspace]
          exact Nat.lt_succ_of_le (hdrop _ s)
        · have hc : c ≠ 0 := by
            rintro rfl
            rw [List.dropWhile_cons_of_neg (by simp), List.dropWhile_cons_of_neg hspace] at heq
            exact hd (List.cons.inj heq).1.symm
          rw [List.dropWhile_cons_of_pos (by simp [hc, hspace])]
          exact Nat.lt_succ_of_le ((hdrop _ _).trans (hdrop _ s))

/-! ### What survives of the stores -/

/-- The bytes in front of `dp` are `bytes`. -/
structure Data.Holds (bytes : List UInt8) (data : Data) : Prop where
  dp : data.dp = bytes.length
  front : Memory.slice data.cells 0 bytes.length = bytes

theorem Data.Holds.nil (cells : Int → UInt8) : Holds [] ⟨cells, 0⟩ := ⟨rfl, rfl⟩

/-- Only the front of the four bytes stored becomes part of the data; a later store covers
the rest. -/
theorem Data.Holds.store {bytes : List UInt8} {cells : Int → UInt8} {dp n : Nat}
    (h : Holds bytes ⟨cells, dp⟩) (hn : n ≤ 4) (value : Nat) :
    Holds (bytes ++ LittleEndian.encode n value)
      ⟨Memory.store cells dp (LittleEndian.encode 4 value), dp + n⟩ := by
  have hdp : dp = bytes.length := h.dp
  refine ⟨by simp [hdp], ?_⟩
  have hfront : Memory.slice (Memory.store cells dp (LittleEndian.encode 4 value)) 0 bytes.length =
      bytes := by
    rw [Memory.slice_store_of_disjoint (Or.inl (by omega))]
    exact h.front
  have hback : Memory.slice (Memory.store cells dp (LittleEndian.encode 4 value))
      (0 + (bytes.length : Nat)) n = LittleEndian.encode n value := by
    rw [Int.zero_add, ← hdp, Memory.slice_store_take (by simpa using hn),
      LittleEndian.take_encode hn]
  rw [List.length_append, LittleEndian.length_encode, Memory.slice_add, hfront, hback]

/-- The store of the low half leaves the high half alone. -/
theorem Data.Holds.store_long {bytes : List UInt8} {cells : Int → UInt8} {dp : Nat}
    (h : Holds bytes ⟨cells, dp⟩) (high low : Nat) :
    Holds (bytes ++ (LittleEndian.encode 4 low ++ LittleEndian.encode 4 high))
      ⟨Memory.store (Memory.store cells ((dp + 4 : Nat) : Int) (LittleEndian.encode 4 high)) dp
        (LittleEndian.encode 4 low), dp + 8⟩ := by
  have hdp : dp = bytes.length := h.dp
  have hupper : Holds bytes
      ⟨Memory.store cells ((dp + 4 : Nat) : Int) (LittleEndian.encode 4 high), dp⟩ := by
    refine ⟨hdp, ?_⟩
    rw [Memory.slice_store_of_disjoint (Or.inl (by omega))]
    exact h.front
  have hlower := hupper.store (Nat.le_refl 4) low
  refine ⟨by simp [hdp], ?_⟩
  have hhigh : Memory.slice (Memory.store (Memory.store cells ((dp + 4 : Nat) : Int)
      (LittleEndian.encode 4 high)) dp (LittleEndian.encode 4 low))
      (0 + ((bytes ++ LittleEndian.encode 4 low).length : Nat)) 4 =
      LittleEndian.encode 4 high := by
    have hat : (0 : Int) + ((bytes ++ LittleEndian.encode 4 low).length : Nat) =
        ((dp + 4 : Nat) : Int) := by
      simp [hdp]
    rw [hat, Memory.slice_store_of_disjoint (Or.inr (by simp)), Memory.slice_store (by simp)]
  rw [← List.append_assoc, List.length_append, LittleEndian.length_encode, Memory.slice_add,
    hlower.front, hhigh]

/-! ### The parser computes what the arguments denote -/

section Results

variable {α β : Type}

theorem bind_eq_ok {x : Except Halt α} {f : α → Except Halt β} {b : β} :
    (x >>= f) = .ok b ↔ ∃ a, x = .ok a ∧ f a = .ok b := by
  cases x <;> simp [bind, Except.bind]

theorem failIf_eq_ok {p : Prop} [Decidable p] {message : String} {buffer : List UInt8} {u : Unit} :
    failIf p message buffer = .ok u ↔ ¬ p := by
  by_cases hp : p <;> simp [failIf, hp]

end Results

variable {buffer : List UInt8}

/-- A scan stores four bytes if there are four. -/
theorem scan_eq_ok {line width dp : Nat} {buf : List UInt8} {cells cells' : Int → UInt8} :
    scan buffer line width buf dp cells = .ok cells' ↔ dp + 4 ≤ dataSize ∧
      ∃ value, Scans width buf value ∧
        cells' = Memory.store cells dp (LittleEndian.encode 4 value.toNat) := by
  by_cases hnul : 0 ∈ buf
  · cases hscan : Scan.hex width buf with
    | none => simp [scan, Scans, hscan, hnul]
    | some found =>
        obtain ⟨value, rest⟩ := found
        by_cases hdp : dp + 4 ≤ dataSize
        · simp [scan, Scans, hscan, hnul, hdp, eq_comm]
        · simp [scan, Scans, hscan, hnul, hdp]
  · simp [scan, Scans, hnul]

theorem scan_runs {line width dp : Nat} {buf : List UInt8} {cells : Int → UInt8} {value : UInt32}
    (h : Scans width buf value) (hdp : dp + 4 ≤ dataSize) :
    scan buffer line width buf dp cells =
      .ok (Memory.store cells dp (LittleEndian.encode 4 value.toNat)) :=
  scan_eq_ok.mpr ⟨hdp, value, h, rfl⟩

theorem quoted_holds {buf rest bytes : List UInt8} {data data' : Data}
    (h : quoted buffer buf data = .ok (rest, data')) (hdata : data.Holds bytes) :
    ∃ piece, Quoted buf piece rest ∧ data'.Holds (bytes ++ piece) := by
  induction buf, data using quoted.induct generalizing bytes with
  | case1 data => simp [quoted] at h
  | case2 c s data hends =>
      rw [quoted, if_pos hends] at h
      obtain ⟨rfl, rfl⟩ : c :: s = rest ∧ data = data' := by simpa using h
      exact ⟨[], .stop hends, by rwa [List.append_nil]⟩
  | case3 c s data hinside ih =>
      rw [quoted, if_neg hinside, bind_eq_ok] at h
      obtain ⟨_, _, h⟩ := h
      rw [bind_eq_ok] at h
      obtain ⟨cells, hscan, h⟩ := h
      obtain ⟨_, value, hscans, rfl⟩ := scan_eq_ok.mp hscan
      have hnext := hdata.store (n := 1) (by decide) value.toNat
      match s with
      | [] => cases h
      | [_] => cases h
      | d :: next :: s =>
          obtain ⟨hcolon, hother⟩ :=
            ih (Memory.store data.cells data.dp (LittleEndian.encode 4 value.toNat))
          by_cases hc : next = 0x3a
          · subst hc
            obtain ⟨piece, hpiece, hholds⟩ := hcolon (by simpa using h) hnext
            exact ⟨_, .colon hinside hscans hpiece, by rwa [← List.append_assoc]⟩
          · obtain ⟨piece, hpiece, hholds⟩ := hother (by simpa [hc] using h) hnext
            exact ⟨_, .pair hinside hc hscans hpiece, by rwa [← List.append_assoc]⟩

/-- The data fits as long as it has no more than half of the bytes that are gone. -/
theorem Quoted.runs {buf piece rest bytes : List UInt8} {data : Data} (h : Quoted buf piece rest)
    (hdata : data.Holds bytes) (hroom : 2 * data.dp + buf.length ≤ dataSize) :
    ∃ data', quoted buffer buf data = .ok (rest, data') ∧ data'.Holds (bytes ++ piece) := by
  have hsize : dataSize = 1024 := rfl
  induction h generalizing bytes data with
  | @stop c s ends =>
      refine ⟨data, by rw [quoted, if_pos ends], ?_⟩
      rwa [List.append_nil]
  | @colon c d s value piece rest inside scans _ ih =>
      simp only [List.length_cons] at hroom
      have hnext := hdata.store (n := 1) (by decide) value.toNat
      obtain ⟨data', hrun, hholds⟩ := ih hnext (by dsimp only; omega)
      refine ⟨data', ?_, by rwa [← List.append_assoc]⟩
      rw [quoted, if_neg inside, failIf, if_neg (by omega), scan_runs scans (by omega)]
      exact hrun
  | @pair c d next s value piece rest inside other scans _ ih =>
      simp only [List.length_cons] at hroom ih
      have hnext := hdata.store (n := 1) (by decide) value.toNat
      obtain ⟨data', hrun, hholds⟩ := ih hnext (by dsimp only; omega)
      refine ⟨data', ?_, by rwa [← List.append_assoc]⟩
      rw [quoted, if_neg inside, failIf, if_neg (by omega), scan_runs scans (by omega)]
      simpa [bind, Except.bind, other] using hrun

/-- A string that ends in the buffer is not all letters and digits. -/
theorem Scans.not_all {width : Nat} {buf : List UInt8} {value : UInt32}
    (h : Scans width buf value) : ¬ buf.all Scan.isAlnum = true := by
  intro hall
  exact absurd (List.all_eq_true.mp hall 0 h.1) (by decide)

theorem digits_holds {s rest bytes : List UInt8} {line n : Nat} {data data' : Data}
    (hn : 1 ≤ n ∧ n ≤ 4) (hrun : (s.takeWhile Scan.isAlnum).length = 2 * n)
    (h : digits buffer line n s data = .ok (rest, data')) (hdata : data.Holds bytes) :
    ∃ piece, Argument (0x30 :: 0x78 :: s) piece rest ∧ data'.Holds (bytes ++ piece) := by
  rw [digits, bind_eq_ok] at h
  obtain ⟨cells, hscan, h⟩ := h
  obtain ⟨_, value, hscans, rfl⟩ := scan_eq_ok.mp hscan
  cases h
  exact ⟨_, .short hn hrun hscans, hdata.store hn.2 _⟩

theorem digits16_holds {s rest bytes : List UInt8} {data data' : Data}
    (hrun : (s.takeWhile Scan.isAlnum).length = 16)
    (h : digits16 buffer s data = .ok (rest, data')) (hdata : data.Holds bytes) :
    ∃ piece, Argument (0x30 :: 0x78 :: s) piece rest ∧ data'.Holds (bytes ++ piece) := by
  rw [digits16, bind_eq_ok] at h
  obtain ⟨upper, hfirst, h⟩ := h
  rw [bind_eq_ok] at h
  obtain ⟨lower, hsecond, h⟩ := h
  obtain ⟨_, high, hhigh, rfl⟩ := scan_eq_ok.mp hfirst
  obtain ⟨_, low, hlow, rfl⟩ := scan_eq_ok.mp hsecond
  cases h
  exact ⟨_, .long hrun hhigh hlow, hdata.store_long _ _⟩

theorem literal_holds {buf rest bytes : List UInt8} {data data' : Data}
    (h : literal buffer buf data = .ok (rest, data')) (hdata : data.Holds bytes) :
    ∃ piece, Argument (0x30 :: buf) piece rest ∧ data'.Holds (bytes ++ piece) := by
  cases buf with
  | nil => cases h
  | cons c s =>
      rw [literal, bind_eq_ok] at h
      obtain ⟨_, hx, h⟩ := h
      obtain rfl : c = 0x78 := not_not.mp (failIf_eq_ok.mp hx)
      split at h
      · cases h
      · split at h
        · exact digits_holds (by decide) ‹_› h hdata
        · exact digits_holds (by decide) ‹_› h hdata
        · exact digits_holds (by decide) ‹_› h hdata
        · exact digits_holds (by decide) ‹_› h hdata
        · exact digits16_holds ‹_› h hdata
        · cases h

theorem argument_holds {buf rest bytes : List UInt8} {data data' : Data}
    (h : argument buffer buf data = .ok (rest, data')) (hdata : data.Holds bytes) :
    ∃ piece, Argument buf piece rest ∧ data'.Holds (bytes ++ piece) := by
  unfold argument at h
  split at h
  · cases h
  · obtain ⟨piece, hpiece, hholds⟩ := quoted_holds h hdata
    exact ⟨piece, .quoted hpiece, hholds⟩
  · exact literal_holds h hdata
  · cases h

theorem Argument.runs {buf piece rest bytes : List UInt8} {data : Data}
    (h : Argument buf piece rest) (hdata : data.Holds bytes)
    (hroom : 2 * data.dp + buf.length ≤ dataSize) :
    ∃ data', argument buffer buf data = .ok (rest, data') ∧ data'.Holds (bytes ++ piece) := by
  have hsize : dataSize = 1024 := rfl
  have hlength := h.room
  cases h with
  | quoted pairs => exact pairs.runs hdata (by simp at hroom; omega)
  | @short s n value size run scans =>
      have hdigits (line : Nat) : digits buffer line n s data =
          .ok (s.drop (2 * n),
            ⟨Memory.store data.cells data.dp (LittleEndian.encode 4 value.toNat),
              data.dp + n⟩) := by
        rw [digits, scan_runs scans (by omega)]
        rfl
      refine ⟨_, ?_, hdata.store size.2 value.toNat⟩
      rw [argument, literal, failIf, if_neg (by simp)]
      change (if s.all Scan.isAlnum = true then _ else _) = _
      rw [if_neg scans.not_all, run]
      obtain rfl | rfl | rfl | rfl : n = 1 ∨ n = 2 ∨ n = 3 ∨ n = 4 := by omega
      · exact hdigits 120
      · exact hdigits 126
      · exact hdigits 132
      · exact hdigits 138
  | @long s high low run first second =>
      have hsmall : data.dp + 8 ≤ dataSize := by simp at hroom hlength; omega
      refine ⟨_, ?_, hdata.store_long high.toNat low.toNat⟩
      rw [argument, literal, failIf, if_neg (by simp)]
      change (if s.all Scan.isAlnum = true then _ else _) = _
      rw [if_neg first.not_all, run]
      change digits16 buffer s data = _
      rw [digits16, scan_runs first (by omega)]
      change (scan buffer 149 8 (s.drop 8) data.dp _ >>= _) = _
      rw [scan_runs second (by omega)]
      rfl

theorem arguments_holds {fuel : Nat} {buf bytes : List UInt8} {data data' : Data}
    (h : arguments buffer fuel buf data = .ok data') (hdata : data.Holds bytes) :
    ∃ more, Arguments buf more ∧ data'.Holds (bytes ++ more) := by
  induction fuel generalizing buf bytes data with
  | zero => cases h
  | succ fuel ih =>
      rw [arguments, bind_eq_ok] at h
      obtain ⟨found, hadvance, h⟩ := h
      cases found with
      | none =>
          cases h
          exact ⟨[], .done hadvance, by rwa [List.append_nil]⟩
      | some b =>
          obtain ⟨⟨rest, data₁⟩, hfirst, h⟩ := bind_eq_ok.mp h
          obtain ⟨piece, hpiece, hholds⟩ := argument_holds hfirst hdata
          obtain ⟨more, hmore, hlater⟩ := ih h hholds
          exact ⟨piece ++ more, .next hadvance hpiece hmore, by rwa [← List.append_assoc]⟩

theorem Arguments.runs {buf more bytes : List UInt8} {data : Data} {fuel : Nat}
    (h : Arguments buf more) (hdata : data.Holds bytes)
    (hroom : 2 * data.dp + buf.length ≤ dataSize) (hfuel : buf.length < fuel) :
    ∃ data', arguments buffer fuel buf data = .ok data' ∧ data'.Holds (bytes ++ more) := by
  induction h generalizing bytes data fuel with
  | @done buf ended =>
      obtain ⟨fuel, rfl⟩ := Nat.exists_eq_succ_of_ne_zero (Nat.ne_of_gt (Nat.zero_lt_of_lt hfuel))
      refine ⟨data, ?_, by rwa [List.append_nil]⟩
      rw [arguments, ended]
      rfl
  | @next buf b piece rest more found first _ ih =>
      obtain ⟨fuel, rfl⟩ := Nat.exists_eq_succ_of_ne_zero (Nat.ne_of_gt (Nat.zero_lt_of_lt hfuel))
      have hahead := advance_length found
      have hpiece := first.room
      obtain ⟨data₁, hfirst, hholds⟩ := first.runs hdata (by omega)
      have hdp : data₁.dp = data.dp + piece.length := by
        rw [hholds.dp, hdata.dp, List.length_append]
      obtain ⟨data', hrun, hlater⟩ :=
        ih hholds (by omega) (Nat.lt_of_lt_of_le (by omega) (Nat.le_refl fuel))
      refine ⟨data', ?_, by rwa [← List.append_assoc]⟩
      rw [arguments, found]
      change (argument buffer b data >>= _) = _
      rw [hfirst]
      exact hrun

/-! ### Lines -/

/-- A line sends a command with the opcode and the bytes. -/
structure Denotes (buf : List UInt8) (opcode : UInt32) (bytes : List UInt8) : Prop where
  sends : buf.take 5 = [0x53, 0x65, 0x6e, 0x64, 0x5f]
  arguments : ∃ digits, advance buf = .ok (some (0x30 :: 0x78 :: digits)) ∧
    Scans 4 digits opcode ∧ Arguments (0x30 :: 0x78 :: digits) bytes

theorem scanOpcode_eq_ok {buf : List UInt8} {opcode : UInt32} :
    scanOpcode buffer buf = .ok opcode ↔
      ∃ digits, buf = 0x30 :: 0x78 :: digits ∧ Scans 4 digits opcode := by
  constructor
  · intro h
    unfold scanOpcode at h
    split at h
    · cases h
    · rename_i hnul
      split at h
      · rename_i digits
        split at h
        · rename_i rest hscan
          cases h
          exact ⟨digits, rfl, by simpa using hnul, rest, hscan⟩
        · cases h
      · cases h
  · rintro ⟨digits, rfl, hnul, rest, hscan⟩
    rw [scanOpcode, if_neg (not_not.mpr (by simp [hnul])), hscan]

theorem parseLine_holds {buf : List UInt8} {cells : Int → UInt8} {opcode : UInt32} {data : Data}
    (h : parseLine cells buf buffer = .ok (opcode, data)) :
    ∃ bytes, Denotes buf opcode bytes ∧ data.Holds bytes := by
  rw [parseLine, bind_eq_ok] at h
  obtain ⟨_, hsends, h⟩ := h
  obtain ⟨found, hadvance, h⟩ := bind_eq_ok.mp h
  cases found with
  | none => cases h
  | some b =>
      obtain ⟨opcode', hopcode, h⟩ := bind_eq_ok.mp h
      obtain ⟨data', harguments, h⟩ := bind_eq_ok.mp h
      cases h
      obtain ⟨digits, rfl, hscans⟩ := scanOpcode_eq_ok.mp hopcode
      obtain ⟨bytes, hbytes, hholds⟩ := arguments_holds harguments (.nil cells)
      exact ⟨bytes, ⟨not_not.mp (failIf_eq_ok.mp hsends), digits, hadvance, hscans, hbytes⟩, hholds⟩

theorem Denotes.runs {buf bytes : List UInt8} {opcode : UInt32} (h : Denotes buf opcode bytes)
    (hsize : buf.length ≤ dataSize) (cells : Int → UInt8) :
    ∃ data, parseLine cells buf buffer = .ok (opcode, data) ∧ data.Holds bytes := by
  obtain ⟨digits, hadvance, hscans, hbytes⟩ := h.arguments
  have hahead := advance_length hadvance
  obtain ⟨data, hrun, hholds⟩ := hbytes.runs (.nil cells)
    (by simp at hahead ⊢; omega) (Nat.lt_succ_self _)
  refine ⟨data, ?_, hholds⟩
  have hopcode : scanOpcode buffer (0x30 :: 0x78 :: digits) = .ok opcode :=
    scanOpcode_eq_ok.mpr ⟨digits, rfl, hscans⟩
  rw [parseLine, failIf, if_neg (not_not.mpr h.sends), hadvance]
  change (scanOpcode buffer (0x30 :: 0x78 :: digits) >>= _) = _
  rw [hopcode]
  change (Brfpatch.arguments buffer _ _ _ >>= _) = _
  rw [hrun]
  rfl

/-- The record of a command: its length byte is the number of bytes modulo 256, and only so
many bytes follow. -/
def record (opcode : UInt32) (bytes : List UInt8) : List UInt8 :=
  0x01 :: LittleEndian.encode 2 opcode.toUInt16.toNat ++
    UInt8.ofNat bytes.length :: bytes.take (UInt8.ofNat bytes.length).toNat

theorem processLine_apply (buf : List UInt8) (w : State) : processLine buf buffer w =
    match parseLine (w.stack 0) buf buffer with
    | .ok (opcode, data) => dumpRecord opcode.toUInt16 (UInt8.ofNat data.dp) data.cells
        { w with stack := fun n => w.stack (n + 1) }
    | .error halt => (.error halt, { w with stack := fun n => w.stack (n + 1) }) := by
  cases h : parseLine (w.stack 0) buf buffer <;> simp [processLine, Effect.bind_apply, h]

theorem dumpRecord_holds {opcode : UInt32} {bytes : List UInt8} {data : Data} (w : State)
    (h : data.Holds bytes) : dumpRecord opcode.toUInt16 (UInt8.ofNat data.dp) data.cells w =
      (.ok (), { w with out := w.out ++ record opcode bytes }) := by
  have hle : (UInt8.ofNat bytes.length).toNat ≤ bytes.length := Nat.mod_le _ _
  have hslice : Memory.slice data.cells 0 (UInt8.ofNat bytes.length).toNat =
      bytes.take (UInt8.ofNat bytes.length).toNat := by
    rw [← Memory.take_slice _ _ hle, h.front]
  rw [dumpRecord, Effect.modify_apply, h.dp, hslice, record]
  simp

/-- A line is accepted exactly if it sends a command, and its record is written. -/
theorem processLine_eq_ok {buf : List UInt8} (hsize : buf.length ≤ dataSize) {w t : State} :
    processLine buf buffer w = (.ok (), t) ↔ ∃ opcode bytes, Denotes buf opcode bytes ∧
      t = { w with stack := fun n => w.stack (n + 1), out := w.out ++ record opcode bytes } := by
  rw [processLine_apply]
  constructor
  · intro h
    cases hparse : parseLine (w.stack 0) buf buffer with
    | error halt => simp [hparse] at h
    | ok parsed =>
        obtain ⟨opcode, data⟩ := parsed
        obtain ⟨bytes, hbytes, hholds⟩ := parseLine_holds hparse
        simp only [hparse, dumpRecord_holds _ hholds] at h
        exact ⟨opcode, bytes, hbytes, (Prod.mk.inj h).2.symm⟩
  · rintro ⟨opcode, bytes, hbytes, rfl⟩
    obtain ⟨data, hparse, hholds⟩ :
        ∃ data, parseLine (w.stack 0) buf buffer = .ok (opcode, data) ∧ data.Holds bytes :=
      hbytes.runs hsize _
    simp only [hparse, dumpRecord_holds _ hholds]

end Brfpatch
