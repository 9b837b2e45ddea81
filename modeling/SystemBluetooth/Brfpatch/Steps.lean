import SystemBluetooth.Brfpatch.Safety
import SystemBluetooth.Library.Machine

/-!
# The scanning of a line, step by step

`main` and `process_line` as a machine whose steps are the statements of the source: the
loops of `advance` move by one character, and a scan, a move of `buf` and a move of `dp` are
steps of their own. So a pointer that is wrong for a moment is seen. `dispatch_steps` says
that the steps lead where `dispatch` does.
-/

namespace Brfpatch

open Machine

/-- Statements in a row. A move of `dp` in front of the array is undefined, as is one of
`buf` further than just behind the buffer. -/
inductive Stmt where
  /-- `FAILIF(dp > data + sizeof(data), ..)` -/
  | room
  /-- `FAILIF(sscanf(buf, "%0<width>x", dp) != 1, ..)` -/
  | scan (line width : Nat)
  /-- `buf += n` -/
  | skip (n : Nat)
  /-- `dp += n` and `dp -= n` -/
  | forth (n : Nat)
  | back (n : Nat)
  /-- `if (*buf == ':') buf++` -/
  | colon

def Stmt.exec (buffer : List UInt8) : Stmt → List UInt8 × Data →
    Except Halt (List UInt8 × Data)
  | room, (buf, data) => do
      failIf (data.dp > dataSize) "Too much data: " buffer
      return (buf, data)
  | scan line width, (buf, data) => do
      let cells ← Brfpatch.scan buffer line width buf data.dp data.cells
      return (buf, ⟨cells, data.dp⟩)
  | skip n, (buf, data) => if n ≤ buf.length then .ok (buf.drop n, data) else .error .overrun
  | forth n, (buf, data) => .ok (buf, ⟨data.cells, data.dp + n⟩)
  | back n, (buf, data) =>
      if n ≤ data.dp then .ok (buf, ⟨data.cells, data.dp - n⟩) else .error .overrun
  | colon, ([], _) => .error .overrun
  | colon, (c :: s, data) => .ok (if c = 0x3a then s else c :: s, data)

/-- The body of the loop over a quoted string. -/
def pairBody : List Stmt := [.room, .scan 99 2, .forth 1, .skip 2, .colon]

def digitsBody (line n : Nat) : List Stmt := [.scan line (2 * n), .skip (2 * n), .forth n]

def digits16Body : List Stmt :=
  [.forth 4, .scan 145 8, .skip 8, .back 4, .scan 149 8, .skip 8, .forth 8]

/-- `switch ((unsigned int)end - (unsigned int)buf)` -/
def literalBody : Nat → Option (List Stmt)
  | 2 => some (digitsBody 120 1)
  | 4 => some (digitsBody 126 2)
  | 6 => some (digitsBody 132 3)
  | 8 => some (digitsBody 138 4)
  | 16 => some digits16Body
  | _ => none

/-- The two calls of `advance`. -/
inductive Call where
  | opcode
  | argument

/-- What is to be executed next. -/
inductive Point where
  /-- `while (*buf && isspace(*buf))`, and `switch (*buf)` of `main` -/
  | indent
  | select
  /-- `FAILIF(strncmp(buf, "Send_", 5) != 0, ..)` -/
  | name
  /-- The two loops of `advance`, with the test of what it returns -/
  | word (call : Call)
  | blanks (call : Call)
  /-- `FAILIF(sscanf(buf, "0x%04x\n", &opcode) != 1, ..)` -/
  | opcode
  /-- `switch (*buf)` of `process_line` -/
  | kind
  /-- `while (*buf != '"' && *buf != 0)`, and what is left of its body -/
  | quoted
  | pair (rest : List Stmt)
  /-- `FAILIF(*buf != 'x', ..)`, the length of the literal, and what is left of its case -/
  | marker
  | length
  | literal (rest : List Stmt)
  /-- The line is ignored, or `dump_record` is called. -/
  | skipped
  | sent

/-- The point and the variables of `process_line`. -/
structure Config where
  point : Point
  buf : List UInt8
  data : Data
  opcode : UInt32

/-- Where a call of `advance` goes on. -/
def Call.found : Call → Point
  | opcode => .opcode
  | argument => .kind

def Call.ended (buffer : List UInt8) : Call → Except Halt Point
  | opcode => .error (.failed "Could not find opcode in: " (string buffer))
  | argument => .ok .sent

/-- `*buf` and what follows. -/
def read {α : Type} (buf : List UInt8) (f : UInt8 → List UInt8 → Except Halt α) :
    Except Halt α :=
  match buf with
  | [] => .error .overrun
  | c :: s => f c s

def goto (c : Config) : Except Halt (Option Config) := .ok (some c)

def step (buffer : List UInt8) (c : Config) : Except Halt (Option Config) :=
  match c.point with
  | .indent => read c.buf fun d s =>
      if Scan.isSpace d then goto { c with buf := s } else goto { c with point := .select }
  | .select => read c.buf fun d _ =>
      if d = 0x53 then goto { c with point := .name }
      else if d = 0x57 ∨ d = 0x23 ∨ d = 0 then goto { c with point := .skipped }
      else .error (.failed "Don't know what to do with: " (string buffer))
  | .name => do
      failIf (c.buf.take 5 ≠ [0x53, 0x65, 0x6e, 0x64, 0x5f]) "Not expecting: " buffer
      goto { c with point := .word .opcode }
  | .word call => read c.buf fun d s =>
      if d != 0 && !Scan.isSpace d then goto { c with buf := s }
      else goto { c with point := .blanks call }
  | .blanks call => read c.buf fun d s =>
      if Scan.isSpace d then goto { c with buf := s }
      else if d = 0 then do
        let point ← call.ended buffer
        goto { c with point := point }
      else goto { c with point := call.found }
  | .opcode => do
      let opcode ← scanOpcode buffer c.buf
      goto { c with point := .word .argument, opcode := opcode }
  | .kind => read c.buf fun d s =>
      if d = 0x22 then goto { c with point := .quoted, buf := s }
      else if d = 0x30 then goto { c with point := .marker, buf := s }
      else .error (.failed (errorParsing 158) (string buffer))
  | .quoted => read c.buf fun d _ =>
      if d = 0x22 ∨ d = 0 then goto { c with point := .word .argument }
      else goto { c with point := .pair pairBody }
  | .pair [] => goto { c with point := .quoted }
  | .pair (stmt :: rest) => do
      let (buf, data) ← stmt.exec buffer (c.buf, c.data)
      goto { c with point := .pair rest, buf := buf, data := data }
  | .marker => read c.buf fun d s => do
      failIf (d ≠ 0x78) "Error parsing: " buffer
      goto { c with point := .length, buf := s }
  | .length =>
      if c.buf.all Scan.isAlnum then .error .overrun
      else match literalBody (c.buf.takeWhile Scan.isAlnum).length with
      | some body => goto { c with point := .literal body }
      | none => .error (.failed (errorParsing 154) (string buffer))
  | .literal [] => goto { c with point := .word .argument }
  | .literal (stmt :: rest) => do
      let (buf, data) ← stmt.exec buffer (c.buf, c.data)
      goto { c with point := .literal rest, buf := buf, data := data }
  | .skipped => .ok none
  | .sent => .ok none

/-- At the start of `process_line`. Its variables hold what the stack does. -/
def Config.entry (buf : List UInt8) (cells : Int → UInt8) (opcode : UInt32) : Config :=
  ⟨.name, buf, ⟨cells, 0⟩, opcode⟩

/-- `main` has read a line into the buffer. -/
def Config.start (buffer : List UInt8) (cells : Int → UInt8) (opcode : UInt32) : Config :=
  ⟨.indent, buffer, ⟨cells, 0⟩, opcode⟩

/-! ### What a statement does -/

section Statements

variable {buffer buf : List UInt8} {data : Data} {r : List UInt8 × Data}

theorem exec_room : Stmt.room.exec buffer (buf, data) = .ok r ↔
    data.dp ≤ dataSize ∧ r = (buf, data) := by
  rw [Stmt.exec, bind_eq_ok]
  simp only [failIf_eq_ok, Nat.not_lt]
  constructor
  · rintro ⟨_, hroom, hr⟩
    exact ⟨hroom, (Except.ok.inj hr).symm⟩
  · rintro ⟨hroom, rfl⟩
    exact ⟨(), hroom, rfl⟩

theorem exec_scan {line width : Nat} : (Stmt.scan line width).exec buffer (buf, data) = .ok r ↔
    data.dp + 4 ≤ dataSize ∧ ∃ value, Scans width buf value ∧
      r = (buf,
        ⟨Memory.store data.cells data.dp (LittleEndian.encode 4 value.toNat), data.dp⟩) := by
  rw [Stmt.exec, bind_eq_ok]
  simp only [scan_eq_ok]
  constructor
  · rintro ⟨cells, ⟨hdp, value, hscans, rfl⟩, hr⟩
    exact ⟨hdp, value, hscans, (Except.ok.inj hr).symm⟩
  · rintro ⟨hdp, value, hscans, rfl⟩
    exact ⟨_, ⟨hdp, value, hscans, rfl⟩, rfl⟩

theorem exec_skip {n : Nat} : (Stmt.skip n).exec buffer (buf, data) = .ok r ↔
    n ≤ buf.length ∧ r = (buf.drop n, data) := by
  by_cases hn : n ≤ buf.length
  · simp [Stmt.exec, hn, eq_comm]
  · simp [Stmt.exec, hn]

theorem exec_forth {n : Nat} : (Stmt.forth n).exec buffer (buf, data) = .ok r ↔
    r = (buf, ⟨data.cells, data.dp + n⟩) := by
  simp [Stmt.exec, eq_comm]

theorem exec_back {n : Nat} : (Stmt.back n).exec buffer (buf, data) = .ok r ↔
    n ≤ data.dp ∧ r = (buf, ⟨data.cells, data.dp - n⟩) := by
  by_cases hn : n ≤ data.dp
  · simp [Stmt.exec, hn, eq_comm]
  · simp [Stmt.exec, hn]

theorem exec_colon : Stmt.colon.exec buffer (buf, data) = .ok r ↔
    ∃ c s, buf = c :: s ∧ r = (if c = 0x3a then s else c :: s, data) := by
  cases buf with
  | nil => simp [Stmt.exec]
  | cons c s => simp [Stmt.exec, eq_comm]

/-- No statement moves the pointer back. -/
theorem exec_suffix {stmt : Stmt} (h : stmt.exec buffer (buf, data) = .ok r) : r.1 <:+ buf := by
  cases stmt with
  | room =>
      obtain ⟨_, rfl⟩ := exec_room.mp h
      exact List.suffix_rfl
  | scan line width =>
      obtain ⟨_, value, _, rfl⟩ := exec_scan.mp h
      exact List.suffix_rfl
  | skip n =>
      obtain ⟨_, rfl⟩ := exec_skip.mp h
      exact List.drop_suffix n buf
  | forth n =>
      obtain rfl := exec_forth.mp h
      exact List.suffix_rfl
  | back n =>
      obtain ⟨_, rfl⟩ := exec_back.mp h
      exact List.suffix_rfl
  | colon =>
      obtain ⟨c, s, rfl, rfl⟩ := exec_colon.mp h
      dsimp only
      split
      · exact List.suffix_cons c s
      · exact List.suffix_rfl

end Statements

/-! ### The steps lead where the functions do -/

section Runs

variable {buffer buf : List UInt8} {data : Data} {opcode : UInt32}

/-- What `advance` finds behind a word. -/
def behindWord (buf : List UInt8) : Except Halt (Option (List UInt8)) :=
  read (buf.dropWhile Scan.isSpace) fun c s => .ok (if c = 0 then none else some (c :: s))

theorem advance_eq (buf : List UInt8) :
    advance buf = behindWord (buf.dropWhile fun c => c != 0 && !Scan.isSpace c) := by
  simp only [advance, behindWord]
  cases (buf.dropWhile fun c => c != 0 && !Scan.isSpace c).dropWhile Scan.isSpace <;> rfl

/-- Either the next word begins, or the NUL is ahead. -/
def Advanced (call : Call) (data : Data) (opcode : UInt32) (found : Option (List UInt8))
    (c : Config) : Prop :=
  (∀ b, found = some b → c = ⟨call.found, b, data, opcode⟩) ∧
    (found = none → ∃ s, c = ⟨.blanks call, 0 :: s, data, opcode⟩)

theorem blanks_implements (call : Call) : Implements (step buffer)
    ⟨.blanks call, buf, data, opcode⟩ (behindWord buf) (Advanced call data opcode) := by
  induction buf with
  | nil => exact .stop rfl
  | cons c s ih =>
      by_cases hspace : Scan.isSpace c = true
      · have hsame : behindWord (c :: s) = behindWord s := by
          rw [behindWord, List.dropWhile_cons_of_pos hspace, behindWord]
        rw [hsame]
        refine ih.head ?_
        simp [step, read, goto, hspace]
      · have hfound : behindWord (c :: s) = .ok (if c = 0 then none else some (c :: s)) := by
          rw [behindWord, List.dropWhile_cons_of_neg hspace]
          rfl
        rw [hfound]
        by_cases hc : c = 0
        · subst hc
          rw [if_pos rfl]
          exact .done ⟨by simp, fun _ => ⟨s, rfl⟩⟩
        · rw [if_neg hc]
          refine Implements.head (t := ⟨call.found, c :: s, data, opcode⟩) ?_
            (.done ⟨fun b hb => ?_, by simp⟩)
          · simp [step, read, goto, hspace, hc]
          · rw [← Option.some.inj hb]

theorem word_implements (call : Call) : Implements (step buffer)
    ⟨.word call, buf, data, opcode⟩ (advance buf) (Advanced call data opcode) := by
  rw [advance_eq]
  induction buf with
  | nil => exact .stop rfl
  | cons c s ih =>
      by_cases hword : (c != 0 && !Scan.isSpace c) = true
      · rw [List.dropWhile_cons_of_pos (p := fun c => c != 0 && !Scan.isSpace c) hword]
        refine ih.head ?_
        simp only [step, read, goto, hword, if_true]
      · rw [List.dropWhile_cons_of_neg (p := fun c => c != 0 && !Scan.isSpace c) hword]
        refine (blanks_implements call).head ?_
        simp only [step, read, goto, hword]
        rfl

/-- The statements of a body, one after the other. -/
def run (buffer : List UInt8) (body : List Stmt) (r : List UInt8 × Data) :
    Except Halt (List UInt8 × Data) :=
  body.foldlM (fun r stmt => stmt.exec buffer r) r

theorem run_nil (r : List UInt8 × Data) : run buffer [] r = .ok r := rfl

theorem run_cons (stmt : Stmt) (rest : List Stmt) (r : List UInt8 × Data) :
    run buffer (stmt :: rest) r = stmt.exec buffer r >>= run buffer rest := List.foldlM_cons ..

/-- A body at points that execute it a statement at a time, `p` being the point behind it. -/
theorem run_implements {f : List Stmt → Point} {p : Point}
    (hnil : ∀ r : List UInt8 × Data, step buffer ⟨f [], r.1, r.2, opcode⟩ =
      goto ⟨p, r.1, r.2, opcode⟩)
    (hcons : ∀ stmt rest (r : List UInt8 × Data),
      step buffer ⟨f (stmt :: rest), r.1, r.2, opcode⟩ =
        stmt.exec buffer r >>= fun r => goto ⟨f rest, r.1, r.2, opcode⟩)
    (body : List Stmt) (r : List UInt8 × Data) :
    Implements (step buffer) ⟨f body, r.1, r.2, opcode⟩ (run buffer body r)
      fun r c => c = ⟨p, r.1, r.2, opcode⟩ := by
  induction body generalizing r with
  | nil => exact .head (hnil r) (.done rfl)
  | cons stmt rest ih =>
      rw [run_cons]
      refine Implements.bind (.atomic (hcons stmt rest r)) fun r' c _ hc => ?_
      rw [hc]
      exact ih r'

theorem run_pair_implements (body : List Stmt) (r : List UInt8 × Data) :
    Implements (step buffer) ⟨.pair body, r.1, r.2, opcode⟩ (run buffer body r)
      fun r c => c = ⟨.quoted, r.1, r.2, opcode⟩ :=
  run_implements (fun _ => rfl) (fun _ _ _ => rfl) body r

theorem run_literal_implements (body : List Stmt) (r : List UInt8 × Data) :
    Implements (step buffer) ⟨.literal body, r.1, r.2, opcode⟩ (run buffer body r)
      fun r c => c = ⟨.word .argument, r.1, r.2, opcode⟩ :=
  run_implements (fun _ => rfl) (fun _ _ _ => rfl) body r

theorem ok_bind {ε α β : Type} (a : α) (f : α → Except ε β) : (.ok a >>= f) = f a := rfl

theorem quoted_eq {c : UInt8} (hinside : ¬ (c = 0x22 ∨ c = 0)) (s : List UInt8) :
    quoted buffer (c :: s) data =
      run buffer pairBody (c :: s, data) >>= fun r => quoted buffer r.1 r.2 := by
  rw [quoted, if_neg hinside]
  simp only [pairBody, run_cons, run_nil, Stmt.exec, bind_assoc, pure_bind, ok_bind]
  refine congrArg _ (funext fun _ => congrArg _ (funext fun cells => ?_))
  rcases s with _ | ⟨d, _ | ⟨next, rest⟩⟩
  · rfl
  · rfl
  · by_cases hcolon : next = 0x3a
    · simp [hcolon, ok_bind]
    · simp [hcolon, ok_bind]

theorem run_pairBody_length {r : List UInt8 × Data}
    (h : run buffer pairBody (buf, data) = .ok r) : r.1.length < buf.length := by
  simp only [pairBody, run_cons, bind_eq_ok, run_nil] at h
  obtain ⟨_, hroom, _, hscan, _, hforth, _, hskip, _, hcolon, ⟨⟩⟩ := h
  obtain ⟨_, rfl⟩ := exec_room.mp hroom
  obtain ⟨_, value, _, rfl⟩ := exec_scan.mp hscan
  obtain rfl := exec_forth.mp hforth
  obtain ⟨hlen, rfl⟩ := exec_skip.mp hskip
  have hle := (exec_suffix hcolon).length_le
  rw [List.length_drop] at hle
  omega

theorem quoted_implements : Implements (step buffer) ⟨.quoted, buf, data, opcode⟩
    (quoted buffer buf data) fun r c => c = ⟨.word .argument, r.1, r.2, opcode⟩ := by
  induction hn : buf.length using Nat.strong_induction_on generalizing buf data with
  | _ n ih =>
      cases buf with
      | nil => exact .stop rfl
      | cons c s =>
          by_cases hends : c = 0x22 ∨ c = 0
          · rw [quoted, if_pos hends]
            refine .head ?_ (.done rfl)
            simp [step, read, goto, hends]
          · rw [quoted_eq hends]
            refine Implements.head (t := ⟨.pair pairBody, c :: s, data, opcode⟩) ?_
              ((run_pair_implements pairBody (c :: s, data)).bind fun r t hr ht => ?_)
            · simp only [step, read, goto, if_neg hends]
            · rw [ht]
              exact ih r.1.length (hn ▸ run_pairBody_length hr) rfl

theorem digits_eq {line n : Nat} (hlen : 2 * n ≤ buf.length) :
    digits buffer line n buf data = run buffer (digitsBody line n) (buf, data) := by
  simp only [digits, digitsBody, run_cons, run_nil, Stmt.exec, bind_assoc, pure_bind, if_pos hlen,
    ok_bind]
  rfl

theorem digits16_eq (hlen : 16 ≤ buf.length) :
    digits16 buffer buf data = run buffer digits16Body (buf, data) := by
  have hfirst : 8 ≤ buf.length := by omega
  have hsecond : 8 ≤ (buf.drop 8).length := by
    rw [List.length_drop]
    omega
  have hback : 4 ≤ data.dp + 4 := by omega
  simp only [digits16, digits16Body, run_cons, run_nil, Stmt.exec, bind_assoc, pure_bind,
    if_pos hfirst, if_pos hsecond, if_pos hback, ok_bind, Nat.add_sub_cancel, List.drop_drop]
  rfl

theorem length_implements (hall : ¬ buf.all Scan.isAlnum = true) {body : List Stmt} {x}
    (hbody : literalBody (buf.takeWhile Scan.isAlnum).length = some body)
    (hx : x = run buffer body (buf, data)) : Implements (step buffer)
      ⟨.length, buf, data, opcode⟩ x fun r c => c = ⟨.word .argument, r.1, r.2, opcode⟩ := by
  rw [hx]
  refine Implements.head (t := ⟨.literal body, buf, data, opcode⟩) ?_
    (run_literal_implements body (buf, data))
  simp only [step, if_neg hall, hbody, goto]

theorem literal_implements : Implements (step buffer) ⟨.marker, buf, data, opcode⟩
    (literal buffer buf data) fun r c => c = ⟨.word .argument, r.1, r.2, opcode⟩ := by
  cases buf with
  | nil => exact .stop rfl
  | cons c s =>
      rw [literal]
      refine Implements.bind (.atomic (g := fun _ => ⟨.length, s, data, opcode⟩) rfl)
        fun _ t _ ht => ?_
      rw [ht]
      have hle := (List.takeWhile_sublist Scan.isAlnum (l := s)).length_le
      by_cases hall : s.all Scan.isAlnum = true
      · rw [if_pos hall]
        refine .stop ?_
        simp only [step, if_pos hall]
      · rw [if_neg hall]
        split
        · exact length_implements hall (by simp only [literalBody, *]) (digits_eq (by omega))
        · exact length_implements hall (by simp only [literalBody, *]) (digits_eq (by omega))
        · exact length_implements hall (by simp only [literalBody, *]) (digits_eq (by omega))
        · exact length_implements hall (by simp only [literalBody, *]) (digits_eq (by omega))
        · exact length_implements hall (by simp only [literalBody, *]) (digits16_eq (by omega))
        · refine .stop ?_
          simp only [step, if_neg hall]
          have hnone : literalBody (s.takeWhile Scan.isAlnum).length = none := by
            unfold literalBody
            split <;> simp_all
          rw [hnone]

theorem argument_implements : Implements (step buffer) ⟨.kind, buf, data, opcode⟩
    (argument buffer buf data) fun r c => c = ⟨.word .argument, r.1, r.2, opcode⟩ := by
  unfold argument
  split
  · exact .stop rfl
  · exact quoted_implements.head rfl
  · exact literal_implements.head rfl
  · rename_i hnil hquote hzero
    obtain ⟨c, s, rfl⟩ := List.exists_cons_of_ne_nil hnil
    have hc : c ≠ 0x22 := fun hc => hquote s (by rw [hc])
    have hc' : c ≠ 0x30 := fun hc => hzero s (by rw [hc])
    refine .stop ?_
    simp only [step, read, if_neg hc, if_neg hc']

theorem arguments_implements {fuel : Nat} (hfuel : buf.length < fuel) : Implements (step buffer)
    ⟨.word .argument, buf, data, opcode⟩ (arguments buffer fuel buf data)
      fun data c => c.point = .sent ∧ c.data = data ∧ c.opcode = opcode := by
  induction fuel generalizing buf data with
  | zero => omega
  | succ fuel ih =>
      rw [arguments]
      refine (word_implements .argument).bind fun found c hfound hadvanced => ?_
      obtain ⟨hsome, hnone⟩ := hadvanced
      cases found with
      | none =>
          obtain ⟨s, rfl⟩ := hnone rfl
          exact .head (t := ⟨.sent, 0 :: s, data, opcode⟩) rfl (.done ⟨rfl, rfl, rfl⟩)
      | some b =>
          rw [hsome b rfl]
          have hahead := advance_length hfound
          refine argument_implements.bind fun r c hr hc => ?_
          rw [hc]
          have hshort := argument_length hr
          exact ih (by omega)

theorem parseLine_implements (cells : Int → UInt8) :
    Implements (step buffer) (.entry buf cells opcode) (parseLine cells buf buffer)
      fun r c => c.point = .sent ∧ c.data = r.2 ∧ c.opcode = r.1 := by
  rw [parseLine]
  refine Implements.bind (.atomic (g := fun _ => ⟨.word .opcode, buf, ⟨cells, 0⟩, opcode⟩) rfl)
    fun _ c _ hc => ?_
  rw [hc]
  refine (word_implements .opcode).bind fun found c _ hadvanced => ?_
  obtain ⟨hsome, hnone⟩ := hadvanced
  cases found with
  | none =>
      obtain ⟨s, rfl⟩ := hnone rfl
      exact .stop rfl
  | some b =>
      rw [hsome b rfl]
      refine Implements.bind (.atomic (g := fun opcode => ⟨.word .argument, b, ⟨cells, 0⟩, opcode⟩)
        rfl) fun opcode c _ hc => ?_
      rw [hc]
      refine (arguments_implements (Nat.lt_succ_self _)).bind fun data c _ hc => ?_
      exact .done hc

/-- Behind the white space at the start of the line. -/
theorem indent_implements {α : Type} {x : Except Halt α} {P : α → Config → Prop}
    (hnone : buf.dropWhile Scan.isSpace = [] → x = .error .overrun)
    (hsome : buf.dropWhile Scan.isSpace ≠ [] → Implements (step buffer)
      ⟨.select, buf.dropWhile Scan.isSpace, data, opcode⟩ x P) :
    Implements (step buffer) ⟨.indent, buf, data, opcode⟩ x P := by
  induction buf with
  | nil =>
      rw [hnone rfl]
      exact .stop rfl
  | cons c s ih =>
      by_cases hspace : Scan.isSpace c = true
      · rw [List.dropWhile_cons_of_pos hspace] at hnone hsome
        refine (ih hnone hsome).head ?_
        simp only [step, read, goto, if_pos hspace]
      · rw [List.dropWhile_cons_of_neg hspace] at hsome
        refine (hsome (List.cons_ne_nil c s)).head ?_
        simp only [step, read, goto, if_neg hspace]

/-- The steps of a line lead where `dispatch` does: the line is ignored and nothing changes,
or the record is written whose data the steps have collected, or both stop alike. -/
theorem dispatch_steps (buffer : List UInt8) (opcode : UInt32) (w : State) :
    Implements (step buffer) (.start buffer (w.stack 0) opcode) (dispatch buffer w).1 fun _ c =>
      (c.point = .skipped ∧ (dispatch buffer w).2 = w) ∨
        (c.point = .sent ∧ dispatch buffer w =
          dumpRecord c.opcode.toUInt16 (UInt8.ofNat c.data.dp) c.data.cells
            { w with stack := fun n => w.stack (n + 1) }) := by
  refine indent_implements (fun hnone => ?_) fun hsome => ?_
  · simp only [dispatch, hnone, Effect.stop_apply]
  · obtain ⟨c, s, hs⟩ := List.exists_cons_of_ne_nil hsome
    rw [hs]
    by_cases hsend : c = 0x53
    · subst hsend
      have hline : dispatch buffer = processLine (0x53 :: s) buffer := by
        simp only [dispatch, hs]
      have hresult : (dispatch buffer w).1 = parseLine (w.stack 0) (0x53 :: s) buffer >>=
          fun _ => .ok () := by
        rw [hline, processLine_apply]
        cases parseLine (w.stack 0) (0x53 :: s) buffer with
        | error halt => rfl
        | ok parsed => rfl
      rw [hresult]
      refine ((parseLine_implements (w.stack 0)).bind fun r t hr ht => .done (Or.inr ?_)).head rfl
      obtain ⟨hpoint, hdata, hopcode⟩ := ht
      rw [hline, processLine_apply, hr, hdata, hopcode]
      exact ⟨hpoint, rfl⟩
    · by_cases hskip : c = 0x57 ∨ c = 0x23 ∨ c = 0
      · have hline : dispatch buffer = pure () := by
          obtain rfl | rfl | rfl := hskip <;> simp only [dispatch, hs]
        rw [hline]
        refine Implements.head (t := ⟨.skipped, c :: s, ⟨w.stack 0, 0⟩, opcode⟩) ?_
          (.done (Or.inl ⟨rfl, rfl⟩))
        simp only [step, read, goto, if_neg hsend, if_pos hskip]
      · have hline : dispatch buffer =
            Effect.stop (.failed "Don't know what to do with: " (string buffer)) := by
          simp only [not_or] at hskip
          unfold dispatch
          split <;> simp_all
        rw [hline]
        refine .stop ?_
        simp only [step, read, if_neg hsend, if_neg hskip]

end Runs

end Brfpatch
