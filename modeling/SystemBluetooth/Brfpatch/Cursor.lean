import Mathlib.Data.List.Infix
import SystemBluetooth.Brfpatch.Grammar
import SystemBluetooth.Brfpatch.Steps

/-!
# Where the pointers are

What every state of a line's scanning has in common, at each single step: the payload is
never longer than half of what has been read, so no store leaves the array, whatever the
check for too much data would admit; and `buf` stays in front of the NUL or at it, except
behind a lone digit at the end of a quoted string, which the loop takes for a pair.
-/

namespace Brfpatch

open Machine

/-! ### What a step can do -/

/-- All steps of a line's scanning. -/
inductive Moves (buffer : List UInt8) : Config → Config → Prop where
  | indent {d s data o} (space : Scan.isSpace d = true) :
      Moves buffer ⟨.indent, d :: s, data, o⟩ ⟨.indent, s, data, o⟩
  | select {buf data o} : Moves buffer ⟨.indent, buf, data, o⟩ ⟨.select, buf, data, o⟩
  | send {buf data o} : Moves buffer ⟨.select, buf, data, o⟩ ⟨.name, buf, data, o⟩
  | skip {buf data o} : Moves buffer ⟨.select, buf, data, o⟩ ⟨.skipped, buf, data, o⟩
  | name {buf data o} (sends : buf.take 5 = [0x53, 0x65, 0x6e, 0x64, 0x5f]) :
      Moves buffer ⟨.name, buf, data, o⟩ ⟨.word .opcode, buf, data, o⟩
  | word {call d s data o} (nul : d ≠ 0) :
      Moves buffer ⟨.word call, d :: s, data, o⟩ ⟨.word call, s, data, o⟩
  | boundary {call d s data o} (ends : Scan.isSpace d = true ∨ d = 0) :
      Moves buffer ⟨.word call, d :: s, data, o⟩ ⟨.blanks call, d :: s, data, o⟩
  | blank {call d s data o} (space : Scan.isSpace d = true) :
      Moves buffer ⟨.blanks call, d :: s, data, o⟩ ⟨.blanks call, s, data, o⟩
  | found {call d s data o} (black : Scan.isSpace d = false) (nul : d ≠ 0) :
      Moves buffer ⟨.blanks call, d :: s, data, o⟩ ⟨call.found, d :: s, data, o⟩
  | ended {s data o} :
      Moves buffer ⟨.blanks .argument, 0 :: s, data, o⟩ ⟨.sent, 0 :: s, data, o⟩
  | opcode {buf data o value} :
      Moves buffer ⟨.opcode, buf, data, o⟩ ⟨.word .argument, buf, data, value⟩
  | quote {s data o} : Moves buffer ⟨.kind, 0x22 :: s, data, o⟩ ⟨.quoted, s, data, o⟩
  | zero {s data o} : Moves buffer ⟨.kind, 0x30 :: s, data, o⟩ ⟨.marker, s, data, o⟩
  | closed {buf data o} : Moves buffer ⟨.quoted, buf, data, o⟩ ⟨.word .argument, buf, data, o⟩
  | inside {d s data o} (nul : d ≠ 0) :
      Moves buffer ⟨.quoted, d :: s, data, o⟩ ⟨.pair pairBody, d :: s, data, o⟩
  | pairs {buf data o} : Moves buffer ⟨.pair [], buf, data, o⟩ ⟨.quoted, buf, data, o⟩
  | pair {stmt rest buf data buf' data' o}
      (exec : stmt.exec buffer (buf, data) = .ok (buf', data')) :
      Moves buffer ⟨.pair (stmt :: rest), buf, data, o⟩ ⟨.pair rest, buf', data', o⟩
  | marker {s data o} : Moves buffer ⟨.marker, 0x78 :: s, data, o⟩ ⟨.length, s, data, o⟩
  | length {buf body data o}
      (size : literalBody (buf.takeWhile Scan.isAlnum).length = some body) :
      Moves buffer ⟨.length, buf, data, o⟩ ⟨.literal body, buf, data, o⟩
  | literals {buf data o} :
      Moves buffer ⟨.literal [], buf, data, o⟩ ⟨.word .argument, buf, data, o⟩
  | literal {stmt rest buf data buf' data' o}
      (exec : stmt.exec buffer (buf, data) = .ok (buf', data')) :
      Moves buffer ⟨.literal (stmt :: rest), buf, data, o⟩ ⟨.literal rest, buf', data', o⟩

/-- A character is read, or the buffer has come to its end. -/
theorem read_eq_ok {α : Type} {buf : List UInt8} {f : UInt8 → List UInt8 → Except Halt α} {a : α} :
    read buf f = .ok a ↔ ∃ c s, buf = c :: s ∧ f c s = .ok a := by
  cases buf <;> simp [read]

theorem goto_eq_ok {c c' : Config} : goto c = .ok (some c') ↔ c = c' := by
  simp [goto]

theorem ite_goto {p : Prop} [Decidable p] {c c' : Config} {x : Except Halt (Option Config)} :
    (if p then goto c else x) = .ok (some c') ↔ p ∧ c = c' ∨ ¬ p ∧ x = .ok (some c') := by
  by_cases hp : p <;> simp [hp, goto]

theorem step_moves {buffer : List UInt8} {c c' : Config} (h : step buffer c = .ok (some c')) :
    Moves buffer c c' := by
  obtain ⟨point, buf, data, o⟩ := c
  cases point with
  | indent =>
      obtain ⟨d, s, rfl, h⟩ := read_eq_ok.mp h
      obtain ⟨hspace, rfl⟩ | ⟨_, h⟩ := ite_goto.mp h
      · exact .indent hspace
      · obtain rfl := goto_eq_ok.mp h
        exact .select
  | select =>
      obtain ⟨d, s, rfl, h⟩ := read_eq_ok.mp h
      obtain ⟨_, rfl⟩ | ⟨_, h⟩ := ite_goto.mp h
      · exact .send
      · obtain ⟨_, rfl⟩ | ⟨_, h⟩ := ite_goto.mp h
        · exact .skip
        · cases h
  | name =>
      obtain ⟨_, hsends, h⟩ := bind_eq_ok.mp h
      obtain rfl := goto_eq_ok.mp h
      exact .name (not_not.mp (failIf_eq_ok.mp hsends))
  | word call =>
      obtain ⟨d, s, rfl, h⟩ := read_eq_ok.mp h
      obtain ⟨hword, rfl⟩ | ⟨hends, h⟩ := ite_goto.mp h
      · exact .word (by rintro rfl; cases hword)
      · obtain rfl := goto_eq_ok.mp h
        by_cases hnul : d = 0
        · exact .boundary (Or.inr hnul)
        · exact .boundary (Or.inl (by simpa [hnul] using hends))
  | blanks call =>
      obtain ⟨d, s, rfl, h⟩ := read_eq_ok.mp h
      obtain ⟨hspace, rfl⟩ | ⟨hblack, h⟩ := ite_goto.mp h
      · exact .blank hspace
      · split at h
        · rename_i hnul
          obtain ⟨point, hended, h⟩ := bind_eq_ok.mp h
          obtain rfl := goto_eq_ok.mp h
          subst hnul
          cases call with
          | opcode => cases hended
          | argument =>
              obtain rfl := Except.ok.inj hended
              exact .ended
        · rename_i hnul
          obtain rfl := goto_eq_ok.mp h
          exact .found (by simpa using hblack) hnul
  | opcode =>
      obtain ⟨value, _, h⟩ := bind_eq_ok.mp h
      obtain rfl := goto_eq_ok.mp h
      exact .opcode
  | kind =>
      obtain ⟨d, s, rfl, h⟩ := read_eq_ok.mp h
      obtain ⟨rfl, rfl⟩ | ⟨_, h⟩ := ite_goto.mp h
      · exact .quote
      · obtain ⟨rfl, rfl⟩ | ⟨_, h⟩ := ite_goto.mp h
        · exact .zero
        · cases h
  | quoted =>
      obtain ⟨d, s, rfl, h⟩ := read_eq_ok.mp h
      obtain ⟨_, rfl⟩ | ⟨hinside, h⟩ := ite_goto.mp h
      · exact .closed
      · obtain rfl := goto_eq_ok.mp h
        exact .inside fun hnul => hinside (Or.inr hnul)
  | pair body =>
      cases body with
      | nil =>
          obtain rfl := goto_eq_ok.mp h
          exact .pairs
      | cons stmt rest =>
          obtain ⟨r, hexec, h⟩ := bind_eq_ok.mp h
          obtain rfl := goto_eq_ok.mp h
          exact .pair hexec
  | marker =>
      obtain ⟨d, s, rfl, h⟩ := read_eq_ok.mp h
      obtain ⟨_, hx, h⟩ := bind_eq_ok.mp h
      obtain rfl := goto_eq_ok.mp h
      obtain rfl : d = 0x78 := not_not.mp (failIf_eq_ok.mp hx)
      exact .marker
  | length =>
      simp only [step] at h
      split at h
      · cases h
      · split at h
        · obtain rfl := goto_eq_ok.mp h
          exact .length ‹_›
        · cases h
  | literal body =>
      cases body with
      | nil =>
          obtain rfl := goto_eq_ok.mp h
          exact .literals
      | cons stmt rest =>
          obtain ⟨r, hexec, h⟩ := bind_eq_ok.mp h
          obtain rfl := goto_eq_ok.mp h
          exact .literal hexec
  | skipped => cases h
  | sent => cases h

variable {buffer : List UInt8}

/-- `buf` is never moved back. -/
theorem Moves.suffix {c c' : Config} (h : Moves buffer c c') : c'.buf <:+ c.buf := by
  cases h with
  | indent => exact List.suffix_cons _ _
  | word => exact List.suffix_cons _ _
  | blank => exact List.suffix_cons _ _
  | quote => exact List.suffix_cons _ _
  | zero => exact List.suffix_cons _ _
  | marker => exact List.suffix_cons _ _
  | pair exec => exact exec_suffix exec
  | literal exec => exact exec_suffix exec
  | _ => exact List.suffix_rfl

theorem reaches_suffix {c c' : Config} (h : Reaches (step buffer) c c') : c'.buf <:+ c.buf :=
  h.invariant List.suffix_rfl fun _ _ _ hsuffix hstep => (step_moves hstep).suffix.trans hsuffix

/-- `P` holds before each statement of a body, and `Q` behind the last one. -/
def Through (buffer : List UInt8) (P Q : List UInt8 × Data → Prop) :
    List Stmt → List UInt8 × Data → Prop
  | [], r => Q r
  | stmt :: rest, r => P r ∧ ∀ r', stmt.exec buffer r = .ok r' → Through buffer P Q rest r'

namespace Through

variable {P Q : List UInt8 × Data → Prop} {rest : List Stmt} {buf : List UInt8} {data : Data}

theorem before (hQ : ∀ r, Q r → P r) {body : List Stmt} {r : List UInt8 × Data}
    (h : Through buffer P Q body r) : P r := by
  cases body with
  | nil => exact hQ r h
  | cons stmt rest => exact h.1

theorem nil {r : List UInt8 × Data} (h : Q r) : Through buffer P Q [] r := h

theorem room (hP : P (buf, data)) (h : Through buffer P Q rest (buf, data)) :
    Through buffer P Q (.room :: rest) (buf, data) := by
  refine ⟨hP, fun r hexec => ?_⟩
  obtain ⟨_, rfl⟩ := exec_room.mp hexec
  exact h

theorem scan {line width : Nat} (hP : P (buf, data)) (h : ∀ value cells, Scans width buf value →
      Through buffer P Q rest (buf, ⟨cells, data.dp⟩)) :
    Through buffer P Q (.scan line width :: rest) (buf, data) := by
  refine ⟨hP, fun r hexec => ?_⟩
  obtain ⟨_, value, hscans, rfl⟩ := exec_scan.mp hexec
  exact h value _ hscans

theorem skip {n : Nat} (hP : P (buf, data))
    (h : n ≤ buf.length → Through buffer P Q rest (buf.drop n, data)) :
    Through buffer P Q (.skip n :: rest) (buf, data) := by
  refine ⟨hP, fun r hexec => ?_⟩
  obtain ⟨hn, rfl⟩ := exec_skip.mp hexec
  exact h hn

theorem forth {n : Nat} (hP : P (buf, data))
    (h : Through buffer P Q rest (buf, ⟨data.cells, data.dp + n⟩)) :
    Through buffer P Q (.forth n :: rest) (buf, data) := by
  refine ⟨hP, fun r hexec => ?_⟩
  obtain rfl := exec_forth.mp hexec
  exact h

theorem back {n : Nat} (hP : P (buf, data))
    (h : n ≤ data.dp → Through buffer P Q rest (buf, ⟨data.cells, data.dp - n⟩)) :
    Through buffer P Q (.back n :: rest) (buf, data) := by
  refine ⟨hP, fun r hexec => ?_⟩
  obtain ⟨hn, rfl⟩ := exec_back.mp hexec
  exact h hn

theorem colon (hP : P (buf, data)) (h : ∀ c s, buf = c :: s →
      Through buffer P Q rest (if c = 0x3a then s else c :: s, data)) :
    Through buffer P Q (.colon :: rest) (buf, data) := by
  refine ⟨hP, fun r hexec => ?_⟩
  obtain ⟨c, s, hbuf, rfl⟩ := exec_colon.mp hexec
  exact h c s hbuf

end Through

/-! ### The payload and the characters read -/

/-- Of `total` characters, at least `ahead` more are gone than twice the bytes collected. -/
def Leads (total ahead : Nat) (r : List UInt8 × Data) : Prop :=
  r.1.length + 2 * r.2.dp + ahead ≤ total

section Leads

variable {total : Nat} {buf : List UInt8} {data : Data}

theorem Leads.mono {a b : Nat} {r : List UInt8 × Data} (h : Leads total b r) (hle : a ≤ b) :
    Leads total a r := by
  unfold Leads at h ⊢
  omega

/-- A pair is two characters and one byte; `dp` moves before `buf` does. -/
theorem pairBody_leads (h : Leads total 7 (buf, data)) :
    Through buffer (Leads total 0) (Leads total 7) pairBody (buf, data) := by
  simp only [Leads] at h
  refine .room ?_ (.scan ?_ fun _ cells _ => .forth ?_ (.skip ?_ fun hlen =>
    .colon ?_ fun c s hdrop => .nil ?_))
  · simp only [Leads]
    omega
  · simp only [Leads]
    omega
  · simp only [Leads]
    omega
  · simp only [Leads]
    omega
  · simp only [Leads, List.length_drop]
    omega
  · have hlength := congrArg List.length hdrop
    simp only [List.length_drop, List.length_cons] at hlength
    simp only [Leads]
    split
    · omega
    · rw [List.length_cons]
      omega

/-- A literal of `n` bytes has twice as many digits. -/
theorem digitsBody_leads {line n : Nat} (h : Leads total 8 (buf, data)) :
    Through buffer (Leads total 0) (Leads total 6) (digitsBody line n) (buf, data) := by
  simp only [Leads] at h
  refine .scan ?_ fun _ cells _ => .skip ?_ fun hlen => .forth ?_ (.nil ?_)
  · simp only [Leads]
    omega
  · simp only [Leads]
    omega
  · simp only [Leads, List.length_drop]
    omega
  · simp only [Leads, List.length_drop]
    omega

/-- The move of `dp` to the high half runs four bytes ahead: this takes all eight characters
that have been read more. -/
theorem digits16Body_leads (h : Leads total 8 (buf, data)) :
    Through buffer (Leads total 0) (Leads total 6) digits16Body (buf, data) := by
  simp only [Leads] at h
  refine .forth ?_ (.scan ?_ fun _ upper _ => .skip ?_ fun hfirst => .back ?_ fun hback =>
    .scan ?_ fun _ lower _ => .skip ?_ fun hsecond => ?_)
  all_goals try
    simp only [Leads, List.length_drop]
    omega
  rw [List.length_drop] at hsecond
  refine .forth ?_ (.nil ?_)
  · simp only [Leads, List.length_drop]
    omega
  · simp only [Leads, List.length_drop]
    omega

theorem literalBody_leads {n : Nat} {body : List Stmt} (hbody : literalBody n = some body)
    (h : Leads total 8 (buf, data)) :
    Through buffer (Leads total 0) (Leads total 6) body (buf, data) := by
  unfold literalBody at hbody
  split at hbody
  · exact Option.some.inj hbody ▸ digitsBody_leads h
  · exact Option.some.inj hbody ▸ digitsBody_leads h
  · exact Option.some.inj hbody ▸ digitsBody_leads h
  · exact Option.some.inj hbody ▸ digitsBody_leads h
  · exact Option.some.inj hbody ▸ digits16Body_leads h
  · cases hbody

/-- The letters `Send_`. -/
def letters : List UInt8 := [0x53, 0x65, 0x6e, 0x64, 0x5f]

/-- The letters that have not been read are still ahead. -/
def Named (total : Nat) (buf : List UInt8) : Prop :=
  ∃ k, buf.length + k ≤ total ∧ letters.drop k <+: buf

/-- How far the payload is behind, at each point. -/
def Paced (buffer : List UInt8) (total : Nat) (c : Config) : Prop :=
  match c.point with
  | .indent | .select | .name | .skipped => c.buf.length ≤ total ∧ c.data.dp = 0
  | .word .opcode => Named total c.buf ∧ c.data.dp = 0
  | .blanks .opcode => c.data.dp = 0 ∧ c.buf.length + 5 ≤ total ∧
      (c.buf.length + 6 ≤ total ∨ ∃ d s, c.buf = d :: s ∧ (Scan.isSpace d = true ∨ d = 0))
  | .opcode | .word .argument | .blanks .argument | .kind | .sent =>
      Leads total 6 (c.buf, c.data)
  | .quoted | .marker => Leads total 7 (c.buf, c.data)
  | .length => Leads total 8 (c.buf, c.data)
  | .pair body => Through buffer (Leads total 0) (Leads total 7) body (c.buf, c.data)
  | .literal body => Through buffer (Leads total 0) (Leads total 6) body (c.buf, c.data)

theorem Named.word {d : UInt8} {s : List UInt8} (h : Named total (d :: s)) : Named total s := by
  obtain ⟨k, hlen, hname⟩ := h
  rw [List.length_cons] at hlen
  refine ⟨k + 1, by omega, ?_⟩
  rw [← List.drop_drop]
  exact hname.drop 1

/-- A word that begins with the five letters does not end before them. -/
theorem Named.boundary {d : UInt8} {s : List UInt8} (h : Named total (d :: s))
    (ends : Scan.isSpace d = true ∨ d = 0) : (d :: s).length + 5 ≤ total := by
  obtain ⟨k, hlen, hname⟩ := h
  by_cases hk : 5 ≤ k
  · omega
  · cases hdrop : letters.drop k with
    | nil =>
        have hnone := List.drop_eq_nil_iff.mp hdrop
        exact absurd hnone hk
    | cons c t =>
        rw [hdrop, List.cons_prefix_cons] at hname
        have hmem : c ∈ letters :=
          List.mem_of_mem_drop (hdrop ▸ List.mem_cons_self)
        obtain ⟨hnul, hspace⟩ := send_word c hmem
        rw [← hname.1, hspace] at ends
        exact absurd ends (by simp [hnul])

theorem Paced.leads {c : Config} (h : Paced buffer total c) : Leads total 0 (c.buf, c.data) := by
  obtain ⟨point, buf, data, o⟩ := c
  have hfree (hlen : buf.length ≤ total) (hdp : data.dp = 0) : Leads total 0 (buf, data) := by
    simp only [Leads]
    omega
  cases point with
  | indent => exact hfree h.1 h.2
  | select => exact hfree h.1 h.2
  | name => exact hfree h.1 h.2
  | skipped => exact hfree h.1 h.2
  | word call =>
      cases call with
      | opcode =>
          obtain ⟨⟨k, hlen, _⟩, hdp⟩ := h
          exact hfree (Nat.le_of_add_right_le hlen) hdp
      | argument => exact Leads.mono h (Nat.zero_le 6)
  | blanks call =>
      cases call with
      | opcode => exact hfree (Nat.le_of_add_right_le h.2.1) h.1
      | argument => exact Leads.mono h (Nat.zero_le 6)
  | opcode => exact Leads.mono h (Nat.zero_le 6)
  | kind => exact Leads.mono h (Nat.zero_le 6)
  | sent => exact Leads.mono h (Nat.zero_le 6)
  | quoted => exact Leads.mono h (Nat.zero_le 7)
  | marker => exact Leads.mono h (Nat.zero_le 7)
  | length => exact Leads.mono h (Nat.zero_le 8)
  | pair body => exact Through.before (fun r hr => hr.mono (Nat.zero_le 7)) h
  | literal body => exact Through.before (fun r hr => hr.mono (Nat.zero_le 6)) h

/-- One character is read, so the payload falls one further behind. -/
theorem Leads.read {ahead : Nat} {d : UInt8} {s : List UInt8}
    (h : Leads total ahead (d :: s, data)) : Leads total (ahead + 1) (s, data) := by
  simp only [Leads, List.length_cons] at h ⊢
  omega

theorem Paced.move {c c' : Config} (h : Paced buffer total c) (hmove : Moves buffer c c') :
    Paced buffer total c' := by
  cases hmove with
  | indent =>
      obtain ⟨hlen, hdp⟩ := h
      exact ⟨Nat.le_of_succ_le hlen, hdp⟩
  | select => exact h
  | send => exact h
  | skip => exact h
  | name sends =>
      obtain ⟨hlen, hdp⟩ := h
      refine ⟨⟨0, hlen, ?_⟩, hdp⟩
      rw [List.drop_zero, letters, ← sends]
      exact List.take_prefix ..
  | @word call d s data o nul =>
      cases call with
      | opcode => exact ⟨h.1.word, h.2⟩
      | argument => exact (Leads.read h).mono (by decide)
  | @boundary call d s data o ends =>
      cases call with
      | opcode => exact ⟨h.2, h.1.boundary ends, Or.inr ⟨d, s, rfl, ends⟩⟩
      | argument => exact h
  | @blank call d s data o space =>
      cases call with
      | opcode =>
          obtain ⟨hdp, hlen, _⟩ := h
          simp only [List.length_cons] at hlen
          exact ⟨hdp, by dsimp only; omega, Or.inl (by dsimp only; omega)⟩
      | argument => exact (Leads.read h).mono (by decide)
  | @found call d s data o black nul =>
      cases call with
      | opcode =>
          obtain ⟨hdp, hlen, hfar | ⟨e, t, heq, ends⟩⟩ := h
          · simp only at hdp hfar
            change Leads total 6 _
            simp only [Leads]
            omega
          · obtain ⟨rfl, rfl⟩ := List.cons.inj heq
            rw [black] at ends
            exact absurd ends (by simp [nul])
      | argument => exact h
  | ended => exact h
  | opcode => exact h
  | quote => exact Leads.read h
  | zero => exact Leads.read h
  | closed => exact Leads.mono h (by decide)
  | inside => exact pairBody_leads h
  | pairs => exact h
  | pair exec => exact h.2 _ exec
  | marker => exact Leads.read h
  | length size => exact literalBody_leads size h
  | literals => exact h
  | literal exec => exact h.2 _ exec

theorem paced_reaches {c c' : Config} (hreach : Reaches (step buffer) c c')
    (h : Paced buffer total c) : Paced buffer total c' :=
  hreach.invariant h fun _ _ _ hpaced hstep => hpaced.move (step_moves hstep)

end Leads

/-- Where in the array the next step stores four bytes, if it does. -/
def Config.stores (c : Config) : Option Nat :=
  match c.point with
  | .pair (.scan _ _ :: _) | .literal (.scan _ _ :: _) => some c.data.dp
  | _ => none

/-- At each step of `process_line` on a text that is followed by its NUL, the payload has at
most one byte for two characters read. So as long as `buf` is not behind the NUL, whatever is
stored lies in the array. -/
theorem processLine_stores (buffer text behind : List UInt8) (hshort : text.length ≤ 1023)
    (cells : Int → UInt8) (opcode : UInt32) {c : Config}
    (hreach : Reaches (step buffer) (.entry (text ++ 0 :: behind) cells opcode) c) :
    ∃ gone, text ++ 0 :: behind = gone ++ c.buf ∧ 2 * c.data.dp ≤ gone.length ∧
      (gone.length ≤ text.length → ∀ offset, c.stores = some offset → offset + 4 ≤ dataSize) := by
  have hsize : dataSize = 1024 := rfl
  obtain ⟨gone, hgone⟩ := reaches_suffix hreach
  have hentry : Paced buffer (text ++ 0 :: behind).length
      (.entry (text ++ 0 :: behind) cells opcode) := ⟨Nat.le_refl _, rfl⟩
  have hleads : c.buf.length + 2 * c.data.dp + 0 ≤ (text ++ 0 :: behind).length :=
    (paced_reaches hreach hentry).leads
  have htotal : (text ++ 0 :: behind).length = gone.length + c.buf.length := by
    rw [← List.length_append, hgone]
    rfl
  have hhalf : 2 * c.data.dp ≤ gone.length := by omega
  refine ⟨gone, hgone.symm, hhalf, fun hwithin offset hstores => ?_⟩
  have hoffset : c.data.dp = offset := by
    unfold Config.stores at hstores
    split at hstores
    · exact Option.some.inj hstores
    · exact Option.some.inj hstores
    · cases hstores
  omega

/-- A literal of sixteen digits, at the store of its high half: four bytes are ahead with
twelve characters gone. -/
theorem processLine_stores_long : ∃ c : Config, c.stores = some 4 ∧
    ∃ gone, [0x53, 0x65, 0x6e, 0x64, 0x5f, 0x20, 0x30, 0x78, 0x30, 0x20, 0x30, 0x78, 0x30, 0x31,
        0x32, 0x33, 0x34, 0x35, 0x36, 0x37, 0x38, 0x39, 0x61, 0x62, 0x63, 0x64, 0x65, 0x66] ++
        0 :: [] = gone ++ c.buf ∧ 2 * c.data.dp ≤ gone.length ∧
      (gone.length ≤ 28 → ∀ offset, c.stores = some offset → offset + 4 ≤ dataSize) := by
  have hreach : Reaches (step []) (.entry ([0x53, 0x65, 0x6e, 0x64, 0x5f, 0x20, 0x30, 0x78, 0x30,
        0x20, 0x30, 0x78, 0x30, 0x31, 0x32, 0x33, 0x34, 0x35, 0x36, 0x37, 0x38, 0x39, 0x61, 0x62,
        0x63, 0x64, 0x65, 0x66] ++ 0 :: []) (fun _ => 0) 0)
      ⟨.literal (digits16Body.drop 1), [0x30, 0x31, 0x32, 0x33, 0x34, 0x35, 0x36, 0x37, 0x38,
        0x39, 0x61, 0x62, 0x63, 0x64, 0x65, 0x66, 0], ⟨fun _ => 0, 4⟩, 0⟩ :=
    reaches_of_after (n := 20) rfl
  exact ⟨_, rfl, processLine_stores [] _ [] (by decide) _ _ hreach⟩

/-! ### The pointer and the end of the line -/

/-- The NUL of the line, with `behind` after it, is ahead. -/
def Inside (behind : List UInt8) (r : List UInt8 × Data) : Prop :=
  ∃ rest, r.1 = rest ++ 0 :: behind

section Inside

variable {behind buf : List UInt8} {data data' : Data}

theorem Inside.tail {c : UInt8} {s : List UInt8} (h : Inside behind (c :: s, data))
    (hc : c ≠ 0) : Inside behind (s, data') := by
  obtain ⟨rest, heq⟩ := h
  cases rest with
  | nil => exact absurd (List.cons.inj heq).1 hc
  | cons d rest => exact ⟨rest, (List.cons.inj heq).2⟩

/-- As far as the letters and digits go. -/
theorem Inside.drop {n : Nat} (h : Inside behind (buf, data))
    (hn : n ≤ (buf.takeWhile Scan.isAlnum).length) : Inside behind (buf.drop n, data') := by
  obtain ⟨rest, rfl⟩ : ∃ rest, buf = rest ++ 0 :: behind := h
  have hrun : (rest ++ 0 :: behind).takeWhile Scan.isAlnum = rest.takeWhile Scan.isAlnum :=
    Scan.takeWhile_nul (by decide) rest behind
  have hle := (List.takeWhile_sublist Scan.isAlnum (l := rest)).length_le
  rw [hrun] at hn
  exact ⟨rest.drop n, List.drop_append_of_le_length (hn.trans hle)⟩

/-- The two characters of a pair are in the line, unless a single digit was left of it. -/
theorem pairBody_inside {d : UInt8} {s : List UInt8} (h : Inside behind (d :: s, data))
    (hd : d ≠ 0) (hpair : Scan.isHexDigit d = true → s ≠ 0 :: behind) :
    Through buffer (Inside behind) (Inside behind) pairBody (d :: s, data) := by
  refine .room h (.scan h fun value _ hscans => .forth h (.skip h fun _ => ?_))
  obtain ⟨rest, heq⟩ : Inside behind (s, data) := h.tail hd
  have hbehind : ∃ e t, s = e :: t ∧ Inside behind (t, data) := by
    cases rest with
    | nil =>
        obtain rfl : s = 0 :: behind := heq
        exact absurd rfl (hpair hscans.last)
    | cons e rest => exact ⟨e, _, heq, rest, rfl⟩
  obtain ⟨e, t, rfl, hinside⟩ := hbehind
  refine .colon hinside fun c u hdrop => .nil ?_
  obtain rfl : t = c :: u := hdrop
  split
  · rename_i hcolon
    exact Inside.tail hinside (by rw [hcolon]; decide)
  · exact hinside

/-- A scan at such a pointer reads what is in front of the NUL, whatever is behind. -/
theorem scans_inside (width : Nat) (rest behind behind' : List UInt8) (value : UInt32) :
    Scans width (rest ++ 0 :: behind) value ↔ Scans width (rest ++ 0 :: behind') value := by
  have hnumber (behind : List UInt8) : Scans width (rest ++ 0 :: behind) value ↔
      (Scan.hex width rest).map Prod.fst = some value := by
    rw [← Scan.hex_nul width rest behind, Option.map_eq_some_iff]
    constructor
    · rintro ⟨_, s, hscan⟩
      exact ⟨(value, s), hscan, rfl⟩
    · rintro ⟨⟨_, s⟩, hscan, rfl⟩
      exact ⟨by simp, s, hscan⟩
  rw [hnumber, hnumber]

theorem digitsBody_inside {line n : Nat} (h : Inside behind (buf, data))
    (hn : 2 * n ≤ (buf.takeWhile Scan.isAlnum).length) :
    Through buffer (Inside behind) (Inside behind) (digitsBody line n) (buf, data) :=
  .scan h fun _ _ _ => .skip h fun _ => .forth (h.drop hn) (.nil (h.drop hn))

theorem digits16Body_inside (h : Inside behind (buf, data))
    (hn : 16 ≤ (buf.takeWhile Scan.isAlnum).length) :
    Through buffer (Inside behind) (Inside behind) digits16Body (buf, data) := by
  have hfirst {data' : Data} : Inside behind (buf.drop 8, data') := h.drop (by omega)
  have hsecond {data' : Data} : Inside behind ((buf.drop 8).drop 8, data') := by
    rw [List.drop_drop]
    exact h.drop hn
  exact .forth h (.scan h fun _ upper _ => .skip h fun _ => .back hfirst fun _ =>
    .scan hfirst fun _ lower _ => .skip hfirst fun _ => .forth hsecond (.nil hsecond))

theorem literalBody_inside {body : List Stmt} (h : Inside behind (buf, data))
    (hbody : literalBody (buf.takeWhile Scan.isAlnum).length = some body) :
    Through buffer (Inside behind) (Inside behind) body (buf, data) := by
  unfold literalBody at hbody
  split at hbody
  · exact Option.some.inj hbody ▸ digitsBody_inside h (by omega)
  · exact Option.some.inj hbody ▸ digitsBody_inside h (by omega)
  · exact Option.some.inj hbody ▸ digitsBody_inside h (by omega)
  · exact Option.some.inj hbody ▸ digitsBody_inside h (by omega)
  · exact Option.some.inj hbody ▸ digits16Body_inside h (by omega)
  · cases hbody

/-- The pointer is in the line, and so it stays to the end of a body. -/
def Ready (buffer behind : List UInt8) (c : Config) : Prop :=
  match c.point with
  | .pair body | .literal body =>
      Through buffer (Inside behind) (Inside behind) body (c.buf, c.data)
  | _ => Inside behind (c.buf, c.data)

theorem Ready.inside {c : Config} (h : Ready buffer behind c) : Inside behind (c.buf, c.data) := by
  obtain ⟨point, buf, data, o⟩ := c
  cases point with
  | pair body => exact Through.before (fun _ hr => hr) h
  | literal body => exact Through.before (fun _ hr => hr) h
  | _ => exact h

/-- Only the step to a pair may be to one that is not there. -/
theorem Ready.move {c c' : Config} (h : Ready buffer behind c)
    (hpair : c.point = .quoted → ∀ d, Scan.isHexDigit d = true → c.buf ≠ d :: 0 :: behind)
    (hmove : Moves buffer c c') : Ready buffer behind c' := by
  cases hmove with
  | indent space => exact Inside.tail h (by rintro rfl; cases space)
  | word nul => exact Inside.tail h nul
  | blank space => exact Inside.tail h (by rintro rfl; cases space)
  | @found call d s data o black nul =>
      cases call with
      | opcode => exact h
      | argument => exact h
  | quote => exact Inside.tail h (by decide)
  | zero => exact Inside.tail h (by decide)
  | marker => exact Inside.tail h (by decide)
  | @inside d s data o nul =>
      exact pairBody_inside h nul fun hdigit hs => hpair rfl d hdigit (by rw [hs])
  | length size => exact literalBody_inside h size
  | pair exec => exact h.2 _ exec
  | literal exec => exact h.2 _ exec
  | _ => exact h

end Inside

/-- The pointer is in front of the NUL of the line or at it. -/
def Config.Within (buffer : Buffer) (line : Line) (c : Config) : Prop :=
  ∃ gone, (buffer.load line).bytes = gone ++ c.buf ∧ gone.length ≤ line.bytes.length

/-- A pair is to begin, and a digit is all that is left of the line. -/
def Config.Dangling (buffer : Buffer) (line : Line) (c : Config) : Prop :=
  c.point = .quoted ∧ ∃ d, Scan.isHexDigit d = true ∧
    c.buf = d :: 0 :: buffer.bytes.drop (line.bytes.length + 1)

section Line

variable {buffer : Buffer} {line : Line} {cells : Int → UInt8} {opcode : UInt32} {c : Config}

/-- Where only the NUL and what is behind it are ahead, the line has been read. -/
theorem within_of_inside (hsuffix : c.buf <:+ (buffer.load line).bytes)
    (h : Inside (buffer.bytes.drop (line.bytes.length + 1)) (c.buf, c.data)) :
    c.Within buffer line := by
  obtain ⟨gone, hgone⟩ := hsuffix
  obtain ⟨rest, hrest⟩ := h
  refine ⟨gone, hgone.symm, ?_⟩
  have hlength := congrArg List.length hgone
  have hahead : c.buf.length = (rest ++ 0 :: _).length := congrArg List.length hrest
  rw [Buffer.load] at hlength
  simp only [List.length_append, List.length_cons] at hlength hahead
  omega

theorem step_pair {buffer : List UInt8} {stmt : Stmt} {rest : List Stmt} {buf : List UInt8}
    {data : Data} {r : List UInt8 × Data} (h : stmt.exec buffer (buf, data) = .ok r) :
    step buffer ⟨.pair (stmt :: rest), buf, data, opcode⟩ =
      .ok (some ⟨.pair rest, r.1, r.2, opcode⟩) := by
  simp only [step, h]
  rfl

/-- Behind a lone digit the loop goes on to its check for a colon, with the NUL left behind. -/
theorem Config.Dangling.passes (hdangling : c.Dangling buffer line)
    (hroom : c.data.dp + 4 ≤ dataSize) : ∃ c', Reaches (step (buffer.load line).bytes) c c' ∧
      c'.buf = buffer.bytes.drop (line.bytes.length + 1) := by
  obtain ⟨point, buf, data, o⟩ := c
  obtain ⟨hpoint, d, hdigit, hbuf⟩ := hdangling
  generalize buffer.bytes.drop (line.bytes.length + 1) = behind at *
  simp only at hpoint hbuf hroom
  subst hpoint hbuf
  have hd := Scan.isAlnum_spec d (Scan.isHexDigit_spec d hdigit).1
  have hinside : ¬ (d = 0x22 ∨ d = 0) := not_or.mpr ⟨hd.2.2.1, hd.2.1⟩
  have hnumber : Scan.hex 2 ([d] ++ 0 :: behind) =
      some (UInt32.ofNat (Scan.value 16 [d]), 0 :: behind) :=
    Scan.hex_run (List.cons_ne_nil d []) (by simpa using hdigit) (Nat.le_succ 1)
      (by simp [Scan.isAlnum, Scan.isDigit, Scan.isUpper, Scan.isLower])
  have hscans : Scans 2 (d :: 0 :: behind) (UInt32.ofNat (Scan.value 16 [d])) :=
    ⟨by simp, _, hnumber⟩
  have hbody : step (buffer.load line).bytes ⟨.quoted, d :: 0 :: behind, data, o⟩ =
      .ok (some ⟨.pair pairBody, d :: 0 :: behind, data, o⟩) := by
    simp only [step, read, goto, if_neg hinside]
  have hchecked : Stmt.room.exec (buffer.load line).bytes (d :: 0 :: behind, data) =
      .ok (d :: 0 :: behind, data) :=
    exec_room.mpr ⟨(Nat.le_add_right _ 4).trans hroom, rfl⟩
  obtain ⟨cells, hscanned⟩ : ∃ cells, (Stmt.scan 99 2).exec (buffer.load line).bytes
      (d :: 0 :: behind, data) = .ok (d :: 0 :: behind, ⟨cells, data.dp⟩) :=
    ⟨_, exec_scan.mpr ⟨hroom, _, hscans, rfl⟩⟩
  refine ⟨⟨.pair [.colon], behind, ⟨cells, data.dp + 1⟩, o⟩, .head hbody (.head
    (step_pair hchecked) (.head (step_pair hscanned) (.head (step_pair (exec_forth.mpr rfl))
      (.single (step_pair (exec_skip.mpr ⟨?_, rfl⟩)))))), rfl⟩
  exact Nat.le_add_left 2 behind.length

/-- As long as no pair is begun with a lone digit left. -/
theorem within_of_safe (hreach : Reaches (step (buffer.load line).bytes)
      (.start (buffer.load line).bytes cells opcode) c)
    (hsafe : ∀ c, Reaches (step (buffer.load line).bytes)
      (.start (buffer.load line).bytes cells opcode) c → ¬ c.Dangling buffer line) :
    c.Within buffer line := by
  have hready : Ready (buffer.load line).bytes (buffer.bytes.drop (line.bytes.length + 1)) c := by
    refine hreach.invariant ⟨line.bytes, rfl⟩ fun a b ha hready hstep => ?_
    exact hready.move (fun hpoint d hdigit hbuf => hsafe a ha ⟨hpoint, d, hdigit, hbuf⟩)
      (step_moves hstep)
  exact within_of_inside (reaches_suffix hreach) hready.inside

/-- A newline at the end is no digit, so in a whole line the pointer never gets behind. -/
theorem newline_within {l : List UInt8} (hline : line.bytes = l ++ [0x0a])
    (hreach : Reaches (step (buffer.load line).bytes)
      (.start (buffer.load line).bytes cells opcode) c) : c.Within buffer line := by
  refine within_of_safe hreach fun c hreach hdangling => ?_
  obtain ⟨_, d, hdigit, hbuf⟩ := hdangling
  obtain ⟨gone, hgone⟩ := reaches_suffix hreach
  have hlast : gone ++ [d] = l ++ [0x0a] := by
    have hbytes : (gone ++ [d]) ++ 0 :: buffer.bytes.drop (line.bytes.length + 1) =
        (l ++ [0x0a]) ++ 0 :: buffer.bytes.drop (line.bytes.length + 1) := by
      rw [List.append_assoc, List.singleton_append, ← hbuf, hgone, ← hline]
      rfl
    exact List.append_cancel_right hbytes
  obtain ⟨_, hd⟩ := List.append_inj' hlast rfl
  rw [(List.cons.inj hd).1] at hdigit
  cases hdigit

/-- `buf` stays in front of the NUL of a line or at it if and only if no pair is begun with a
lone digit left. What stands behind the line does not matter, and a NUL in a line is met
alike: the line can be taken to end there. -/
theorem main_within (buffer : Buffer) (line : Line) (cells : Int → UInt8) (opcode : UInt32) :
    (∀ c, Reaches (step (buffer.load line).bytes) (.start (buffer.load line).bytes cells opcode)
        c → c.Within buffer line) ↔
      ∀ c, Reaches (step (buffer.load line).bytes) (.start (buffer.load line).bytes cells opcode)
        c → ¬ c.Dangling buffer line := by
  constructor
  · intro hwithin c hreach hdangling
    have hstart : Paced (buffer.load line).bytes (buffer.load line).bytes.length
        (.start (buffer.load line).bytes cells opcode) := ⟨Nat.le_refl _, rfl⟩
    have hleads : c.buf.length + 2 * c.data.dp + 0 ≤ (buffer.load line).bytes.length :=
      (paced_reaches hreach hstart).leads
    rw [(buffer.load line).size] at hleads
    have hroom : c.data.dp + 4 ≤ dataSize := by
      have hsize : dataSize = 1024 := rfl
      omega
    obtain ⟨c', hmore, hbuf⟩ := hdangling.passes hroom
    obtain ⟨gone, hgone, hlen⟩ := hwithin c' (hreach.trans hmore)
    have hlength := congrArg List.length hgone
    rw [hbuf, Buffer.load, List.length_append, List.length_append, List.length_cons] at hlength
    omega
  · intro hsafe c hreach
    exact within_of_safe hreach hsafe

/-- The line `Send_x 0x0000 "1` without a newline, in a buffer of zeros. -/
theorem main_leaves : ¬ ∀ (buffer : Buffer) (line : Line) (cells : Int → UInt8)
    (opcode : UInt32) (c : Config), Reaches (step (buffer.load line).bytes)
      (.start (buffer.load line).bytes cells opcode) c → c.Within buffer line := by
  intro hwithin
  let text : List UInt8 := [0x53, 0x65, 0x6e, 0x64, 0x5f, 0x78, 0x20, 0x30, 0x78, 0x30, 0x30, 0x30,
    0x30, 0x20, 0x22, 0x31]
  have hreach (behind : List UInt8) : ∃ data, Reaches (step (text ++ 0 :: behind))
      (.start (text ++ 0 :: behind) (fun _ => 0) 0) ⟨.pair [.colon], behind, data, 0⟩ :=
    ⟨_, reaches_of_after (n := 28) rfl⟩
  let buffer : Buffer := ⟨List.replicate 1024 0, List.length_replicate⟩
  let line : Line := ⟨text, by decide⟩
  obtain ⟨data, hpassed⟩ := hreach (buffer.bytes.drop 17)
  obtain ⟨gone, hgone, hlen⟩ := hwithin buffer line _ _ _ hpassed
  have hlength := congrArg List.length hgone
  rw [(buffer.load line).size, List.length_append, List.length_drop, buffer.size] at hlength
  have hshort : gone.length ≤ 16 := hlen
  omega

end Line

end Brfpatch
