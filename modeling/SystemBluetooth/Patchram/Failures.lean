import Mathlib
import SystemBluetooth.Patchram.Handler

/-!
# Reads that fail

`read_event` adds what a read returns to the index, and takes it from the length, also when
that is -1. So the sum of the two stays as it is, and the index is the number of bytes
delivered so far less the number of failed reads. `Polled` is the course of one loop as the
calls of `read` show it; whatever the buffer holds before, the course is the same.
-/

namespace Patchram

open Effect

/-! ### The calls of a run -/

/-- One call of `read` on the UART. -/
structure Poll where
  i : Int
  len : Int
  result : Arrival UInt8
  deriving DecidableEq

def Io.poll : Io → Option Poll
  | .readUart i len result => some ⟨i, len, result⟩
  | _ => none

def polls (io : List Io) : List Poll := io.filterMap Io.poll

/-- The sum of what the calls return. -/
def total (ps : List Poll) : Int := (ps.map fun p => p.result.count).sum

/-- The bytes of the calls that succeed. -/
def delivered (ps : List Poll) : List UInt8 := ps.flatMap fun p => p.result.data

/-- The buffer after the calls. -/
def replay (ps : List Poll) (buffer : Int → UInt8) : Int → UInt8 :=
  ps.foldl (fun buffer p => Memory.store buffer p.i p.result.data) buffer

@[simp] theorem polls_append (a b : List Io) : polls (a ++ b) = polls a ++ polls b :=
  List.filterMap_append

@[simp] theorem total_nil : total [] = 0 := rfl

@[simp] theorem total_cons (p : Poll) (ps : List Poll) :
    total (p :: ps) = p.result.count + total ps := by
  simp [total]

@[simp] theorem total_append (as bs : List Poll) : total (as ++ bs) = total as + total bs := by
  simp [total]

@[simp] theorem replay_cons (p : Poll) (ps : List Poll) (buffer : Int → UInt8) :
    replay (p :: ps) buffer = replay ps (Memory.store buffer p.i p.result.data) := rfl

@[simp] theorem replay_append (as bs : List Poll) (buffer : Int → UInt8) :
    replay (as ++ bs) buffer = replay bs (replay as buffer) := List.foldl_append

@[simp] theorem delivered_append (as bs : List Poll) :
    delivered (as ++ bs) = delivered as ++ delivered bs := List.flatMap_append

/-! ### One loop -/

/-- The calls of a loop that starts with the given index and length, and how it ends. -/
inductive Polled : Int → Int → List Poll → Except Stop (Int × Int) → Prop where
  | stopped {i len stop} : Polled i len [] (.error stop)
  | last {i len result} (fits : result.data.length ≤ len.toNat) (full : ¬ result.count < len) :
      Polled i len [⟨i, len, result⟩] (.ok (i, result.count))
  | more {i len result ps r} (fits : result.data.length ≤ len.toNat) (short : result.count < len)
      (later : Polled (i + result.count) (len - result.count) ps r) :
      Polled i len (⟨i, len, result⟩ :: ps) r

namespace Polled

variable {i len : Int} {ps : List Poll} {r : Except Stop (Int × Int)}

/-- The index is the start and what the calls before have returned. The sum stays as it is,
and nothing is stored behind. -/
theorem call (h : Polled i len ps r) (hlen : 0 ≤ len) {before after : List Poll} {p : Poll}
    (hsplit : ps = before ++ p :: after) :
    p.i = i + total before ∧ p.i + p.len = i + len ∧
      p.i + p.result.data.length ≤ i + len := by
  induction h generalizing before with
  | stopped => simp at hsplit
  | last fits full =>
      cases before with
      | nil =>
          obtain ⟨rfl, _⟩ := List.cons.inj hsplit
          exact ⟨by simp, rfl, by dsimp only; omega⟩
      | cons q before => simp at hsplit
  | @more i len result ps r fits short later ih =>
      cases before with
      | nil =>
          obtain ⟨rfl, _⟩ := List.cons.inj hsplit
          exact ⟨by simp, rfl, by dsimp only; omega⟩
      | cons q before =>
          obtain ⟨rfl, hrest⟩ := List.cons.inj hsplit
          obtain ⟨hi, hsum, hend⟩ := ih (by omega) hrest
          refine ⟨?_, by omega, by omega⟩
          rw [hi, total_cons]
          dsimp only
          omega

/-- A loop that ends by itself has come to the end of its part. -/
theorem complete (h : Polled i len ps r) (hlen : 0 ≤ len) {k c : Int} (hr : r = .ok (k, c)) :
    k + c = i + len ∧ total ps = len := by
  induction h with
  | stopped => cases hr
  | @last i len result fits full =>
      obtain ⟨rfl, rfl⟩ := Prod.mk.inj (Except.ok.inj hr)
      have hcount : result.count ≤ len := by
        cases result with
        | error =>
            rw [Arrival.count_error]
            omega
        | bytes l =>
            simp only [Arrival.data_bytes, Arrival.count_bytes] at fits ⊢
            omega
      simp only [total_cons, total_nil]
      omega
  | more fits short later ih =>
      obtain ⟨hend, htotal⟩ := ih (by omega) hr
      rw [total_cons]
      dsimp only
      omega

/-- The last cell of the part is stored, whatever it held before. -/
theorem replay_last (h : Polled i len ps r) (hlen : 0 < len) {k c : Int} (hr : r = .ok (k, c))
    (buffer buffer' : Int → UInt8) :
    replay ps buffer (i + len - 1) = replay ps buffer' (i + len - 1) := by
  induction h generalizing buffer buffer' with
  | stopped => cases hr
  | @last i len result fits full =>
      cases result with
      | error =>
          rw [Arrival.count_error] at full
          omega
      | bytes l =>
          rw [Arrival.count_bytes] at full
          rw [Arrival.data_bytes] at fits
          have hend : i + len - 1 = i + ((l.length - 1 : Nat) : Int) := by omega
          change Memory.store buffer i l _ = Memory.store buffer' i l _
          rw [hend, Memory.store_inside buffer i l (by omega),
            Memory.store_inside buffer' i l (by omega)]
  | @more i len result ps r fits short later ih =>
      have hend : i + len - 1 = i + result.count + (len - result.count) - 1 := by omega
      rw [replay_cons, replay_cons, hend]
      exact ih (by omega) hr _ _

/-- Behind the part the buffer stays as it is. -/
theorem replay_behind (h : Polled i len ps r) (hlen : 0 ≤ len) (buffer : Int → UInt8) {j : Int}
    (hj : i + len ≤ j) : replay ps buffer j = buffer j := by
  have hcalls : ∀ p ∈ ps, p.i + p.result.data.length ≤ j := by
    intro p hp
    obtain ⟨before, after, hsplit⟩ := List.append_of_mem hp
    have hend := (h.call hlen hsplit).2.2
    omega
  clear h
  induction ps generalizing buffer with
  | nil => rfl
  | cons p ps ih =>
      rw [List.forall_mem_cons] at hcalls
      rw [replay_cons, ih _ hcalls.2, Memory.store_above hcalls.1]

/-- Without failed reads, what is delivered is stored in one piece. -/
theorem replay_clean (h : Polled i len ps r) (hclean : ∀ p ∈ ps, p.result ≠ .error)
    (buffer : Int → UInt8) : replay ps buffer = Memory.store buffer i (delivered ps) := by
  induction h generalizing buffer with
  | stopped => simp [replay, delivered]
  | last fits full => simp [replay, delivered]
  | @more i len result ps r fits short later ih =>
      rw [List.forall_mem_cons] at hclean
      cases result with
      | error => exact absurd rfl hclean.1
      | bytes l =>
          rw [replay_cons, ih hclean.2]
          exact Memory.store_store_append _ _ _ _

end Polled

/-- The number of reads that fail. -/
def failures (ps : List Poll) : Nat := (ps.filter fun p => p.result = .error).length

theorem total_eq (ps : List Poll) : total ps = (delivered ps).length - failures ps := by
  induction ps with
  | nil => rfl
  | cons p ps ih =>
      obtain ⟨i, len, result⟩ := p
      rw [total_cons, ih]
      cases result with
      | error =>
          simp [failures, delivered]
          omega
      | bytes l =>
          simp [failures, delivered]
          omega

theorem failures_eq_zero {ps : List Poll} : failures ps = 0 ↔ ∀ p ∈ ps, p.result ≠ .error := by
  rw [failures, List.length_eq_zero_iff, List.filter_eq_nil_iff]
  simp

/-! ### Whatever the buffer holds -/

/-- From `w`, with any buffer, `c` ends with `r` in `t` after the given calls. -/
structure Replays {α : Type} (c : Host α) (w : World) (r : Except Stop α) (t : World)
    (ps : List Poll) : Prop where
  run : ∀ buffer, c { w with buffer := buffer } = (r, { t with buffer := replay ps buffer })
  io : ∃ new, t.io = w.io ++ new ∧ polls new = ps

namespace Replays

variable {α β : Type} {c : Host α} {f : α → Host β} {w u t : World} {ps qs : List Poll}

theorem bind_ok {a : α} {r : Except Stop β} (first : Replays c w (.ok a) u ps)
    (second : Replays (f a) u r t qs) : Replays (c >>= f) w r t (ps ++ qs) := by
  obtain ⟨as, hu, has⟩ := first.io
  obtain ⟨bs, ht, hbs⟩ := second.io
  refine ⟨fun buffer => ?_, as ++ bs, by rw [ht, hu, List.append_assoc], ?_⟩
  · rw [Effect.bind_ok (first.run buffer), second.run, replay_append]
  · rw [polls_append, has, hbs]

theorem bind_error {stop : Stop} (first : Replays c w (.error stop) u ps) :
    Replays (c >>= f) w (.error stop) u ps :=
  ⟨fun buffer => Effect.bind_error (first.run buffer), first.io⟩

theorem pure (a : α) (w : World) : Replays (Pure.pure a) w (.ok a) w [] :=
  ⟨fun _ => rfl, [], (List.append_nil _).symm, rfl⟩

end Replays

theorem runHandler_buffer (signals : List Bool) (w : World) (buffer : Int → UInt8) :
    runHandler signals { w with buffer := buffer } =
      { runHandler signals w with buffer := buffer } := by
  induction signals generalizing w with
  | nil => rfl
  | cons expires later ih =>
      cases expires with
      | false => rfl
      | true => exact ih (expired w).2

theorem deliver_buffer (w : World) (buffer : Int → UInt8) :
    deliver { w with buffer := buffer } = (.ok (), { (deliver w).2 with buffer := buffer }) := by
  simp only [deliver, modify_apply]
  split
  · rw [runHandler_buffer]
  · rfl

theorem deliver_polls (w : World) : ∃ new, (deliver w).2.io = w.io ++ new ∧ polls new = [] := by
  obtain ⟨v, hhandled, hrun⟩ := sys_handled (Pure.pure () : Host Unit) w
  obtain rfl : (deliver w).2 = v := congrArg Prod.snd hrun
  obtain ⟨new, hnew, hall⟩ := hhandled.handler
  refine ⟨new, hnew, List.filterMap_eq_nil_iff.mpr fun e he => ?_⟩
  have hbyHandler := hall e he
  cases e <;> first | rfl | exact hbyHandler.elim

theorem deliver_uart (w : World) : (deliver w).2.uart = w.uart := by
  obtain ⟨v, hhandled, hrun⟩ := sys_handled (Pure.pure () : Host Unit) w
  obtain rfl : (deliver w).2 = v := congrArg Prod.snd hrun
  rw [hhandled.state]

/-- A read waits, or is one call. -/
theorem readUart_replays (i len : Int) (w : World) :
    ∃ u, (Arrivals.read len.toNat w.uart = none ∧
        Replays (readUart i len) w (.error .waiting) u []) ∨
      ∃ result, Arrivals.read len.toNat w.uart = some (result, u.uart) ∧
        Replays (readUart i len) w (.ok result.count) u [⟨i, len, result⟩] := by
  obtain ⟨new, hnew, hnone⟩ := deliver_polls w
  rw [← deliver_uart w]
  cases hread : Arrivals.read len.toNat (deliver w).2.uart with
  | none =>
      refine ⟨(deliver w).2, Or.inl ⟨rfl, fun buffer => ?_, new, hnew, hnone⟩⟩
      rw [readUart, sys, bind_ok (deliver_buffer w buffer), get_bind_apply]
      simp only [hread]
      rfl
  | some answer =>
      obtain ⟨result, rest⟩ := answer
      refine ⟨{ (deliver w).2 with
          uart := rest, io := (deliver w).2.io ++ [.readUart i len result] },
        Or.inr ⟨result, rfl, fun buffer => ?_, new ++ [.readUart i len result], ?_, ?_⟩⟩
      · rw [readUart, sys, bind_ok (deliver_buffer w buffer), get_bind_apply]
        simp only [hread]
        rfl
      · rw [← List.append_assoc, ← hnew]
      · rw [polls_append, hnone]
        rfl

theorem readLoop_replays (fuel : Nat) (i len : Int) (w : World) :
    ∃ r t ps, Replays (readLoop fuel i len) w r t ps ∧ Polled i len ps r := by
  induction fuel generalizing i len w with
  | zero => exact ⟨_, w, [], ⟨fun _ => rfl, [], (List.append_nil _).symm, rfl⟩, .stopped⟩
  | succ fuel ih =>
      obtain ⟨u, ⟨-, hwaits⟩ | ⟨result, hanswer, hread⟩⟩ := readUart_replays i len w
      · exact ⟨_, u, [], hwaits.bind_error, .stopped⟩
      · have hfits := Arrivals.read_length hanswer
        by_cases hshort : result.count < len
        · obtain ⟨r, t, ps, hrest, hpolled⟩ := ih (i + result.count) (len - result.count) u
          refine ⟨r, t, _, hread.bind_ok ?_, .more hfits hshort hpolled⟩
          rw [if_pos hshort]
          exact hrest
        · refine ⟨_, u, _, hread.bind_ok ?_, .last hfits hshort⟩
          rw [if_neg hshort]
          exact .pure _ u

theorem readFull_replays (i len : Int) (w : World) :
    ∃ r t ps, Replays (readFull i len) w r t ps ∧ Polled i len ps r := by
  obtain ⟨r, t, ps, hloop, hpolled⟩ := readLoop_replays (w.uart.length + 1) i len w
  exact ⟨r, t, ps, ⟨fun buffer => hloop.run buffer, hloop.io⟩, hpolled⟩

/-! ### One event -/

/-- The course of `read_event`, with any buffer: it ends in the header, or in the body, or
with an event. The second loop gets its length from the header as it was read. -/
inductive Course (w : World) : Prop where
  | header (stop : Stop) (u : World) (ps : List Poll)
      (first : Replays (readFull 0 3) w (.error stop) u ps) (polled : Polled 0 3 ps (.error stop))
      (run : Replays readEvent w (.error stop) u ps)
  | body (n : UInt8) (k c : Int) (hend : k + c = 3) (u t : World) (ps qs : List Poll) (stop : Stop)
      (first : Replays (readFull 0 3) w (.ok (k, c)) u ps) (polled : Polled 0 3 ps (.ok (k, c)))
      (size : ∀ buffer, replay ps buffer 2 = n)
      (second : Replays (readFull 3 n.toNat) u (.error stop) t qs)
      (polled' : Polled 3 n.toNat qs (.error stop))
      (run : Replays readEvent w (.error stop) t (ps ++ qs))
  | event (n : UInt8) (k c k' c' : Int) (hend : k + c = 3) (u t : World) (ps qs : List Poll)
      (first : Replays (readFull 0 3) w (.ok (k, c)) u ps) (polled : Polled 0 3 ps (.ok (k, c)))
      (size : ∀ buffer, replay ps buffer 2 = n)
      (second : Replays (readFull 3 n.toNat) u (.ok (k', c')) t qs)
      (polled' : Polled 3 n.toNat qs (.ok (k', c')))
      (both : Replays (readFull 0 3 >>= fun _ => readFull 3 n.toNat) w (.ok (k', c')) t (ps ++ qs))
      (run : ∀ buffer, ∃ received, readEvent { w with buffer := buffer } =
        (.ok (), { t with
          buffer := replay (ps ++ qs) buffer, io := t.io ++ [.event received] }))

theorem readEvent_course (w : World) : Course w := by
  obtain ⟨r, u, ps, hfirst, hpolled⟩ := readFull_replays 0 3 w
  cases r with
  | error stop => exact .header stop u ps hfirst hpolled hfirst.bind_error
  | ok r =>
      obtain ⟨k, c⟩ := r
      have hend : k + c = 3 := (hpolled.complete (by decide) rfl).1
      let n := replay ps w.buffer 2
      have hsize : ∀ buffer, replay ps buffer 2 = n := fun buffer =>
        hpolled.replay_last (by decide) rfl buffer w.buffer
      obtain ⟨r', t, qs, hsecond, hpolled'⟩ := readFull_replays 3 n.toNat u
      have hrun (buffer : Int → UInt8) : readEvent { w with buffer := buffer } =
          (readFull 3 n.toNat >>= fun r => do
            let received ← gets fun w => Memory.slice w.buffer 0 (r.2 + r.1).toNat
            record (.event received) : Host Unit) { u with buffer := replay ps buffer } := by
        rw [readEvent, bind_ok (hfirst.run buffer)]
        simp only [gets_bind_apply, hsize, hend]
      cases r' with
      | error stop =>
          obtain ⟨as, hu, has⟩ := hfirst.io
          obtain ⟨bs, ht, hbs⟩ := hsecond.io
          refine .body n k c hend u t ps qs stop hfirst hpolled hsize hsecond hpolled'
            ⟨fun buffer => ?_, as ++ bs, by rw [ht, hu, List.append_assoc], ?_⟩
          · rw [hrun, bind_error (hsecond.run _), replay_append]
          · rw [polls_append, has, hbs]
      | ok r' =>
          obtain ⟨k', c'⟩ := r'
          refine .event n k c k' c' hend u t ps qs hfirst hpolled hsize hsecond hpolled'
            (hfirst.bind_ok hsecond) fun buffer => ?_
          rw [hrun, bind_ok (hsecond.run _), replay_append]
          exact ⟨_, rfl⟩

/-- What is recorded between two states. -/
def added (w t : World) : List Io := t.io.drop w.io.length

/-- All calls stay inside the part of the buffer that ends at `limit`. -/
def Inside (limit : Int) (ps : List Poll) : Prop := ∀ p ∈ ps, 0 ≤ p.i ∧ p.i + p.len ≤ limit

/-- Every call of both loops reads into its part of the buffer, and the event that is
returned is what was delivered. -/
structure Survives (w : World) : Prop where
  header : Inside 3 (polls (added w (readFull 0 3 w).2))
  body : ∀ {i count u}, readFull 0 3 w = (.ok (i, count), u) →
    Inside (3 + (u.buffer 2).toNat)
      (polls (added u (readFull (i + count) (u.buffer 2).toNat u).2))
  event : ∀ {t}, readEvent w = (.ok (), t) →
    Memory.slice t.buffer 0 (3 + (t.buffer 2).toNat) = delivered (polls (added w t))

/-- At every call, no more reads have failed than bytes have been delivered. -/
def InStep (ps : List Poll) : Prop :=
  ∀ before p after, ps = before ++ p :: after → failures before ≤ (delivered before).length

theorem Replays.added_eq {α : Type} {c : Host α} {w t : World} {r : Except Stop α}
    {ps : List Poll} (h : Replays c w r t ps) (buffer : Int → UInt8) :
    polls (added { w with buffer := buffer } (c { w with buffer := buffer }).2) = ps := by
  obtain ⟨new, ht, hnew⟩ := h.io
  rw [h.run, added]
  change polls (t.io.drop w.io.length) = ps
  rw [ht, List.drop_left, hnew]

/-- The event that is recorded is no further call. -/
theorem Replays.added_event {α : Type} {c : Host α} {w t : World} {r : Except Stop α}
    {ps : List Poll} (h : Replays c w r t ps) (buffer : Int → UInt8) (received : List UInt8) :
    polls (added { w with buffer := buffer }
      { t with buffer := replay ps buffer, io := t.io ++ [.event received] }) = ps := by
  obtain ⟨new, ht, hnew⟩ := h.io
  change polls ((t.io ++ [Io.event received]).drop w.io.length) = ps
  rw [ht, List.append_assoc, List.drop_left, polls_append, hnew]
  exact List.append_nil ps

/-- A loop stays inside its part if it starts there and its calls are in step. -/
theorem Polled.inside {i len : Int} {ps : List Poll} {r : Except Stop (Int × Int)}
    (h : Polled i len ps r) (hlen : 0 ≤ len) : Inside (i + len) ps ↔
      ∀ before p after, ps = before ++ p :: after → 0 ≤ i + total before := by
  constructor
  · intro hinside before p after hsplit
    rw [← (h.call hlen hsplit).1]
    exact (hinside p (by simp [hsplit])).1
  · intro hstep p hp
    obtain ⟨before, after, hsplit⟩ := List.append_of_mem hp
    obtain ⟨hi, hsum, _⟩ := h.call hlen hsplit
    exact ⟨hi ▸ hstep before p after hsplit, Int.le_of_eq hsum⟩

theorem inStep_iff (ps : List Poll) :
    InStep ps ↔ ∀ before p after, ps = before ++ p :: after → 0 ≤ total before := by
  have hsame : ∀ before, failures before ≤ (delivered before).length ↔ 0 ≤ total before := by
    intro before
    rw [total_eq]
    omega
  simp only [InStep, hsame]

theorem inStep_append (ps qs : List Poll) : InStep (ps ++ qs) ↔ InStep ps ∧
    ∀ before p after, qs = before ++ p :: after → 0 ≤ total ps + total before := by
  rw [inStep_iff, inStep_iff]
  constructor
  · intro h
    refine ⟨fun before p after hsplit => ?_, fun before p after hsplit => ?_⟩
    · exact h before p (after ++ qs) (by rw [hsplit, List.append_assoc, List.cons_append])
    · rw [← total_append]
      exact h (ps ++ before) p after (by rw [hsplit, List.append_assoc])
  · rintro ⟨hps, hqs⟩ before p after hsplit
    obtain ⟨a, rfl, hq⟩ | ⟨a, hp, hrest⟩ := List.append_eq_append_iff.mp hsplit
    · rw [total_append]
      exact hqs a p after hq
    · cases a with
      | nil =>
          rw [List.append_nil] at hp
          have hfirst := hqs [] p after hrest.symm
          rw [total_nil, Int.add_zero, hp] at hfirst
          exact hfirst
      | cons q a =>
          obtain ⟨rfl, _⟩ := List.cons.inj hrest
          exact hps before p a hp

/-- The two loops of an event. -/
structure Loops (n : UInt8) (ps qs : List Poll) (r : Except Stop (Int × Int)) : Prop where
  header : ∃ k c, Polled 0 3 ps (.ok (k, c))
  body : Polled 3 n.toNat qs r
  size : ∀ buffer, replay ps buffer 2 = n

namespace Loops

variable {n : UInt8} {ps qs : List Poll} {r : Except Stop (Int × Int)}

theorem total_header (h : Loops n ps qs r) : total ps = 3 := by
  obtain ⟨k, c, hpolled⟩ := h.header
  exact (hpolled.complete (by decide) rfl).2

theorem inside (h : Loops n ps qs r) :
    Inside 3 ps ∧ Inside (3 + n.toNat) qs ↔ InStep (ps ++ qs) := by
  obtain ⟨k, c, hpolled⟩ := h.header
  have hheader := hpolled.inside (by decide)
  have hbody := h.body.inside (Int.natCast_nonneg _)
  rw [inStep_append, inStep_iff, hbody, h.total_header]
  simp only [Int.zero_add] at hheader
  rw [hheader]

/-- What is returned is what was delivered, whatever the buffer held, only without failures. -/
theorem clean (h : Loops n ps qs r) {k c : Int} (hr : r = .ok (k, c)) :
    (∀ buffer, Memory.slice (replay (ps ++ qs) buffer) 0
        (3 + (replay (ps ++ qs) buffer 2).toNat) = delivered (ps ++ qs)) ↔
      ∀ p ∈ ps ++ qs, p.result ≠ .error := by
  obtain ⟨k', c', hpolled⟩ := h.header
  have htotal : total (ps ++ qs) = 3 + n.toNat := by
    rw [total_append, h.total_header, (h.body.complete (Int.natCast_nonneg _) hr).2]
  constructor
  · intro hevent
    rw [← failures_eq_zero]
    by_contra hfailed
    have hlength := total_eq (ps ++ qs)
    rw [htotal] at hlength
    have hlt : 3 + n.toNat < (delivered (ps ++ qs)).length := by omega
    -- The cell behind the event is not stored, so it can be anything.
    let buffer : Int → UInt8 := fun _ => (delivered (ps ++ qs))[3 + n.toNat] + 1
    have hcell : replay (ps ++ qs) buffer (3 + n.toNat : Nat) = buffer (3 + n.toNat : Nat) := by
      rw [replay_append, h.body.replay_behind (Int.natCast_nonneg _) _ (by omega),
        hpolled.replay_behind (by decide) _ (by omega)]
    have hsame := hevent buffer
    have hsize := congrArg List.length hsame
    rw [Memory.length_slice] at hsize
    have hget := Memory.getElem_of_slice hsame (k := 3 + n.toNat) (by omega)
    rw [Int.zero_add, hcell, List.getElem?_eq_getElem hlt] at hget
    simp [buffer] at hget
  · intro hall buffer
    obtain ⟨hps, hqs⟩ := List.forall_mem_append.mp hall
    have hzero := failures_eq_zero.mpr hall
    have hlength := total_eq (ps ++ qs)
    rw [htotal, hzero] at hlength
    have hheader := total_eq ps
    rw [h.total_header, failures_eq_zero.mpr hps] at hheader
    have hstore : replay (ps ++ qs) buffer = Memory.store buffer 0 (delivered (ps ++ qs)) := by
      have hthree : (3 : Int) = 0 + ((delivered ps).length : Int) := by omega
      rw [replay_append, h.body.replay_clean hqs, hpolled.replay_clean hps, hthree,
        Memory.store_store_append, delivered_append]
    have hsize : replay (ps ++ qs) buffer 2 = n := by
      rw [replay_append, h.body.replay_clean hqs, Memory.store_below (by decide), h.size]
    rw [hsize, hstore, Memory.slice_store (by omega)]

end Loops

/-- The calls of the second loop, which starts where the first one ends. -/
theorem Replays.body_iff {w u t : World} {k c : Int} {ps qs : List Poll} {n : UInt8}
    {r : Except Stop (Int × Int)} (first : Replays (readFull 0 3) w (.ok (k, c)) u ps)
    (hend : k + c = 3) (size : ∀ buffer, replay ps buffer 2 = n)
    (second : Replays (readFull 3 n.toNat) u r t qs) (buffer : Int → UInt8) :
    (∀ {i count u'}, readFull 0 3 { w with buffer := buffer } = (.ok (i, count), u') →
      Inside (3 + (u'.buffer 2).toNat)
        (polls (added u' (readFull (i + count) (u'.buffer 2).toNat u').2))) ↔
      Inside (3 + n.toNat) qs := by
  have hcalls := second.added_eq (replay ps buffer)
  constructor
  · intro h
    have hinside := h (first.run buffer)
    simp only [size, hend, hcalls] at hinside
    exact hinside
  · intro hinside i count u' hrun
    rw [first.run] at hrun
    obtain ⟨hr, rfl⟩ := Prod.mk.inj hrun
    obtain ⟨rfl, rfl⟩ := Prod.mk.inj (Except.ok.inj hr)
    simp only [size, hend, hcalls]
    exact hinside

/-- `read_event` survives the failing reads of a run, whatever the buffer holds, exactly if at
every call no more reads have failed than bytes have been delivered, and, if the event is
returned, none has failed. -/
theorem readEvent_survives (w : World) :
    (∀ buffer, Survives { w with buffer := buffer }) ↔
      InStep (polls (added w (readEvent w).2)) ∧
        ((readEvent w).1 = .ok () →
          ∀ p ∈ polls (added w (readEvent w).2), p.result ≠ .error) := by
  cases readEvent_course w with
  | header stop u ps first polled run =>
      have hps : polls (added w (readEvent w).2) = ps := run.added_eq w.buffer
      have hstop : (readEvent w).1 = .error stop := congrArg Prod.fst (run.run w.buffer)
      have hinside := polled.inside (by decide)
      simp only [Int.zero_add] at hinside
      rw [hps, hstop, inStep_iff, ← hinside]
      constructor
      · intro h
        have hheader := (h w.buffer).header
        rw [first.added_eq] at hheader
        exact ⟨hheader, fun h => by cases h⟩
      · rintro ⟨hheader, -⟩ buffer
        refine ⟨by rwa [first.added_eq], fun hrun => ?_, fun hrun => ?_⟩
        · rw [first.run] at hrun
          cases hrun
        · rw [run.run] at hrun
          cases hrun
  | body n k c hend u t ps qs stop first polled size second polled' run =>
      have hps : polls (added w (readEvent w).2) = ps ++ qs := run.added_eq w.buffer
      have hstop : (readEvent w).1 = .error stop := congrArg Prod.fst (run.run w.buffer)
      have hloops : Loops n ps qs (.error stop) := ⟨⟨k, c, polled⟩, polled', size⟩
      rw [hps, hstop, ← hloops.inside]
      constructor
      · intro h
        have hheader := (h w.buffer).header
        rw [first.added_eq] at hheader
        have hbody := (first.body_iff hend size second w.buffer).mp (h w.buffer).body
        exact ⟨⟨hheader, hbody⟩, fun h => by cases h⟩
      · rintro ⟨⟨hheader, hbody⟩, -⟩ buffer
        refine ⟨by rwa [first.added_eq], (first.body_iff hend size second buffer).mpr hbody,
          fun hrun => ?_⟩
        rw [run.run] at hrun
        cases hrun
  | event n k c k' c' hend u t ps qs first polled size second polled' both run =>
      have hloops : Loops n ps qs (.ok (k', c')) := ⟨⟨k, c, polled⟩, polled', size⟩
      obtain ⟨received, hrun⟩ := run w.buffer
      have hps : polls (added w (readEvent w).2) = ps ++ qs := by
        rw [show readEvent w = _ from hrun]
        exact both.added_event w.buffer received
      have hok : (readEvent w).1 = .ok () := congrArg Prod.fst hrun
      rw [hps, hok, ← hloops.inside, ← hloops.clean rfl]
      constructor
      · intro h
        have hheader := (h w.buffer).header
        rw [first.added_eq] at hheader
        have hbody := (first.body_iff hend size second w.buffer).mp (h w.buffer).body
        refine ⟨⟨hheader, hbody⟩, fun _ buffer => ?_⟩
        obtain ⟨received, hrun⟩ := run buffer
        have hevent := (h buffer).event hrun
        rwa [both.added_event] at hevent
      · rintro ⟨⟨hheader, hbody⟩, hevent⟩ buffer
        refine ⟨by rwa [first.added_eq], (first.body_iff hend size second buffer).mpr hbody,
          fun hrun => ?_⟩
        obtain ⟨received, hrun'⟩ := run buffer
        obtain rfl := (Prod.mk.inj (hrun'.symm.trans hrun)).2
        rw [both.added_event]
        exact hevent rfl buffer

/-- The first read fails. -/
def interrupted : World :=
  World.start {} [.error, .bytes [0x04, 0x0e, 0x01], .bytes [0x00]] []

/-- The second one stores in front of the buffer. -/
theorem readEvent_interrupted : ¬ Survives interrupted := by
  intro h
  have hcall : (⟨-1, 4, .bytes [0x04, 0x0e, 0x01]⟩ : Poll) ∈
      polls (added interrupted (readFull 0 3 interrupted).2) := by decide
  exact absurd (h.header _ hcall).1 (by decide)

end Patchram
