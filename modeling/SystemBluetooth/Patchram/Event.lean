import SystemBluetooth.Library.Block
import SystemBluetooth.Patchram.Basic

/-!
# Assembling one event

`read_event` reads three header bytes and then as many as the third of them says, each
time until the count is reached. On a stream that arrives by positive reads and with no
signal in between, it takes exactly the block at the front of the stream, wherever the
reads fall; if the stream ends inside the block, it takes everything and waits.

`Took i data w t` says what such reads do to the program: `data` moved from the front
of the stream to the buffer at `i`, and nothing else changed.
-/

namespace Patchram

open Effect Arrivals

/-! ### Observations of a run -/

/-- The bytes a system call takes from the UART. -/
def Io.received : Io → List UInt8
  | .readUart _ _ result => result.data
  | _ => []

/-- The bytes a system call puts on the UART. -/
def Io.sent : Io → Option (List UInt8)
  | .write _ frame count => some (frame.take count.toNat)
  | _ => none

def received (io : List Io) : List UInt8 := io.flatMap Io.received

def sent (io : List Io) : List (List UInt8) := io.filterMap Io.sent

@[simp] theorem received_append (a b : List Io) :
    received (a ++ b) = received a ++ received b := by
  simp [received]

@[simp] theorem sent_append (a b : List Io) : sent (a ++ b) = sent a ++ sent b := by
  simp [sent]

/-- What is recorded in two steps follows each other. -/
theorem io_trans {a b c n m : List Io} (first : b = a ++ n) (second : c = b ++ m) :
    c = a ++ (n ++ m) := by
  rw [second, first, List.append_assoc]

/-- `reads` are successful UART reads that deliver `data` between them. -/
def Reads (reads : List Io) (data : List UInt8) : Prop :=
  (∀ e ∈ reads, ∃ i len l, e = .readUart i len (.bytes l)) ∧ received reads = data

theorem Reads.nil : Reads [] [] := ⟨by simp, rfl⟩

theorem Reads.one (i len : Int) (l : List UInt8) : Reads [.readUart i len (.bytes l)] l :=
  ⟨by simp, by simp [received, Io.received]⟩

theorem Reads.append {r₁ r₂ : List Io} {d₁ d₂ : List UInt8} (h₁ : Reads r₁ d₁)
    (h₂ : Reads r₂ d₂) : Reads (r₁ ++ r₂) (d₁ ++ d₂) := by
  refine ⟨?_, by rw [received_append, h₁.2, h₂.2]⟩
  intro e he
  cases List.mem_append.mp he with
  | inl he => exact h₁.1 e he
  | inr he => exact h₂.1 e he

theorem Reads.sent {reads : List Io} {data : List UInt8} (h : Reads reads data) :
    sent reads = [] := by
  rw [Patchram.sent, List.filterMap_eq_nil_iff]
  intro e he
  obtain ⟨i, len, l, rfl⟩ := h.1 e he
  rfl

/-! ### No signal -/

theorem deliver_quiet {w : World} (hsig : w.signals = []) : deliver w = (.ok (), w) := by
  have hrun : runHandler w.signals w = w := by
    rw [hsig, runHandler, ← hsig]
  simp [deliver, hrun]

theorem sys_quiet {α : Type} {call : Host α} {w : World} (hsig : w.signals = []) :
    sys call w = call w := by
  rw [sys, bind_ok (deliver_quiet hsig)]

theorem readUart_some {w : World} (hsig : w.signals = []) {i len : Int}
    {result : Arrival UInt8} {rest : List (Arrival UInt8)}
    (h : Arrivals.read len.toNat w.uart = some (result, rest)) :
    readUart i len w = (.ok result.count,
      { w with
        uart := rest
        buffer := Memory.store w.buffer i result.data
        io := w.io ++ [.readUart i len result] }) := by
  rw [readUart, sys_quiet hsig, get_bind_apply]
  simp only [h]
  rfl

theorem readUart_none {w : World} (hsig : w.signals = []) {i len : Int}
    (h : Arrivals.read len.toNat w.uart = none) : readUart i len w = (.error .waiting, w) := by
  rw [readUart, sys_quiet hsig, get_bind_apply]
  simp only [h]
  rfl

/-! ### Reading a given number of bytes -/

/-- `t` is `w` after successful reads that stored `data` from `buffer[i]` on. Read
boundaries behind `data` are where they were. -/
structure Took (i : Int) (data : List UInt8) (w t : World) : Prop where
  state : t = { w with uart := t.uart, buffer := Memory.store w.buffer i data, io := t.io }
  stream : stream w.uart = data ++ stream t.uart
  positive : Positive t.uart
  reads : ∃ reads, t.io = w.io ++ reads ∧ Reads reads data
  cut : ∀ k, 0 < k → (Cut w.uart (data.length + k) ↔ Cut t.uart k)

namespace Took

theorem nil (i : Int) {w : World} (hpos : Positive w.uart) : Took i [] w w :=
  ⟨by simp, by simp, hpos, ⟨[], by simp, .nil⟩, by simp⟩

theorem append {i : Int} {a b : List UInt8} {w u t : World} (first : Took i a w u)
    (second : Took (i + a.length) b u t) : Took i (a ++ b) w t := by
  obtain ⟨r₁, hr₁, h₁⟩ := first.reads
  obtain ⟨r₂, hr₂, h₂⟩ := second.reads
  refine ⟨?_, ?_, second.positive, ⟨r₁ ++ r₂, ?_, h₁.append h₂⟩, ?_⟩
  · rw [second.state, first.state]
    simp only [Memory.store_store_append]
  · rw [first.stream, second.stream, List.append_assoc]
  · rw [hr₂, hr₁, List.append_assoc]
  · intro k hk
    rw [List.length_append, Nat.add_assoc, first.cut _ (by omega), second.cut k hk]

theorem signals {i : Int} {data : List UInt8} {w t : World} (h : Took i data w t) :
    t.signals = w.signals := by
  rw [h.state]

theorem buffer {i : Int} {data : List UInt8} {w t : World} (h : Took i data w t) :
    t.buffer = Memory.store w.buffer i data := by
  rw [h.state]

/-- A single read that transfers `l` and leaves `rest` to come. -/
theorem one {w : World} {i len : Int} {l : List UInt8} {rest : List (Arrival UInt8)}
    (hstream : Arrivals.stream w.uart = l ++ Arrivals.stream rest) (hpos : Positive rest)
    (hcut : ∀ k, 0 < k → (Cut w.uart (l.length + k) ↔ Cut rest k)) :
    Took i l w
      { w with
        uart := rest
        buffer := Memory.store w.buffer i l
        io := w.io ++ [.readUart i len (.bytes l)] } :=
  ⟨rfl, hstream, hpos, ⟨_, rfl, .one i len l⟩, hcut⟩

end Took

/-- A read of nothing returns at once and takes nothing. -/
theorem readUart_zero {w : World} (hsig : w.signals = []) (hpos : Positive w.uart) (i : Int) :
    ∃ t, readUart i 0 w = (.ok 0, t) ∧ Took i [] w t := by
  have hread : Arrivals.read (0 : Int).toNat w.uart = some (.bytes [], w.uart) := by
    cases huart : w.uart with
    | nil => rfl
    | cons a rest =>
        cases a with
        | error => simp [huart] at hpos
        | bytes l =>
            have hl : l ≠ [] := (positive_bytes.mp (huart ▸ hpos)).1
            simp [Arrivals.read, hl]
  exact ⟨_, readUart_some hsig hread, Took.one (by simp) hpos (by simp)⟩

/-- A read of something, when something arrives, takes a first part of it. -/
theorem readUart_positive {w : World} (hsig : w.signals = []) (hpos : Positive w.uart)
    (hne : w.uart ≠ []) (i : Int) {n : Nat} (hn : 0 < n) :
    ∃ l t, readUart i n w = (.ok l.length, t) ∧ Took i l w t ∧ l ≠ [] ∧ l.length ≤ n ∧
      (l.length < n → t.uart.length < w.uart.length ∧ Cut w.uart l.length) ∧
      ∀ k, 0 < k → k < l.length → ¬ Cut w.uart k := by
  obtain ⟨l, rest, hread, hl, hle, hstream, hrest, hshort, hwhole, hcut⟩ :=
    read_positive hpos hne hn
  have hread' : Arrivals.read (n : Int).toNat w.uart = some (.bytes l, rest) := by
    rw [Int.toNat_natCast]
    exact hread
  exact ⟨l, _, readUart_some hsig hread', Took.one hstream hrest hcut, hl, hle, hshort, hwhole⟩

/-- Enough bytes arrive: the loop takes exactly the first `n`, wherever the reads fall. -/
theorem readLoop_returns {fuel : Nat} {w : World} (hsig : w.signals = [])
    (hpos : Positive w.uart) (hfuel : w.uart.length < fuel) (i : Int) {n : Nat}
    (hn : n ≤ (stream w.uart).length) :
    ∃ k c t, readLoop fuel i n w = (.ok (k, c), t) ∧ k + c = i + n ∧
      Took i ((stream w.uart).take n) w t := by
  induction fuel generalizing w i n with
  | zero => omega
  | succ fuel ih =>
      rw [readLoop]
      obtain rfl | hpositive := Nat.eq_zero_or_pos n
      · obtain ⟨t, hread, htook⟩ := readUart_zero hsig hpos i
        refine ⟨i, 0, t, (bind_ok hread).trans ?_, by simp, by simpa using htook⟩
        rw [if_neg (by simp)]
        rfl
      · have hne : w.uart ≠ [] := by
          intro h
          simp [h] at hn
          omega
        obtain ⟨l, u, hread, htook, _, hle, hshort, _⟩ :=
          readUart_positive hsig hpos hne i hpositive
        rw [bind_ok hread]
        by_cases hlt : l.length < n
        · have hstream := htook.stream
          have hrest : n - l.length ≤ (stream u.uart).length := by
            rw [hstream, List.length_append] at hn
            omega
          obtain ⟨k, c, t, hloop, hkc, hrestTook⟩ := ih (htook.signals.trans hsig) htook.positive
            (by have := (hshort hlt).1; omega) (i + l.length) hrest
          have hdiff : ((n : Int) - l.length) = ((n - l.length : Nat) : Int) := by omega
          refine ⟨k, c, t, ?_, by omega, ?_⟩
          · rw [if_pos (by omega), hdiff]
            exact hloop
          · have hsplit : (stream w.uart).take n = l ++ (stream u.uart).take (n - l.length) := by
              rw [hstream, List.take_append, List.take_of_length_le hle]
            rw [hsplit]
            exact htook.append hrestTook
        · have hlen : l.length = n := by omega
          refine ⟨i, l.length, u, ?_, by omega, ?_⟩
          · rw [if_neg (by omega)]
            rfl
          · have hall : (stream w.uart).take n = l := by
              rw [htook.stream, ← hlen, List.take_left]
            rw [hall]
            exact htook

/-- Too little arrives: the loop takes all of it and then waits. -/
theorem readLoop_waits {fuel : Nat} {w : World} (hsig : w.signals = [])
    (hpos : Positive w.uart) (hfuel : w.uart.length < fuel) (i : Int) {n : Nat}
    (hn : (stream w.uart).length < n) :
    ∃ t, readLoop fuel i n w = (.error .waiting, t) ∧ Took i (stream w.uart) w t := by
  induction fuel generalizing w i n with
  | zero => omega
  | succ fuel ih =>
      rw [readLoop]
      by_cases hnil : w.uart = []
      · have hread : Arrivals.read (n : Int).toNat w.uart = none := by
          have hn0 : n ≠ 0 := by omega
          simp [hnil, Arrivals.read, hn0]
        refine ⟨w, bind_error (readUart_none hsig hread), ?_⟩
        simpa [hnil] using Took.nil i hpos
      · obtain ⟨l, u, hread, htook, _, hle, hshort, _⟩ :=
          readUart_positive hsig hpos hnil i (show 0 < n by omega)
        have hstream := htook.stream
        have hlt : l.length < n := by
          rw [hstream, List.length_append] at hn
          omega
        have hrest : (stream u.uart).length < n - l.length := by
          rw [hstream, List.length_append] at hn
          omega
        obtain ⟨t, hloop, hrestTook⟩ := ih (htook.signals.trans hsig) htook.positive
          (by have := (hshort hlt).1; omega) (i + l.length) hrest
        have hdiff : ((n : Int) - l.length) = ((n - l.length : Nat) : Int) := by omega
        refine ⟨t, ?_, ?_⟩
        · rw [bind_ok hread, if_pos (by omega), hdiff]
          exact hloop
        · rw [hstream]
          exact htook.append hrestTook

theorem readFull_returns {w : World} (hsig : w.signals = []) (hpos : Positive w.uart) (i : Int)
    {n : Nat} (hn : n ≤ (stream w.uart).length) :
    ∃ k c t, readFull i n w = (.ok (k, c), t) ∧ k + c = i + n ∧
      Took i ((stream w.uart).take n) w t :=
  readLoop_returns hsig hpos (Nat.lt_succ_self _) i hn

theorem readFull_waits {w : World} (hsig : w.signals = []) (hpos : Positive w.uart) (i : Int)
    {n : Nat} (hn : (stream w.uart).length < n) :
    ∃ t, readFull i n w = (.error .waiting, t) ∧ Took i (stream w.uart) w t :=
  readLoop_waits hsig hpos (Nat.lt_succ_self _) i hn

/-! ### Reading an event -/

/-- A stream with an event in front: `read_event` takes that event and no more, and
leaves it at the start of the buffer. -/
theorem readEvent_returns {w : World} (hsig : w.signals = []) (hpos : Positive w.uart)
    {e : Block} {rest : List UInt8} (hstream : stream w.uart = e.encode ++ rest) :
    ∃ u, readEvent w = (.ok (), { u with io := u.io ++ [.event e.encode] }) ∧
      Took 0 e.encode w u ∧ stream u.uart = rest := by
  have henc : e.encode = [e.first, e.second, e.size] ++ e.payload := rfl
  have hlen : (stream w.uart).length = e.payload.length + 3 + rest.length := by
    rw [hstream, List.length_append, Block.length_encode]
  obtain ⟨k, c, u, hhead, hkc, htook⟩ := readFull_returns hsig hpos 0 (n := 3) (by omega)
  have htake : (stream w.uart).take 3 = [e.first, e.second, e.size] := by
    rw [hstream, henc]
    rfl
  rw [htake] at htook
  have htail : stream u.uart = e.payload ++ rest := by
    have h := htook.stream
    rw [hstream, henc, List.append_assoc] at h
    exact (List.append_cancel_left h).symm
  have hsize : u.buffer 2 = e.size := by
    rw [htook.buffer]
    exact Memory.store_inside w.buffer 0 [e.first, e.second, e.size] (k := 2) (by simp)
  obtain ⟨k', c', t, hbody, hkc', htook'⟩ := readFull_returns (htook.signals.trans hsig)
    htook.positive (k + c) (n := e.payload.length) (by rw [htail, List.length_append]; omega)
  rw [htail, List.take_left, show k + c = (0 : Int) + [e.first, e.second, e.size].length by
    simp; omega] at htook'
  have hall : Took 0 e.encode w t := htook.append htook'
  refine ⟨t, ?_, hall, ?_⟩
  · rw [readEvent, bind_ok (show readFull 0 3 w = (.ok (k, c), u) from hhead)]
    simp only [gets_bind_apply, hsize, Block.toNat_size]
    rw [bind_ok hbody]
    have hcount : (c' + k').toNat = e.encode.length := by
      rw [Block.length_encode]
      omega
    have hslice : Memory.slice t.buffer 0 (c' + k').toNat = e.encode := by
      rw [hcount, hall.buffer, Memory.slice_store rfl]
    rw [gets_bind_apply, hslice]
    rfl
  · have h := hall.stream
    rw [hstream] at h
    exact (List.append_cancel_left h).symm

/-- A stream that ends before an event does: `read_event` takes it all and waits. -/
theorem readEvent_waits {w : World} (hsig : w.signals = []) (hpos : Positive w.uart)
    (hnone : Block.decode (stream w.uart) = none) :
    ∃ t, readEvent w = (.error .waiting, t) ∧ Took 0 (stream w.uart) w t := by
  by_cases hshort : (stream w.uart).length < 3
  · obtain ⟨t, hhead, htook⟩ := readFull_waits hsig hpos 0 hshort
    exact ⟨t, bind_error (show readFull 0 3 w = (.error .waiting, t) from hhead), htook⟩
  · obtain ⟨k, c, u, hhead, hkc, htook⟩ := readFull_returns hsig hpos 0 (n := 3) (by omega)
    obtain ⟨a, b, n, tail, hstream⟩ : ∃ a b n tail, stream w.uart = a :: b :: n :: tail := by
      match hs : stream w.uart with
      | [] | [_] | [_, _] => simp [hs] at hshort
      | a :: b :: n :: tail => exact ⟨a, b, n, tail, rfl⟩
    have htake : (stream w.uart).take 3 = [a, b, n] := by
      rw [hstream]
      rfl
    rw [htake] at htook
    have htail : stream u.uart = tail := by
      have h : [a, b, n] ++ tail = [a, b, n] ++ stream u.uart := hstream.symm.trans htook.stream
      exact (List.append_cancel_left h).symm
    have hsize : u.buffer 2 = n := by
      rw [htook.buffer]
      exact Memory.store_inside w.buffer 0 [a, b, n] (k := 2) (by simp)
    have hless : (stream u.uart).length < n.toNat := by
      rw [hstream, Block.decode] at hnone
      rw [htail]
      by_contra hle
      simp [Nat.le_of_not_lt hle] at hnone
    obtain ⟨t, hbody, htook'⟩ := readFull_waits (htook.signals.trans hsig) htook.positive
      (k + c) hless
    rw [show k + c = (0 : Int) + [a, b, n].length by simp; omega] at htook'
    refine ⟨t, ?_, ?_⟩
    · rw [readEvent, bind_ok (show readFull 0 3 w = (.ok (k, c), u) from hhead)]
      simp only [gets_bind_apply, hsize]
      rw [bind_error hbody]
    · have hsplit : stream w.uart = [a, b, n] ++ stream u.uart := by
        rw [hstream, htail]
        rfl
      rw [hsplit]
      exact htook.append htook'

end Patchram
