import SystemBluetooth.Patchram.Event

/-!
# The conversation with the controller

A run of the host, seen from the UART, is a list of messages: commands written, events
read, and bytes read outside an event. `Dialogue ms io` says that the system calls `io`
carry exactly the messages `ms`, in this order, the bytes of each message complete
before the next one begins.

`answers` is what the host must do on a given stream, with no buffer, no file and no
read boundaries: it writes its commands in turn and takes one event after each, and
waits at the first event the stream does not have.
-/

namespace Patchram

open Effect Arrivals

inductive Message where
  | command (frame : List UInt8)
  | event (received : List UInt8)
  | stray (received : List UInt8)
  deriving DecidableEq

/-- The bytes a message takes from the UART. -/
def Message.bytes : Message → List UInt8
  | command _ => []
  | event received => received
  | stray received => received

def Message.frame : Message → Option (List UInt8)
  | command frame => some frame
  | _ => none

/-- Neither a command nor bytes from the UART. -/
def Io.Silent : Io → Prop
  | .write .. => False
  | .readUart .. => False
  | .event _ => False
  | _ => True

inductive Dialogue : List Message → List Io → Prop where
  | nil : Dialogue [] []
  | silent {e ms io} (quiet : e.Silent) (rest : Dialogue ms io) : Dialogue ms (e :: io)
  | command {frame ms io} (rest : Dialogue ms io) :
      Dialogue (.command frame :: ms) (.write .main frame frame.length :: io)
  | event {data reads ms io} (delivers : Reads reads data) (rest : Dialogue ms io) :
      Dialogue (.event data :: ms) (reads ++ .event data :: io)
  | stray {data reads ms io} (delivers : Reads reads data) (rest : Dialogue ms io) :
      Dialogue (.stray data :: ms) (reads ++ io)

namespace Dialogue

theorem append {ms₁ ms₂ : List Message} {io₁ io₂ : List Io} (h₁ : Dialogue ms₁ io₁)
    (h₂ : Dialogue ms₂ io₂) : Dialogue (ms₁ ++ ms₂) (io₁ ++ io₂) := by
  induction h₁ with
  | nil => exact h₂
  | silent hs _ ih => exact .silent hs ih
  | command _ ih => exact .command ih
  | event hr _ ih => simpa [List.append_assoc] using Dialogue.event hr ih
  | stray hr _ ih => simpa [List.append_assoc] using Dialogue.stray hr ih

/-- The frames on the wire are those of the commands. -/
theorem sent {ms : List Message} {io : List Io} (h : Dialogue ms io) :
    sent io = ms.filterMap Message.frame := by
  induction h with
  | nil => rfl
  | @silent e _ _ hs _ ih =>
      cases e <;> first | exact hs.elim | exact ih
  | command _ ih =>
      rw [List.filterMap_cons]
      simp [Patchram.sent, Io.sent, Message.frame, ← ih]
  | event hr _ ih =>
      rw [sent_append, hr.sent]
      exact ih
  | stray hr _ ih =>
      rw [sent_append, hr.sent]
      exact ih

/-- The bytes read are those of the messages. -/
theorem received {ms : List Message} {io : List Io} (h : Dialogue ms io) :
    received io = ms.flatMap Message.bytes := by
  induction h with
  | nil => rfl
  | @silent e _ _ hs _ ih =>
      cases e <;> first | exact hs.elim | exact ih
  | command _ ih => exact ih
  | event hr _ ih =>
      rw [received_append, hr.2, List.flatMap_cons, ← ih]
      rfl
  | stray hr _ ih =>
      rw [received_append, hr.2, List.flatMap_cons, ← ih]
      rfl

end Dialogue

/-! ### Ordinary runs -/

/-- Nothing unusual is ahead: no signal, file reads that are full unless the file ends,
complete writes, and UART reads that deliver something. -/
structure Ordinary (w : World) : Prop where
  signals : w.signals = []
  fileReads : w.fileReads = []
  writes : w.writes = []
  positive : Positive w.uart

/-- `t` follows on `w` after the messages `ms`. -/
structure After (ms : List Message) (w t : World) : Prop where
  ordinary : Ordinary t
  config : t.config = w.config
  stream : stream w.uart = ms.flatMap Message.bytes ++ stream t.uart
  dialogue : ∃ new, t.io = w.io ++ new ∧ Dialogue ms new
  cut : ∀ k, 0 < k → (Cut w.uart ((ms.flatMap Message.bytes).length + k) ↔ Cut t.uart k)

theorem After.trans {ms₁ ms₂ : List Message} {w u t : World} (h₁ : After ms₁ w u)
    (h₂ : After ms₂ u t) : After (ms₁ ++ ms₂) w t := by
  obtain ⟨n₁, hn₁, hd₁⟩ := h₁.dialogue
  obtain ⟨n₂, hn₂, hd₂⟩ := h₂.dialogue
  refine ⟨h₂.ordinary, h₂.config.trans h₁.config, ?_, ⟨n₁ ++ n₂, ?_, hd₁.append hd₂⟩, ?_⟩
  · rw [h₁.stream, h₂.stream, List.flatMap_append, List.append_assoc]
  · rw [hn₂, hn₁, List.append_assoc]
  · intro k hk
    rw [List.flatMap_append, List.length_append, Nat.add_assoc, h₁.cut _ (by omega),
      h₂.cut k hk]

/-- How a host computation ends that follows the given messages: it returns if a rest of
the stream is named, and otherwise it waits. -/
def Converses (c : Host Unit) (w : World) (ms : List Message) : Option (List UInt8) → Prop
  | some rest => ∃ t, c w = (.ok (), t) ∧ After ms w t ∧ Arrivals.stream t.uart = rest
  | none => ∃ t new, c w = (.error .waiting, t) ∧ t.io = w.io ++ new ∧ Dialogue ms new

/-- Continue from a state that follows on the first after some messages. -/
theorem Converses.after {c d : Host Unit} {w u : World} {ms₁ ms₂ : List Message}
    {rest : Option (List UInt8)} (heq : c w = d u) (h : After ms₁ w u)
    (hd : Converses d u ms₂ rest) : Converses c w (ms₁ ++ ms₂) rest := by
  cases rest with
  | some rest =>
      obtain ⟨t, ht, hafter, hrest⟩ := hd
      exact ⟨t, heq.trans ht, h.trans hafter, hrest⟩
  | none =>
      obtain ⟨t, new, ht, hnew, hdial⟩ := hd
      obtain ⟨n₁, hn₁, hd₁⟩ := h.dialogue
      exact ⟨t, n₁ ++ new, heq.trans ht, by rw [hnew, hn₁, List.append_assoc],
        hd₁.append hdial⟩

/-- What the host does with the frames `fs` on a stream: the messages, and the rest of
the stream if it gets to the end. -/
def answers : List (List UInt8) → List UInt8 → List Message × Option (List UInt8)
  | [], s => ([], some s)
  | f :: fs, s =>
      match Block.decode s with
      | some (e, rest) =>
          (.command f :: .event e.encode :: (answers fs rest).1, (answers fs rest).2)
      | none => ([.command f, .stray s], none)

/-- As many events as commands: every command gets its event. -/
theorem answers_encode (fs : List (List UInt8)) (es : List Block) (rest : List UInt8)
    (hlen : fs.length = es.length) :
    answers fs (es.flatMap Block.encode ++ rest) =
      ((fs.zip es).flatMap fun p => [.command p.1, .event p.2.encode], some rest) := by
  induction fs generalizing es with
  | nil =>
      obtain rfl : es = [] := List.length_eq_zero_iff.mp hlen.symm
      rfl
  | cons f fs ih =>
      cases es with
      | nil => simp at hlen
      | cons e es =>
          rw [List.flatMap_cons, List.append_assoc, answers, Block.decode_encode]
          simp [ih es (by simpa using hlen)]

/-- The commands of a conversation in which every command gets its event. -/
theorem frames_zip (fs : List (List UInt8)) (es : List Block) (hlen : fs.length = es.length) :
    ((fs.zip es).flatMap fun p => [.command p.1, .event p.2.encode]).filterMap Message.frame =
      fs := by
  induction fs generalizing es with
  | nil => rfl
  | cons f fs ih =>
      cases es with
      | nil => simp at hlen
      | cons e es =>
          have hrest := ih es (by simpa using hlen)
          rw [List.zip_cons_cons, List.flatMap_cons, List.filterMap_append, hrest]
          rfl

/-! ### One command and its event -/

/-- Bytes that are one message have been read, and recorded as such. -/
theorem Took.after {i : Int} {m : Message} {w t : World} (h : Took i m.bytes w t)
    (hw : Ordinary w) {new : List Io} (hnew : Dialogue [m] new) :
    After [m] w { t with io := w.io ++ new } := by
  have hbytes : [m].flatMap Message.bytes = m.bytes := by simp
  refine ⟨⟨h.signals.trans hw.signals, ?_, ?_, h.positive⟩, ?_, ?_, ⟨new, rfl, hnew⟩, ?_⟩
  · rw [h.state]
    exact hw.fileReads
  · rw [h.state]
    exact hw.writes
  · rw [h.state]
  · rw [hbytes]
    exact h.stream
  · rw [hbytes]
    exact h.cut

theorem readEvent_answered {w : World} (hw : Ordinary w) {e : Block} {rest : List UInt8}
    (hstream : stream w.uart = e.encode ++ rest) :
    ∃ t, readEvent w = (.ok (), t) ∧ After [.event e.encode] w t ∧ stream t.uart = rest ∧
      t.file = w.file := by
  obtain ⟨u, hread, htook, hrest⟩ := readEvent_returns hw.signals hw.positive hstream
  obtain ⟨reads, hio, hreads⟩ := htook.reads
  have hafter := Took.after (m := .event e.encode) htook hw (.event hreads .nil)
  rw [hio, List.append_assoc] at hread
  exact ⟨_, hread, hafter, hrest, by rw [htook.state]⟩

theorem readEvent_unanswered {w : World} (hw : Ordinary w)
    (hnone : Block.decode (stream w.uart) = none) :
    Converses readEvent w [.stray (stream w.uart)] none := by
  obtain ⟨t, hread, htook⟩ := readEvent_waits hw.signals hw.positive hnone
  obtain ⟨reads, hio, hreads⟩ := htook.reads
  exact ⟨t, reads ++ [], hread, by simp [hio], .stray hreads .nil⟩

/-- The state in which the host waits for the answer to the command `f`. -/
theorem After.sends {w : World} (hw : Ordinary w) (f : List UInt8) :
    ∃ v, sys (hciSendCmd .main f) w = (.ok (), v) ∧ After [.command f] w v ∧
      v.file = w.file := by
  have hsend : sys (hciSendCmd .main f) w =
      (.ok (), { w with io := w.io ++ [.write .main f f.length] }) := by
    rw [sys_quiet hw.signals, hciSendCmd, modify_apply, hw.writes, List.tail_nil, ← hw.writes]
    simp [hw.writes]
  exact ⟨_, hsend, ⟨⟨hw.signals, hw.fileReads, hw.writes, hw.positive⟩, rfl,
    by simp [Message.bytes], ⟨_, rfl, .command .nil⟩, by simp [Message.bytes]⟩, rfl⟩

theorem exchange_returns {w : World} (hw : Ordinary w) (f : List UInt8) {e : Block}
    {rest : List UInt8} (hstream : stream w.uart = e.encode ++ rest) :
    ∃ t, exchange f w = (.ok (), t) ∧ After [.command f, .event e.encode] w t ∧
      stream t.uart = rest ∧ t.file = w.file := by
  obtain ⟨v, hsend, hafter, hfile⟩ := After.sends hw f
  have hv : stream v.uart = e.encode ++ rest := hafter.stream.symm.trans hstream
  obtain ⟨t, hread, hevent, hrest, hfile'⟩ := readEvent_answered hafter.ordinary hv
  exact ⟨t, (bind_ok hsend).trans hread, hafter.trans hevent, hrest, hfile'.trans hfile⟩

/-- After a command, on any stream: either the host gets the event in front and goes on,
or it waits. -/
theorem command_converses {c next : Host Unit} {w v : World} {f : List UInt8}
    {fs : List (List UInt8)} (heq : c w = (readEvent >>= fun _ => next) v)
    (hsent : After [.command f] w v)
    (hnext : ∀ t, Ordinary t → t.config = w.config → t.file = v.file →
      Converses next t (answers fs (stream t.uart)).1 (answers fs (stream t.uart)).2) :
    Converses c w (answers (f :: fs) (stream w.uart)).1
      (answers (f :: fs) (stream w.uart)).2 := by
  have hstream : stream v.uart = stream w.uart := hsent.stream.symm
  cases hdecode : Block.decode (stream w.uart) with
  | none =>
      have hwait := readEvent_unanswered hsent.ordinary (hstream ▸ hdecode)
      rw [hstream] at hwait
      obtain ⟨t, new, hread, hio, hdial⟩ := hwait
      obtain ⟨n, hn, hd⟩ := hsent.dialogue
      simp only [answers, hdecode]
      exact ⟨t, n ++ new, heq.trans (bind_error hread), by rw [hio, hn, List.append_assoc],
        hd.append hdial⟩
  | some r =>
      obtain ⟨e, rest⟩ := r
      obtain ⟨t, hread, hevent, hrest, hfile⟩ := readEvent_answered hsent.ordinary
        (hstream.trans (Block.encode_of_decode hdecode))
      have htail := hnext t hevent.ordinary (hevent.config.trans hsent.config) hfile
      rw [hrest] at htail
      simp only [answers, hdecode]
      exact Converses.after (heq.trans (bind_ok hread)) (hsent.trans hevent) htail

theorem exchange_converses {w : World} (hw : Ordinary w) (f : List UInt8)
    (next : Host Unit) (fs : List (List UInt8))
    (hnext : ∀ t, Ordinary t → t.config = w.config → t.file = w.file →
      Converses next t (answers fs (stream t.uart)).1 (answers fs (stream t.uart)).2) :
    Converses (exchange f >>= fun _ => next) w (answers (f :: fs) (stream w.uart)).1
      (answers (f :: fs) (stream w.uart)).2 := by
  obtain ⟨v, hsend, hafter, hfile⟩ := After.sends hw f
  refine command_converses ?_ hafter (fun t ht hc hf => hnext t ht hc (hf.trans hfile))
  rw [exchange, bind_assoc, bind_ok hsend]

/-- Nothing is left to do. -/
theorem Converses.done {c : Host Unit} {w t : World} (hc : c w = (.ok (), t))
    (h : After [] w t) : Converses c w (answers [] (stream w.uart)).1
      (answers [] (stream w.uart)).2 :=
  ⟨t, hc, h, h.stream.symm⟩

end Patchram
