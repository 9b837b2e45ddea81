import SystemBluetooth.Patchram.FileBytes
import SystemBluetooth.Patchram.Turns
import Mathlib.Data.List.Induction

/-!
# Commands and their events

A controller answers the commands it receives one after the other, each with one event
and after any delay, on a line that delivers bytes in order; behind the event of the minidriver
command it may send a confirmation, which the host takes in one read. `Plays c io c'` says that
the system calls `io` can happen while such a controller goes from `c` to `c'`.

As long as the handler has not written a command, the host takes turns with it: at every
command of the main flow everything it has sent has been read, and the event read after a
command is the answer to that command. A reset that the handler repeats is answered as
well, and no one reads that answer; from then on each command is paired with the event of
an earlier one.
-/

namespace Patchram

open Effect

structure Controller where
  /-- Commands received, and bytes sent, that the other side has yet to react to. -/
  unanswered : List (List UInt8)
  line : List UInt8
  /-- All commands answered so far, with the events. -/
  log : List (List UInt8 × Block)

def Controller.start : Controller := ⟨[], [], []⟩

/-- Everything received is answered, and everything sent is read. -/
def Controller.Settled (c : Controller) : Prop := c.unanswered = [] ∧ c.line = []

inductive Plays : Controller → List Io → Controller → Prop where
  | nil {c} : Plays c [] c
  | answer {c f rest io c'} (e : Block) (first : c.unanswered = f :: rest)
      (later : Plays ⟨rest, c.line ++ e.encode, c.log ++ [(f, e)]⟩ io c') : Plays c io c'
  | write {c caller frame io c'}
      (later : Plays { c with unanswered := c.unanswered ++ [frame] } io c') :
      Plays c (.write caller frame frame.length :: io) c'
  | read {c l rest i len io c'} (front : c.line = l ++ rest)
      (later : Plays { c with line := rest } io c') :
      Plays c (.readUart i len (.bytes l) :: io) c'
  | event {c data io c'} (later : Plays c io c') : Plays c (.event data :: io) c'
  | confirm {c data l i len io c'}
      (minidriver : c.log.getLast?.map Prod.fst = some hciDownloadMinidriver)
      (later : Plays c io c') : Plays c (.event data :: .readUart i len (.bytes l) :: io) c'
  | silent {c e io c'} (quiet : e.Silent) (later : Plays c io c') : Plays c (e :: io) c'

/-- What the phase of the host says about the controller, while the handler is silent. -/
def Phase.Fits : Phase → Controller → Prop
  | .idle, c => c.Settled
  | .awaiting f got, c =>
      got = [] ∧ c.unanswered = [f] ∧ c.line = [] ∨
        c.unanswered = [] ∧ ∃ earlier e, c.log = earlier ++ [(f, e)] ∧ got ++ c.line = e.encode
  | .free, _ => False
  | .bad, _ => True

/-- Two blocks at the front of the same bytes are the same. -/
theorem encode_of_front {e : Block} {got rest : List UInt8} (h : got ++ rest = e.encode)
    (hgot : (Block.decode got).map Prod.snd = some []) : got = e.encode ∧ rest = [] := by
  rw [Option.map_eq_some_iff] at hgot
  obtain ⟨⟨b, tail⟩, hdecode, rfl⟩ := hgot
  have hb : got = b.encode := by simpa using Block.encode_of_decode hdecode
  have hall := Block.decode_encode e []
  rw [List.append_nil, ← h, hb, Block.decode_encode] at hall
  obtain ⟨rfl, rfl⟩ : b = e ∧ rest = [] := by simpa using hall
  exact ⟨hb, rfl⟩

theorem Phase.next_silent {p : Phase} {e : Io} (h : e.Silent) : p.next e = p := by
  cases e <;> first | exact h.elim | cases p <;> rfl

section Steps

variable {p : Phase} {c : Controller}

theorem Phase.Fits.answer {f : List UInt8} {rest : List (List UInt8)} (h : p.Fits c)
    (first : c.unanswered = f :: rest) (e : Block) :
    p.Fits ⟨rest, c.line ++ e.encode, c.log ++ [(f, e)]⟩ := by
  cases p with
  | idle => simp [h.1] at first
  | free => exact h
  | bad => trivial
  | awaiting g got =>
      obtain ⟨rfl, hun, hline⟩ | ⟨hun, _⟩ := h
      · obtain ⟨rfl, rfl⟩ : g = f ∧ [] = rest := by simpa [hun] using first
        exact Or.inr ⟨rfl, c.log, e, rfl, by simp [hline]⟩
      · simp [hun] at first

theorem Phase.Fits.write (h : p.Fits c) (frame : List UInt8) :
    (p.next (.write .main frame frame.length)).Fits
      { c with unanswered := c.unanswered ++ [frame] } := by
  cases p with
  | idle =>
      have hnext : Phase.next .idle (.write .main frame frame.length) = .awaiting frame [] :=
        if_pos rfl
      rw [hnext]
      exact Or.inl ⟨rfl, by simp [h.1], h.2⟩
  | free => exact h
  | bad => trivial
  | awaiting g got => trivial

theorem Phase.Fits.read {l rest : List UInt8} (h : p.Fits c) (front : c.line = l ++ rest)
    (i len : Int) : (p.next (.readUart i len (.bytes l))).Fits { c with line := rest } := by
  cases p with
  | idle =>
      obtain ⟨rfl, rfl⟩ : l = [] ∧ rest = [] := by simpa [h.2] using front.symm
      exact ⟨h.1, rfl⟩
  | free => exact h
  | bad => trivial
  | awaiting g got =>
      obtain ⟨rfl, hun, hline⟩ | ⟨hun, earlier, e, hlog, henc⟩ := h
      · obtain ⟨rfl, rfl⟩ : l = [] ∧ rest = [] := by simpa [hline] using front.symm
        exact Or.inl ⟨rfl, hun, rfl⟩
      · refine Or.inr ⟨hun, earlier, e, hlog, ?_⟩
        rw [List.append_assoc, ← front]
        exact henc

/-- The event taken is all that the controller has sent. -/
theorem Phase.Fits.event (h : p.Fits c) (data : List UInt8) : (p.next (.event data)).Fits c := by
  cases p with
  | idle => trivial
  | free => exact h
  | bad => trivial
  | awaiting g got =>
      by_cases hdata : data = got ∧ (Block.decode got).map Prod.snd = some []
      · have hnext : Phase.next (.awaiting g got) (.event data) = .idle := if_pos hdata
        rw [hnext]
        obtain ⟨rfl, _, _⟩ | ⟨hun, earlier, e, hlog, henc⟩ := h
        · exact absurd hdata.2 (by simp [Block.decode])
        · exact ⟨hun, (encode_of_front henc hdata.2).2⟩
      · have hnext : Phase.next (.awaiting g got) (.event data) = .bad := if_neg hdata
        rw [hnext]
        trivial

/-- Behind an event, bytes that are no part of one change nothing. -/
theorem Phase.Fits.confirm (h : p.Fits c) (data : List UInt8) (i len : Int) (l : List UInt8) :
    ((p.next (.event data)).next (.readUart i len (.bytes l))).Fits c := by
  have hevent := h.event data
  cases hp : p.next (.event data) with
  | idle => rwa [hp] at hevent
  | free => rwa [hp] at hevent
  | bad => trivial
  | awaiting f got =>
      cases p with
      | awaiting g got' =>
          simp only [Phase.next] at hp
          split at hp <;> cases hp
      | _ => cases hp

end Steps

/-- The controller keeps to the phase of the host. -/
theorem Plays.fits {c c' : Controller} {io : List Io} (h : Plays c io c') {p : Phase}
    (hp : p.Fits c) (hquiet : ∀ frame count, .write .handler frame count ∉ io) :
    (Monitor.run Phase.next p io).Fits c' := by
  have htail {e : Io} {later : List Io} (h : ∀ f n, .write .handler f n ∉ e :: later) f n :
      .write .handler f n ∉ later := fun hmem => h f n (List.mem_cons_of_mem _ hmem)
  induction h generalizing p with
  | nil => exact hp
  | answer e first _ ih => exact ih (hp.answer first e) hquiet
  | @write c caller frame io c' _ ih =>
      rw [Monitor.run_cons]
      cases caller with
      | handler => exact absurd (List.mem_cons_self ..) (hquiet frame frame.length)
      | main => exact ih (hp.write frame) (htail hquiet)
  | read front _ ih =>
      rw [Monitor.run_cons]
      exact ih (hp.read front _ _) (htail hquiet)
  | event _ ih =>
      rw [Monitor.run_cons]
      exact ih (hp.event _) (htail hquiet)
  | confirm _ _ ih =>
      rw [Monitor.run_cons, Monitor.run_cons]
      exact ih (hp.confirm _ _ _ _) (htail (htail hquiet))
  | silent quiet _ ih =>
      rw [Monitor.run_cons, Phase.next_silent quiet]
      exact ih hp (htail hquiet)

/-! ### Runs of the program -/

def Io.mainFrame : Io → Option (List UInt8)
  | .write .main frame _ => some frame
  | _ => none

/-- The last command that the main flow has written. -/
def lastCommand (io : List Io) : Option (List UInt8) := (io.filterMap Io.mainFrame).getLast?

theorem lastCommand_append (io : List Io) (e : Io) :
    lastCommand (io ++ [e]) = e.mainFrame.or (lastCommand io) := by
  rw [lastCommand, List.filterMap_append]
  cases h : e.mainFrame <;> simp [lastCommand, h]

/-- A phase awaits the event of the command it was opened with, or awaited it before. -/
theorem Phase.awaiting_of_next {p : Phase} {e : Io} {f got : List UInt8}
    (h : p.next e = .awaiting f got) :
    e.mainFrame = some f ∨ e.mainFrame = none ∧ ∃ got', p = .awaiting f got' := by
  cases p with
  | bad => simp [Phase.next] at h
  | free => simp [Phase.next] at h
  | idle =>
      cases e with
      | write caller frame count =>
          cases caller with
          | handler => simp [Phase.next] at h
          | main =>
              simp only [Phase.next] at h
              split at h
              · left
                simp_all [Io.mainFrame]
              · simp at h
      | readUart i len result =>
          cases result with
          | error => simp [Phase.next] at h
          | bytes l => simp [Phase.next] at h
      | _ => simp [Phase.next] at h
  | awaiting g got' =>
      cases e with
      | write caller frame count => cases caller <;> simp [Phase.next] at h
      | readUart i len result => cases result <;> simp_all [Phase.next, Io.mainFrame]
      | event data =>
          simp only [Phase.next] at h
          split at h <;> simp at h
      | _ => simp_all [Phase.next, Io.mainFrame]

/-- The phase remembers the last command. -/
theorem lastCommand_of_awaiting {io : List Io} {f got : List UInt8}
    (h : Monitor.run Phase.next .idle io = .awaiting f got) : lastCommand io = some f := by
  induction io using List.reverseRecOn generalizing got with
  | nil => simp at h
  | append_singleton io e ih =>
      rw [Monitor.run_append] at h
      rw [lastCommand_append]
      obtain he | ⟨he, got', hp⟩ := Phase.awaiting_of_next h
      · rw [he]
        rfl
      · rw [he]
        exact ih hp

/-- What is required where the system call `e` follows `before`: at most one command is open,
a command of the main flow finds nothing open and nothing unread, and an event read is the
answer to the last command. -/
structure Paired (before : List Io) (e : Io) (c : Controller) : Prop where
  single : c.unanswered.length ≤ 1
  settled : ∀ frame count, e = .write .main frame count → c.Settled
  own : ∀ data, e = .event data → c.Settled ∧ ∃ f b earlier, lastCommand before = some f ∧
    c.log = earlier ++ [(f, b)] ∧ data = b.encode

/-- No alarm has expired. -/
def NoExpiry (io : List Io) : Prop := ∀ frame count, .write .handler frame count ∉ io

/-- A system call after which the phase is not bad is paired. -/
theorem Phase.Fits.paired {before : List Io} {e : Io} {c : Controller}
    (h : (Monitor.run Phase.next .idle before).Fits c)
    (hnext : Monitor.run Phase.next .idle (before ++ [e]) ≠ .bad) : Paired before e c := by
  rw [Monitor.run_append] at hnext
  cases hp : Monitor.run Phase.next .idle before with
  | bad => exact absurd (by rw [hp]; rfl) hnext
  | free =>
      rw [hp] at h
      exact h.elim
  | idle =>
      rw [hp] at h hnext
      refine ⟨by simp [h.1], fun _ _ _ => h, fun data he => ?_⟩
      exact absurd (by rw [he]; rfl) hnext
  | awaiting f got =>
      rw [hp] at h hnext
      refine ⟨?_, fun frame count he => ?_, fun data he => ?_⟩
      · rcases h with ⟨_, hun, _⟩ | ⟨hun, _⟩ <;> simp [hun]
      · exact absurd (by rw [he]; rfl) hnext
      · have hdata : data = got ∧ (Block.decode got).map Prod.snd = some [] := by
          by_contra hne
          rw [he] at hnext
          exact hnext (if_neg hne)
        obtain ⟨rfl, _, _⟩ | ⟨hun, earlier, b, hlog, henc⟩ := h
        · exact absurd hdata.2 (by simp [Block.decode])
        · have hfront := encode_of_front henc hdata.2
          exact ⟨⟨hun, hfront.2⟩, f, b, earlier, lastCommand_of_awaiting hp, hlog,
            hdata.1.trans hfront.1⟩

/-- Until an alarm has expired, every command and every event of a run is paired. -/
theorem program_paired {w : World} (hio : w.io = []) {before after : List Io} {e : Io}
    (h : (program w).2.io = before ++ e :: after) (hquiet : NoExpiry before) {c : Controller}
    (hplays : Plays .start before c) : Paired before e c := by
  have hresting : Resting w := Or.inl (by simp [phase, hio])
  have hsound : Sound (program w).2 :=
    wp_end (wp_mono (program_turns w hresting) (fun _ _ ht => ht.sound) fun _ _ ht => ht)
  have hnext : Monitor.run Phase.next .idle (before ++ [e]) ≠ .bad := by
    refine Phase.sink_bad.not_before (b := after) ?_
    rw [List.append_assoc, List.singleton_append, ← h]
    exact hsound
  exact (hplays.fits (p := .idle) ⟨rfl, rfl⟩ hquiet).paired hnext

/-- A file of two records, and a confirmation between the events. -/
def confirmed : World :=
  World.start { hcdfileFd := 5 }
    [.bytes emptyEvent.encode, .bytes emptyEvent.encode, .bytes [0xaa, 0xbb],
      .bytes emptyEvent.encode, .bytes emptyEvent.encode, .bytes emptyEvent.encode]
    [0x4c, 0xfc, 0x01, 0x7f, 0x4e, 0xfc, 0x00]

theorem program_paired_confirmed : ∃ before after c,
    (program confirmed).2.io = before ++ .event [0x0e, 0x00, 0x00] :: after ∧
      lastCommand before = some [0x01, 0x4e, 0xfc, 0x00] ∧
      Paired before (.event [0x0e, 0x00, 0x00]) c := by
  have hio : (program confirmed).2.io =
      [.tcsetattr 0, .tcsetattr 0, .tcsetattr B115200, .write .main hciReset 4, .alarm 4,
        .readUart 0 3 (.bytes [0x0e, 0x00, 0x00]), .readUart 3 0 (.bytes []),
        .event [0x0e, 0x00, 0x00], .alarm 0, .write .main hciDownloadMinidriver 4,
        .readUart 0 3 (.bytes [0x0e, 0x00, 0x00]), .readUart 3 0 (.bytes []),
        .event [0x0e, 0x00, 0x00], .readUart 0 2 (.bytes [0xaa, 0xbb]),
        .readFile 1 3 (.bytes [0x4c, 0xfc, 0x01]), .readFile 4 1 (.bytes [0x7f]),
        .write .main [0x01, 0x4c, 0xfc, 0x01, 0x7f] 5,
        .readUart 0 3 (.bytes [0x0e, 0x00, 0x00]), .readUart 3 0 (.bytes []),
        .event [0x0e, 0x00, 0x00],
        .readFile 1 3 (.bytes [0x4e, 0xfc, 0x00]), .readFile 4 0 (.bytes []),
        .write .main [0x01, 0x4e, 0xfc, 0x00] 4,
        .readUart 0 3 (.bytes [0x0e, 0x00, 0x00]), .readUart 3 0 (.bytes [])] ++
      .event [0x0e, 0x00, 0x00] :: (program confirmed).2.io.drop 26 := by decide +kernel
  refine ⟨_, _, ⟨[], [], [(hciReset, emptyEvent), (hciDownloadMinidriver, emptyEvent),
    ([0x01, 0x4c, 0xfc, 0x01, 0x7f], emptyEvent), ([0x01, 0x4e, 0xfc, 0x00], emptyEvent)]⟩,
    hio, rfl, program_paired rfl hio (by simp [NoExpiry]) ?_⟩
  have answered {c c' : Controller} {io : List Io} {f : List UInt8} (h : c.unanswered = [f])
      (hline : c.line = [])
      (later : Plays ⟨[], [], c.log ++ [(f, emptyEvent)]⟩ io c') :
      Plays c (.readUart 0 3 (.bytes [0x0e, 0x00, 0x00]) :: .readUart 3 0 (.bytes []) :: io) c' :=
    .answer emptyEvent h (.read (by rw [hline]; rfl) (.read rfl later))
  refine .silent trivial (.silent trivial (.silent trivial (.write (.silent trivial ?_))))
  refine answered rfl rfl (.event (.silent trivial (.write (answered rfl rfl ?_))))
  refine .confirm rfl (.silent trivial (.silent trivial (.write (answered rfl rfl ?_))))
  exact .event (.silent trivial (.silent trivial (.write (answered rfl rfl .nil))))

/-- The alarm expires once before the event of the first reset is read. -/
def expiring : World :=
  { World.start { bdaddrFlag := true } (List.replicate 3 (.bytes emptyEvent.encode)) [] with
    signals := [true] }

/-- When the address is written, the repeated reset is still to be answered. -/
theorem program_expiring : ∃ before after frame count c,
    (program expiring).2.io = before ++ .write .main frame count :: after ∧
      Plays .start before c ∧ ¬ c.Settled := by
  refine ⟨[.tcsetattr 0, .tcsetattr 0, .tcsetattr B115200, .write .main hciReset 4, .alarm 4,
    .write .handler hciReset 4, .alarm 4, .readUart 0 3 (.bytes [0x0e, 0x00, 0x00]),
    .readUart 3 0 (.bytes []), .event [0x0e, 0x00, 0x00], .alarm 0],
    (program expiring).2.io.drop 12, expiring.config.hciWriteBdAddr, 10,
    ⟨[hciReset], [], [(hciReset, emptyEvent)]⟩, by decide, ?_, fun h => nomatch h.1⟩
  refine .silent trivial (.silent trivial (.silent trivial (.write (.silent trivial ?_))))
  refine .write (.silent trivial (.answer emptyEvent rfl ?_))
  exact .read rfl (.read rfl (.event (.silent trivial .nil)))

end Patchram
