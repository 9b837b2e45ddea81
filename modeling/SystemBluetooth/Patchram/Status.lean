import SystemBluetooth.Library.Monitor
import SystemBluetooth.Patchram.Dialogue
import SystemBluetooth.Patchram.Handler
import SystemBluetooth.Patchram.Settings

/-!
# What exit status 0 says

Nothing in the program looks at the count of a write or at the content of an event, so
`main` comes to `exit(0)` by going through all its steps. It does so if an event comes for
every command, whatever the event says: the run is `Fed`. Whether the controller has been
programmed then is up to the other side: `Served` says that it does its part at every
system call of a run, and such a run comes to `exit(0)` with every command answered.

The invariant between the steps, `Stands`, relates what has been read to the input as a
whole. It is empty once the run has not been fed, so a failed read or a missing event ends the
obligations of the steps that follow; what it says of the answers ends with a short write or
an expired alarm too.
-/

namespace Patchram

open Effect Arrivals

/-! ### What success means -/

/-- A Command Complete event for the opcode of `command`, with status 0. -/
def Completes (command received : List UInt8) : Prop :=
  received.take 2 = [0x04, 0x0e] ∧
    (received.drop 4).take 3 = (command.drop 1).take 2 ++ [0x00]

instance (command received : List UInt8) : Decidable (Completes command received) :=
  inferInstanceAs (Decidable (_ ∧ _))

/-- Every command of the trace is transmitted completely, and is answered by a Command
Complete event with status 0 before the next one is issued. -/
def Programmed (io : List Io) : Prop :=
  ∀ before caller frame (count : Int) after, io = before ++ .write caller frame count :: after →
    count = frame.length ∧ ∃ between received later, after = between ++ .event received :: later ∧
      (∀ caller frame count, .write caller frame count ∉ between) ∧ Completes frame received

/-- The run ends with status 0 after all its commands have succeeded, or with a status
greater than 0. -/
def Reports (run : Except Stop Unit × World) : Prop :=
  run.1 = .error (.exited 0) ∧ Programmed run.2.io ∨
    ∃ status, 0 < status ∧ run.1 = .error (.exited status)

/-- How far the commands of a trace have been answered. -/
inductive Progress where
  | settled
  | asked (command : List UInt8)
  | failed
  deriving DecidableEq

def Progress.next : Progress → Io → Progress
  | settled, .write _ frame count => if count = frame.length then asked frame else failed
  | asked _, .write .. => failed
  | asked command, .event received =>
      if Completes command received then settled else asked command
  | p, _ => p

def progress (io : List Io) : Progress := Monitor.run Progress.next .settled io

theorem Progress.sink_failed : Monitor.Sink Progress.next .failed := fun e => by cases e <;> rfl

/-- A command that is settled in the end has got its event before the next command. -/
theorem Progress.completed {command : List UInt8} {io : List Io}
    (h : Monitor.run Progress.next (.asked command) io = .settled) :
    ∃ between received later, io = between ++ .event received :: later ∧
      (∀ caller frame count, .write caller frame count ∉ between) ∧
      Completes command received := by
  induction io with
  | nil => simp at h
  | cons e io ih =>
      rw [Monitor.run_cons] at h
      have hlater (hquiet : ∀ caller frame count, e ≠ .write caller frame count)
          (hsame : Progress.next (.asked command) e = .asked command) :
          ∃ between received later, e :: io = between ++ .event received :: later ∧
            (∀ caller frame count, .write caller frame count ∉ between) ∧
            Completes command received := by
        rw [hsame] at h
        obtain ⟨between, received, later, rfl, hnone, hcompletes⟩ := ih h
        refine ⟨e :: between, received, later, rfl, fun caller frame count hmem => ?_, hcompletes⟩
        cases List.mem_cons.mp hmem with
        | inl he => exact hquiet caller frame count he.symm
        | inr hmem => exact hnone caller frame count hmem
      cases e with
      | write caller frame count =>
          change Monitor.run Progress.next .failed io = .settled at h
          rw [Progress.sink_failed.run] at h
          exact absurd h (by decide)
      | event received =>
          by_cases hcompletes : Completes command received
          · exact ⟨[], received, io, rfl, by simp, hcompletes⟩
          · exact hlater (fun _ _ _ => nofun) (if_neg hcompletes)
      | readUart _ _ _ | readFile _ _ _ | alarm _ | tcsetattr _ | usleep _ | ioctl _ _ =>
          exact hlater (fun _ _ _ => nofun) rfl

theorem programmed_of_settled {io : List Io} (h : progress io = .settled) : Programmed io := by
  rintro before caller frame count after rfl
  rw [progress, Monitor.run_append, Monitor.run_cons] at h
  have hfailed {io : List Io} (h : Monitor.run Progress.next .failed io = .settled) : False := by
    rw [Progress.sink_failed.run] at h
    exact absurd h (by decide)
  cases hbefore : Monitor.run Progress.next .settled before with
  | settled =>
      rw [hbefore] at h
      by_cases hcount : count = frame.length
      · have hasked : Progress.next .settled (.write caller frame count) = .asked frame :=
          if_pos hcount
        rw [hasked] at h
        exact ⟨hcount, Progress.completed h⟩
      · have hshort : Progress.next .settled (.write caller frame count) = .failed :=
          if_neg hcount
        rw [hshort] at h
        exact (hfailed h).elim
  | asked command =>
      rw [hbefore] at h
      exact (hfailed h).elim
  | failed =>
      rw [hbefore] at h
      exact (hfailed h).elim

theorem progress_append (io : List Io) (e : Io) : progress (io ++ [e]) = (progress io).next e := by
  rw [progress, Monitor.run_append]
  rfl

theorem progress_silent (io : List Io) {e : Io} (h : e.Silent) :
    progress (io ++ [e]) = progress io := by
  rw [progress_append]
  cases e <;> first | exact h.elim | cases progress io <;> rfl

theorem progress_readUart (io : List Io) (i len : Int) (result : Arrival UInt8) :
    progress (io ++ [.readUart i len result]) = progress io := by
  rw [progress_append]
  cases progress io <;> rfl

/-! ### What the other side does -/

/-- The input begins with the event that completes `command`. After the minidriver command
there is more to read behind it: the confirmation, or the event of a later command. -/
def Ahead (command input : List UInt8) : Prop :=
  ∃ (event : Block) (rest : List UInt8), input = event.encode ++ rest ∧
    Completes command event.encode ∧ (command = hciDownloadMinidriver → rest ≠ [])

theorem ahead_iff (command input : List UInt8) : Ahead command input ↔
    ∃ found ∈ Block.decode input, Completes command found.1.encode ∧
      (command = hciDownloadMinidriver → found.2 ≠ []) := by
  constructor
  · rintro ⟨event, rest, rfl, hcompletes, hmore⟩
    exact ⟨(event, rest), Block.decode_encode event rest, hcompletes, hmore⟩
  · rintro ⟨⟨event, rest⟩, hfound, hcompletes, hmore⟩
    exact ⟨event, rest, Block.encode_of_decode hfound, hcompletes, hmore⟩

instance (command input : List UInt8) : Decidable (Ahead command input) :=
  decidable_of_iff' _ (ahead_iff command input)

/-- The input begins with an event, whatever it says. -/
def Heard (command input : List UInt8) : Prop :=
  ∃ (event : Block) (rest : List UInt8), input = event.encode ++ rest ∧
    (command = hciDownloadMinidriver → rest ≠ [])

theorem heard_iff (command input : List UInt8) : Heard command input ↔
    ∃ found ∈ Block.decode input, command = hciDownloadMinidriver → found.2 ≠ [] := by
  constructor
  · rintro ⟨event, rest, rfl, hmore⟩
    exact ⟨(event, rest), Block.decode_encode event rest, hmore⟩
  · rintro ⟨⟨event, rest⟩, hfound, hmore⟩
    exact ⟨event, rest, Block.encode_of_decode hfound, hmore⟩

instance (command input : List UInt8) : Decidable (Heard command input) :=
  decidable_of_iff' _ (heard_iff command input)

/-- A read fails only where its result is not looked at: there are two bytes to confirm the
minidriver. -/
def ReadsOn (i len : Int) (result : Arrival UInt8) : Prop := result = .error → i = 0 ∧ len = 2

instance (i len : Int) (result : Arrival UInt8) : Decidable (ReadsOn i len result) :=
  inferInstanceAs (Decidable (_ → _))

/-- What lets a run go on at one system call, when `input` is still to be read: an event comes
after a command, and the reads of events do not fail. -/
def Io.Fed (input : List UInt8) : Io → Prop
  | .write .main frame _ => Heard frame input
  | .readUart i len result => ReadsOn i len result
  | _ => True

instance (input : List UInt8) : (e : Io) → Decidable (e.Fed input)
  | .write .main _ _ => inferInstanceAs (Decidable (Heard _ _))
  | .readUart _ _ _ => inferInstanceAs (Decidable (ReadsOn _ _ _))
  | .write .handler _ _ | .event _ | .readFile _ _ _ | .alarm _ | .tcsetattr _ | .usleep _
  | .ioctl _ _ => .isTrue trivial

/-- What is asked of the environment at one system call, when `input` is still to be read: no
alarm expires, a write transfers everything, the answer to a command is what comes next,
and the reads of events do not fail. -/
def Io.Served (input : List UInt8) : Io → Prop
  | .write caller frame count => caller = .main ∧ count = frame.length ∧ Ahead frame input
  | .readUart i len result => ReadsOn i len result
  | _ => True

instance (input : List UInt8) : (e : Io) → Decidable (e.Served input)
  | .write _ _ _ => inferInstanceAs (Decidable (_ ∧ _ ∧ _))
  | .readUart _ _ _ => inferInstanceAs (Decidable (ReadsOn _ _ _))
  | .event _ | .readFile _ _ _ | .alarm _ | .tcsetattr _ | .usleep _ | .ioctl _ _ => .isTrue trivial

theorem Io.Served.fed {input : List UInt8} {e : Io} (h : e.Served input) : e.Fed input := by
  cases e with
  | write caller frame count =>
      obtain ⟨rfl, -, event, rest, hinput, -, hmore⟩ := h
      exact ⟨event, rest, hinput, hmore⟩
  | readUart i len result => exact h
  | _ => trivial

/-- The environment does as it is asked at every call of a trace. -/
def Throughout (asked : List UInt8 → Io → Prop) : List UInt8 → List Io → Prop
  | _, [] => True
  | input, e :: io => asked input e ∧ Throughout asked (input.drop e.received.length) io

instance Throughout.decidable (asked : List UInt8 → Io → Prop)
    [∀ input e, Decidable (asked input e)] :
    (input : List UInt8) → (io : List Io) → Decidable (Throughout asked input io)
  | _, [] => .isTrue trivial
  | input, e :: io =>
      have := Throughout.decidable asked (input.drop e.received.length) io
      inferInstanceAs (Decidable (asked input e ∧ _))

/-- An event comes for every command of a trace, and no read of it fails. -/
abbrev Fed (input : List UInt8) (io : List Io) : Prop :=
  Throughout (fun input e => e.Fed input) input io

/-- The environment serves every call of a trace. -/
abbrev Served (input : List UInt8) (io : List Io) : Prop :=
  Throughout (fun input e => e.Served input) input io

section Throughout

variable {asked : List UInt8 → Io → Prop}

theorem Throughout.mono {asked' : List UInt8 → Io → Prop} {input : List UInt8} {io : List Io}
    (h : Throughout asked input io) (himp : ∀ input e, asked input e → asked' input e) :
    Throughout asked' input io := by
  induction io generalizing input with
  | nil => trivial
  | cons e io ih => exact ⟨himp input e h.1, ih h.2⟩

theorem throughout_append (input : List UInt8) (a b : List Io) :
    Throughout asked input (a ++ b) ↔
      Throughout asked input a ∧ Throughout asked (input.drop (received a).length) b := by
  induction a generalizing input with
  | nil => simp [Throughout, received]
  | cons e a ih =>
      have hreceived : received (e :: a) = e.received ++ received a := rfl
      rw [List.cons_append, Throughout, Throughout, ih, hreceived, List.length_append,
        List.drop_drop, and_assoc]

end Throughout

theorem fed_append (input : List UInt8) (a b : List Io) :
    Fed input (a ++ b) ↔ Fed input a ∧ Fed (input.drop (received a).length) b :=
  throughout_append input a b

theorem served_append (input : List UInt8) (a b : List Io) :
    Served input (a ++ b) ↔ Served input a ∧ Served (input.drop (received a).length) b :=
  throughout_append input a b

theorem fed_of_served {input : List UInt8} {io : List Io} (h : Served input io) : Fed input io :=
  h.mono fun _ _ he => he.fed

/-! ### What holds between the steps -/

/-- The globals are `g`, the download has at most `b` reads to go, and as long as the run was
fed, the input that is left is what has not been read, and `P` holds. -/
structure Stands (input : List UInt8) (g : Globals) (b : Nat) (P : World → Prop) (w : World) :
    Prop where
  config : w.config = g
  left : w.file.length + w.fileReads.length ≤ b
  fed : Fed input w.io → input = received w.io ++ stream w.uart ∧ P w

/-- If every call was served, every command so far has been answered. -/
def Settled (input : List UInt8) (w : World) : Prop :=
  Served input w.io → progress w.io = .settled

/-- The command has been written, and its event comes next. -/
def Asked (input command : List UInt8) (w : World) : Prop :=
  ∃ (event : Block) (rest : List UInt8), stream w.uart = event.encode ++ rest ∧
    (command = hciDownloadMinidriver → rest ≠ []) ∧
    (Served input w.io → progress w.io = .asked command ∧ Completes command event.encode)

/-- The event of the command has been read as well. -/
def Answered (input command : List UInt8) (w : World) : Prop :=
  Settled input w ∧ (command = hciDownloadMinidriver → stream w.uart ≠ [])

/-- The bytes `got` of the event have been read, and are at the start of the buffer. -/
structure Hears (input command : List UInt8) (event : Block) (rest got : List UInt8) (w : World) :
    Prop where
  asked : Served input w.io → progress w.io = .asked command ∧ Completes command event.encode
  buffer : Memory.slice w.buffer 0 got.length = got
  ahead : got ++ stream w.uart = event.encode ++ rest

variable {input : List UInt8} {g : Globals} {b : Nat} {P Q : World → Prop} {α : Type}

/-- `P` depends on the commands and events so far and on what is still to be read. -/
def Observed (input : List UInt8) (P : World → Prop) : Prop :=
  ∀ w t, (Served input t.io → Served input w.io ∧ progress t.io = progress w.io) →
    t.uart = w.uart → P w → P t

theorem settled_observed : Observed input (Settled input) := by
  intro w t hio _ h hserved
  obtain ⟨hbefore, hprogress⟩ := hio hserved
  exact hprogress.trans (h hbefore)

theorem asked_observed (command : List UInt8) : Observed input (Asked input command) := by
  rintro w t hio huart ⟨event, rest, hstream, hmore, hasked⟩
  refine ⟨event, rest, by rw [huart, hstream], hmore, fun hserved => ?_⟩
  obtain ⟨hbefore, hprogress⟩ := hio hserved
  exact ⟨hprogress.trans (hasked hbefore).1, (hasked hbefore).2⟩

theorem answered_observed (command : List UInt8) : Observed input (Answered input command) := by
  rintro w t hio huart ⟨hsettled, hmore⟩
  exact ⟨settled_observed w t hio huart hsettled, fun h => by rw [huart]; exact hmore h⟩

theorem Hears.of_observed {command rest got : List UInt8} {event : Block} {w t : World}
    (h : Hears input command event rest got w)
    (hio : Served input t.io → Served input w.io ∧ progress t.io = progress w.io)
    (huart : t.uart = w.uart) (hbuffer : t.buffer = w.buffer) :
    Hears input command event rest got t := by
  refine ⟨fun hserved => ?_, by rw [hbuffer]; exact h.buffer, by rw [huart]; exact h.ahead⟩
  obtain ⟨hbefore, hprogress⟩ := hio hserved
  exact ⟨hprogress.trans (h.asked hbefore).1, (h.asked hbefore).2⟩

/-- The handler receives nothing, and where every call is served it sends nothing either. -/
theorem Handled.observed {w t : World} (h : Handled w t) (input : List UInt8) :
    received t.io = received w.io ∧ (Fed input t.io → Fed input w.io) ∧
      (Served input t.io → Served input w.io ∧ progress t.io = progress w.io) := by
  obtain ⟨new, hio, hhandler⟩ := h.handler
  have hnothing : received new = [] := List.flatMap_eq_nil_iff.mpr fun e he => by
    have hby := hhandler e he
    cases e <;> first | rfl | exact hby.elim
  rw [hio, received_append, hnothing, List.append_nil]
  refine ⟨rfl, fun hfed => ((fed_append ..).mp hfed).1, fun hserved => ?_⟩
  obtain ⟨hbefore, hnew⟩ := (served_append ..).mp hserved
  refine ⟨hbefore, ?_⟩
  clear hserved hio hnothing hbefore
  generalize w.io = io at hnew ⊢
  generalize input.drop (received io).length = left at hnew
  induction new generalizing io left with
  | nil => rw [List.append_nil]
  | cons e new ih =>
      rw [List.forall_mem_cons] at hhandler
      have hsilent : e.Silent := by
        cases e with
        | write caller frame count =>
            obtain ⟨rfl, -⟩ := hnew.1
            exact hhandler.1.elim
        | alarm seconds => trivial
        | _ => exact hhandler.1.elim
      rw [List.append_cons, ih hhandler.2 (io ++ [e]) _ hnew.2, progress_silent io hsilent]

namespace Stands

variable {w t : World}

theorem mono (h : Stands input g b P w) (hPQ : P w → Q w) : Stands input g b Q w :=
  ⟨h.config, h.left, fun hfed => ⟨(h.fed hfed).1, hPQ (h.fed hfed).2⟩⟩

/-- One more system call. -/
theorem append (h : Stands input g b P w) {e : Io} (hio : t.io = w.io ++ [e])
    (hconfig : t.config = w.config)
    (hleft : t.file.length + t.fileReads.length ≤ w.file.length + w.fileReads.length)
    (hstream : stream w.uart = e.received ++ stream t.uart)
    (hnext : e.Fed (stream w.uart) →
      (Served input t.io → Served input w.io ∧ e.Served (stream w.uart)) → P w → Q t) :
    Stands input g b Q t := by
  refine ⟨hconfig.trans h.config, hleft.trans h.left, fun hfed => ?_⟩
  rw [hio, fed_append] at hfed
  obtain ⟨hbefore, hlast, _⟩ := hfed
  obtain ⟨hinput, hP⟩ := h.fed hbefore
  have hrest : input.drop (received w.io).length = stream w.uart := by
    rw [hinput, List.drop_left]
  rw [hrest] at hlast
  refine ⟨?_, hnext hlast (fun hserved => ?_) hP⟩
  · have hreceived : received [e] = e.received := by simp [received]
    rw [hio, received_append, hreceived, List.append_assoc, ← hstream]
    exact hinput
  · rw [hio, served_append, hrest] at hserved
    exact ⟨hserved.1, hserved.2.1⟩

/-- Calls that only listen do not feed a run again. -/
theorem listened (h : Stands input g b P w) (ht : Listened w t) (hnot : ¬ Fed input w.io) :
    Stands input g b Q t ∧ ¬ Fed input t.io := by
  obtain ⟨new, hnew, _⟩ := ht.listens
  have hlast : ¬ Fed input t.io := by
    rw [hnew, fed_append]
    exact fun hfed => hnot hfed.1
  refine ⟨⟨?_, ?_, fun hfed => absurd hfed hlast⟩, hlast⟩
  · rw [ht.state]
    exact h.config
  · rw [ht.file, ht.fileReads]
    exact h.left

/-- A computation that only listens, in a run that is not fed any more. -/
theorem unfed {c : Host α} {Q : α → World → Prop} (h : Stands input g b P w)
    (hnot : ¬ Fed input w.io) (hc : Keeps Listened c) :
    wp c (fun a t => Stands input g b (Q a) t) (fun _ t => ¬ Fed input t.io) w :=
  wp_mono (hc w) (fun _ _ ht => (h.listened ht hnot).1) fun _ _ ht =>
    (h.listened (Q := P) ht hnot).2

theorem of_handled (h : Stands input g b P w) (ht : Handled w t) (hP : P w → P t) :
    Stands input g b P t := by
  obtain ⟨hreceived, hfed, -⟩ := ht.observed input
  have huart : t.uart = w.uart := by rw [ht.state]
  refine ⟨by rw [ht.state]; exact h.config, by rw [ht.state]; exact h.left, fun hnow => ?_⟩
  obtain ⟨hinput, hw⟩ := h.fed (hfed hnow)
  exact ⟨by rw [hreceived, huart, hinput], hP hw⟩

end Stands

/-- A call behind the handler. -/
theorem wp_sys_stands {call : Host α} {R : α → World → Prop} {E : Stop → World → Prop}
    {w : World} (hw : Stands input g b P w) (hP : ∀ v, Handled w v → P w → P v)
    (h : ∀ v, Stands input g b P v → wp call R E v) : wp (sys call) R E w := by
  obtain ⟨v, hv, hcall⟩ := sys_handled call w
  rw [wp, hcall]
  exact h v (hw.of_handled hv (hP v hv))

/-- A part of the program that takes `P` to `Q`, and that waits only if the run has not been
fed. -/
abbrev Serves (input : List UInt8) (g : Globals) (b : Nat) (P Q : World → Prop) (c : Host α) :
    Prop :=
  Leads (Stands input g b P) (Stands input g b Q) (fun t => ¬ Fed input t.io) c

/-! ### Reading the event -/

section Reading

variable {command got rest : List UInt8} {event : Block}

theorem Hears.store {w t : World} {l : List UInt8} (h : Hears input command event rest got w)
    (hbuffer : t.buffer = Memory.store w.buffer got.length l)
    (hio : Served input t.io → Served input w.io ∧ progress t.io = progress w.io)
    (hstream : stream w.uart = l ++ stream t.uart) :
    Hears input command event rest (got ++ l) t := by
  refine ⟨fun hserved => ?_, ?_, by rw [List.append_assoc, ← hstream, h.ahead]⟩
  · obtain ⟨hbefore, hprogress⟩ := hio hserved
    exact ⟨hprogress.trans (h.asked hbefore).1, (h.asked hbefore).2⟩
  · have hextend := Memory.slice_store_append h.buffer l
    rwa [Int.zero_add, ← hbuffer] at hextend

/-- One read inside of the event takes some of it, and a read that takes less than it asks
for uses up an arrival. It is not the read that may fail, which ends at the second byte. -/
theorem readUart_hears {n fuel : Nat} (hn : got.length + n ≤ event.encode.length)
    (hplace : 3 ≤ got.length + n) {w : World}
    (hw : Stands input g b
      (fun v => Hears input command event rest got v ∧ v.uart.length < fuel + 1) w) :
    wp (readUart got.length n)
      (fun count t => Stands input g b
        (fun t => ∃ l : List UInt8, count = l.length ∧ l.length ≤ n ∧
          Hears input command event rest (got ++ l) t ∧ (l.length < n → t.uart.length < fuel)) t)
      (fun _ t => ¬ Fed input t.io) w := by
  refine wp_sys_stands hw (fun v hv h => ?_) fun v hv => wp_bind.mpr (wp_get.mpr ?_)
  · obtain ⟨-, -, hio⟩ := hv.observed input
    have hsame : v.uart = w.uart ∧ v.buffer = w.buffer := by rw [hv.state]; exact ⟨rfl, rfl⟩
    exact ⟨h.1.of_observed hio hsame.1 hsame.2, hsame.1 ▸ h.2⟩
  rw [Int.toNat_natCast]
  cases hread : Arrivals.read n v.uart with
  | none =>
      intro hfed
      obtain ⟨_, hhears, _⟩ := hv.fed hfed
      obtain ⟨huart, hpos⟩ := read_none hread
      have hahead := congrArg List.length hhears.ahead
      rw [huart, stream_nil, List.append_nil, List.length_append] at hahead
      omega
  | some answer =>
      obtain ⟨result, later⟩ := answer
      have hstream := read_stream hread
      refine wp_bind.mpr (wp_modify.mpr (wp_pure.mpr ?_))
      refine hv.append rfl rfl (Nat.le_refl _) hstream fun hreads hserved hhears => ?_
      cases result with
      | error =>
          obtain ⟨hzero, htwo⟩ := hreads rfl
          omega
      | bytes l =>
          refine ⟨l, rfl, read_length hread, hhears.1.store rfl (fun hnow => ?_) hstream,
            fun hshort => ?_⟩
          · exact ⟨(hserved hnow).1, progress_readUart ..⟩
          · exact Nat.lt_of_lt_of_le (read_short hread hshort) (Nat.le_of_lt_succ hhears.2)

/-- The loop takes as many bytes of the event as it asks for. -/
theorem readLoop_hears {n fuel : Nat} (hn : got.length + n ≤ event.encode.length)
    (hplace : 3 ≤ got.length + n) {w : World}
    (hw : Stands input g b
      (fun v => Hears input command event rest got v ∧ v.uart.length < fuel) w) :
    wp (readLoop fuel got.length n)
      (fun r t => Stands input g b (fun t => r.1 + r.2 = got.length + n ∧
        ∃ more : List UInt8, more.length = n ∧ Hears input command event rest (got ++ more) t) t)
      (fun _ t => ¬ Fed input t.io) w := by
  induction fuel generalizing got n w with
  | zero => exact fun hfed => absurd (hw.fed hfed).2.2 (Nat.not_lt_zero _)
  | succ fuel ih =>
      refine wp_seq (readUart_hears hn hplace hw) fun count t ht => ?_
      by_cases hfed : Fed input t.io
      · obtain ⟨hinput, l, rfl, hle, hhears, hshort⟩ := ht.fed hfed
        by_cases hlt : l.length < n
        · have hlength : ((got ++ l).length : Int) = got.length + l.length := by simp
          have hdiff : ((n : Int) - l.length) = ((n - l.length : Nat) : Int) := by omega
          have hnext := ih (n := n - l.length) (by rw [List.length_append]; omega)
            (by rw [List.length_append]; omega) (ht.mono fun _ => ⟨hhears, hshort hlt⟩)
          rw [if_pos (by omega), hdiff, ← hlength]
          refine wp_mono hnext (fun r t' h => h.mono ?_) fun _ _ h => h
          rintro ⟨hsum, more, hmore, hall⟩
          refine ⟨by omega, l ++ more, by rw [List.length_append]; omega, ?_⟩
          rwa [← List.append_assoc]
        · rw [if_neg (by omega)]
          refine ht.mono fun _ => ⟨by dsimp only; omega, l, by omega, hhears⟩
      · split
        · exact (ht.unfed hfed (readLoop_listens fuel _ _))
        · exact (ht.unfed hfed (Keeps.pure Listened.refl _))

theorem readFull_hears {n : Nat} (hn : got.length + n ≤ event.encode.length)
    (hplace : 3 ≤ got.length + n) {w : World}
    (hw : Stands input g b (Hears input command event rest got) w) :
    wp (readFull got.length n)
      (fun r t => Stands input g b (fun t => r.1 + r.2 = got.length + n ∧
        ∃ more : List UInt8, more.length = n ∧ Hears input command event rest (got ++ more) t) t)
      (fun _ t => ¬ Fed input t.io) w :=
  readLoop_hears hn hplace (hw.mono fun h => ⟨h, Nat.lt_succ_self _⟩)

/-- All of the event has been read. -/
theorem Hears.whole {w : World} (h : Hears input command event rest got w)
    (hlength : got.length = event.encode.length) : got = event.encode ∧ stream w.uart = rest :=
  List.append_inj h.ahead hlength

/-- The length byte of the event has been read. -/
theorem Hears.size {w : World} (h : Hears input command event rest got w)
    (hthree : got.length = 3) : w.buffer 2 = event.size := by
  have hread : got[2]? = some (w.buffer 2) := Memory.getElem_of_slice h.buffer (by omega)
  have hahead := congrArg (fun l => l[2]?) h.ahead
  rw [List.getElem?_append_left (by omega), hread] at hahead
  exact Option.some.inj hahead

end Reading

/-- The event that comes next is read as a whole, and completes the command if it is served. -/
theorem readEvent_serves (command : List UInt8) :
    Serves input g b (Asked input command) (Answered input command) readEvent := by
  intro w hw
  by_cases hfed : Fed input w.io
  · obtain ⟨_, event, rest, hahead, hmore, hasked⟩ := hw.fed hfed
    have hlength : event.encode.length = event.payload.length + 3 := Block.length_encode event
    have hstart : Stands input g b (Hears input command event rest []) w :=
      hw.mono fun _ => ⟨hasked, rfl, hahead⟩
    have hheader := readFull_hears (n := 3) (by simp) (by simp) hstart
    simp only [List.length_nil, Nat.cast_zero, Nat.cast_ofNat, List.nil_append] at hheader
    refine wp_seq hheader fun r u hu => ?_
    refine wp_bind.mpr (wp_gets.mpr ?_)
    by_cases hfed' : Fed input u.io
    · obtain ⟨_, hsum, header, hthree, hhears⟩ := hu.fed hfed'
      have hindex : r.1 + r.2 = header.length := by simp [hsum, hthree]
      rw [hhears.size hthree, hindex, Block.toNat_size]
      refine wp_seq (readFull_hears (n := event.payload.length) (by omega) (by omega)
        (hu.mono fun _ => hhears)) fun r' t ht => ?_
      refine wp_bind.mpr (wp_gets.mpr ?_)
      refine ht.append rfl rfl (Nat.le_refl _) rfl fun _ hserved hlast => ?_
      obtain ⟨hsum', more, hsize, hlast⟩ := hlast
      have hall : (header ++ more).length = event.encode.length := by
        rw [List.length_append]
        omega
      obtain ⟨hevent, hrest⟩ := hlast.whole hall
      have hreceived : Memory.slice t.buffer 0 (r'.2 + r'.1).toNat = event.encode := by
        have hcount : (r'.2 + r'.1).toNat = (header ++ more).length := by
          rw [List.length_append]
          omega
        rw [hcount, hlast.buffer, hevent]
      refine ⟨fun h => ?_, fun h => hrest ▸ hmore h⟩
      obtain ⟨hprogress, hcompletes⟩ := hlast.asked (hserved h).1
      dsimp only
      rw [progress_append, hprogress, hreceived]
      exact if_pos hcompletes
    · refine wp_seq (hu.unfed (Q := fun _ _ => False) hfed' (readFull_listens _ _))
        fun r' t ht => ?_
      exact wp_bind.mpr (wp_gets.mpr (ht.append rfl rfl (Nat.le_refl _) rfl fun _ _ h => h.elim))
  · exact hw.unfed hfed readEvent_listens

/-! ### Calls between the events -/

theorem sys_serves {call : Host α} (hP : Observed input P) (h : Serves input g b P Q call) :
    Serves input g b P Q (sys call) := by
  refine fun w hw => wp_sys_stands hw (fun v hv => ?_) fun v hv => h v hv
  exact hP w v (hv.observed input).2.2 (by rw [hv.state])

theorem when_serves {p : Prop} [Decidable p] {c : Host Unit} (h : p → Serves input g b P P c) :
    Serves input g b P P (Effect.when p c) :=
  .when h fun _ _ hw => hw

/-- What the program reads of the globals. -/
theorem gets_config_serves {k : Globals → Host α} (h : Serves input g b P Q (k g)) :
    Serves input g b P Q (gets World.config >>= k) := by
  intro w hw
  refine wp_bind.mpr (wp_gets.mpr ?_)
  rw [hw.config]
  exact h w hw

/-- A system call that is neither a command nor a read from the UART. -/
theorem silent_serves (hP : Observed input P) {f : World → World} (e : World → Io)
    (hsilent : ∀ w, (e w).Silent) (hio : ∀ w, (f w).io = w.io ++ [e w])
    (hsame : ∀ w, (f w).config = w.config ∧ (f w).uart = w.uart ∧ (f w).file = w.file ∧
      (f w).fileReads = w.fileReads) :
    Serves input g b P P (modify f) := by
  refine Leads.modify fun w hw => ?_
  obtain ⟨hconfig, huart, hfile, hreads⟩ := hsame w
  have hnothing : (e w).received = [] := by
    have h := hsilent w
    cases he : e w <;> first | rfl | (rw [he] at h; exact h.elim)
  refine hw.append (hio w) hconfig (by rw [hfile, hreads]) (by rw [hnothing, huart]; rfl)
    fun _ hserved h => hP w _ (fun hnow => ⟨(hserved hnow).1, ?_⟩) huart h
  rw [hio w]
  exact progress_silent w.io (hsilent w)

theorem alarm_serves (hP : Observed input P) (seconds : Nat) :
    Serves input g b P P (sys (alarm seconds)) :=
  sys_serves hP (silent_serves hP (fun _ => .alarm seconds) (fun _ => trivial) (fun _ => rfl)
    fun _ => ⟨rfl, rfl, rfl, rfl⟩)

theorem setSpeed_serves (hP : Observed input P) (speed : Nat) :
    Serves input g b P P (sys (setSpeed speed)) :=
  sys_serves hP (silent_serves hP (fun _ => .tcsetattr speed) (fun _ => trivial) (fun _ => rfl)
    fun _ => ⟨rfl, rfl, rfl, rfl⟩)

theorem record_serves (hP : Observed input P) {e : Io} (he : e.Silent) :
    Serves input g b P P (sys (record e)) :=
  sys_serves hP (silent_serves hP (fun _ => e) (fun _ => he) (fun _ => rfl)
    fun _ => ⟨rfl, rfl, rfl, rfl⟩)

/-- The event that is heard after a command is the one that completes it, if there is one. -/
theorem Ahead.completes {command rest : List UInt8} {event : Block}
    (h : Ahead command (event.encode ++ rest)) : Completes command event.encode := by
  obtain ⟨found, hfound, hcompletes, -⟩ := (ahead_iff _ _).mp h
  rw [Block.decode_encode] at hfound
  obtain rfl := Option.mem_some_iff.mp hfound
  exact hcompletes

/-- An event comes behind a command, and completes it if the command is served. -/
theorem hciSendCmd_serves (frame : List UInt8) :
    Serves input g b (Settled input) (Asked input frame) (sys (hciSendCmd .main frame)) := by
  refine sys_serves settled_observed (Leads.modify fun w hw => ?_)
  refine hw.append rfl rfl (Nat.le_refl _) rfl fun hfed hserved hsettled => ?_
  obtain ⟨event, rest, hstream, hmore⟩ := hfed
  refine ⟨event, rest, hstream, hmore, fun hnow => ?_⟩
  obtain ⟨hbefore, -, hcount, hahead⟩ := hserved hnow
  rw [hstream] at hahead
  refine ⟨?_, hahead.completes⟩
  rw [progress_append, hsettled hbefore]
  exact if_pos hcount

theorem Stands.settled {command : List UInt8} {w : World}
    (h : Stands input g b (Answered input command) w) : Stands input g b (Settled input) w :=
  h.mono And.left

theorem exchange_answers (frame : List UInt8) :
    Serves input g b (Settled input) (Answered input frame) (exchange frame) :=
  .bind (hciSendCmd_serves frame) fun _ => readEvent_serves frame

theorem exchange_serves (frame : List UInt8) :
    Serves input g b (Settled input) (Settled input) (exchange frame) :=
  (exchange_answers frame).consequence (fun _ hw => hw) fun _ ht => ht.settled

theorem procReset_serves : Serves input g b (Settled input) (Settled input) procReset := by
  apply Leads.bind (hciSendCmd_serves hciReset)
  intro _
  apply Leads.bind (alarm_serves (asked_observed hciReset) 4)
  intro _
  have hevent : Serves input g b (Asked input hciReset) (Settled input) readEvent :=
    (readEvent_serves hciReset).consequence (fun _ hw => hw) fun _ ht => ht.settled
  exact .bind hevent fun _ => alarm_serves settled_observed 0

theorem procBaudrate_serves : Serves input g b (Settled input) (Settled input) procBaudrate :=
  gets_config_serves (.bind (exchange_serves _) fun _ => setSpeed_serves settled_observed _)

theorem procBdaddr_serves : Serves input g b (Settled input) (Settled input) procBdaddr :=
  gets_config_serves (exchange_serves _)

theorem procScopcm_serves : Serves input g b (Settled input) (Settled input) procScopcm :=
  gets_config_serves (.bind (exchange_serves _) fun _ => exchange_serves _)

theorem procI2s_serves : Serves input g b (Settled input) (Settled input) procI2s :=
  gets_config_serves (exchange_serves _)

theorem initUart_serves : Serves input g b (Settled input) (Settled input) initUart := by
  have hold (old : Nat) :
      Serves input g b (Settled input) (Settled input) (sys (record (.tcsetattr old))) :=
    record_serves settled_observed trivial
  refine .bind (R := Stands input g b (Settled input)) ?_ fun _ => ?_
  · exact Leads.modify fun w hw => ⟨hw.config, hw.left, hw.fed⟩
  · exact .bind (.gets _) fun old => .bind (hold old) fun _ => .bind (hold old) fun _ =>
      setSpeed_serves settled_observed B115200

/-! ### The download -/

/-- The one read after the minidriver event. Whatever it leaves of the confirmation comes
before the next event. -/
theorem readUart_confirms (i : Int) (n : Int) :
    Serves input g b (Answered input hciDownloadMinidriver) (Settled input) (readUart i n) := by
  refine sys_serves (answered_observed hciDownloadMinidriver) fun v hv =>
    wp_bind.mpr (wp_get.mpr ?_)
  cases hread : Arrivals.read n.toNat v.uart with
  | none =>
      intro hfed
      refine (hv.fed hfed).2.2 rfl ?_
      rw [(read_none hread).1, stream_nil]
  | some answer =>
      obtain ⟨result, later⟩ := answer
      refine wp_bind.mpr (wp_modify.mpr (wp_pure.mpr ?_))
      refine hv.append rfl rfl (Nat.le_refl _) (read_stream hread) fun _ hserved h hnow => ?_
      exact (progress_readUart ..).trans (h.1 (hserved hnow).1)

/-- A read of the file leaves no more to read, and less if it is not the last. -/
theorem fileAnswer_left {reads : List FileRead} {file rest : List UInt8} {n : Nat}
    {result : Arrival UInt8} (h : fileAnswer reads file n = (result, rest)) :
    rest.length + reads.tail.length ≤ file.length + reads.length ∧
      (result.count ≠ 0 → rest.length + reads.tail.length < file.length + reads.length) := by
  have htail : reads.tail.length = reads.length - 1 := List.length_tail
  rw [fileAnswer] at h
  cases hread : reads.headD .whole with
  | whole =>
      obtain ⟨rfl, rfl⟩ : _ ∧ _ := by simpa only [hread, Prod.mk.injEq] using h
      rw [List.length_drop, Arrival.count_bytes, List.length_take]
      omega
  | nothing =>
      obtain ⟨rfl, rfl⟩ : _ ∧ _ := by simpa only [hread, Prod.mk.injEq] using h
      rw [Arrival.count_bytes]
      exact ⟨by omega, fun hcount => absurd rfl hcount⟩
  | failed =>
      obtain ⟨rfl, rfl⟩ : _ ∧ _ := by simpa only [hread, Prod.mk.injEq] using h
      have hsome : 0 < reads.length := List.length_pos_iff.mpr fun hnil => by
        simp [hnil] at hread
      omega

theorem readFile_serves (i len : Int) {w : World} (hw : Stands input g b (Settled input) w) :
    wp (readFile i len)
      (fun count t => Stands input g b (Settled input) t ∧
        (count ≠ 0 → ∃ b' < b, Stands input g b' (Settled input) t))
      (fun _ t => ¬ Fed input t.io) w := by
  have hsettled : ∀ v, Handled w v → Settled input w → Settled input v := fun v hv =>
    settled_observed w v (hv.observed input).2.2 (by rw [hv.state])
  refine wp_sys_stands hw hsettled fun v hv => wp_bind.mpr (wp_get.mpr ?_)
  cases hanswer : fileAnswer v.fileReads v.file len.toNat with
  | mk result rest =>
      obtain ⟨hle, hlt⟩ := fileAnswer_left hanswer
      dsimp only
      refine wp_bind.mpr (wp_modify.mpr (wp_pure.mpr ?_))
      have hnext := hv.append (Q := Settled input)
        (t := { v with
          file := rest
          fileReads := v.fileReads.tail
          buffer := Memory.store v.buffer i result.data
          io := v.io ++ [.readFile i len result] }) rfl rfl hle rfl fun _ hserved h hnow =>
        (progress_silent v.io (e := .readFile i len result) trivial).trans (h (hserved hnow).1)
      refine ⟨hnext, fun hcount => ⟨_, Nat.lt_of_lt_of_le (hlt hcount) hv.left, ?_⟩⟩
      exact ⟨hnext.config, Nat.le_refl _, hnext.fed⟩

theorem Stands.weaken {b' : Nat} {w : World} (h : Stands input g b' P w) (hb : b' ≤ b) :
    Stands input g b P w :=
  ⟨h.config, h.left.trans hb, h.fed⟩

/-- Each turn but the last uses up some of the file, so the loop comes to its end. -/
theorem downloadLoop_serves (fuel : Nat) (hfuel : b < fuel) :
    Serves input g b (Settled input) (Settled input) (downloadLoop fuel) := by
  induction fuel generalizing b with
  | zero => exact absurd hfuel (Nat.not_lt_zero b)
  | succ fuel ih =>
      intro w hw
      apply wp_seq (readFile_serves 1 3 hw)
      intro count t ht
      refine wp_when.mpr ⟨fun hcount => ?_, fun _ => ht.1⟩
      obtain ⟨b', hb', ht'⟩ := ht.2 hcount
      have hrecord : Serves input g b' (Settled input) (Settled input) (do
          modify fun w => { w with buffer := Memory.store w.buffer 0 [0x01] }
          let len ← gets fun w => (w.buffer 3).toNat
          let _ ← readFile 4 len
          let frame ← gets fun w => Memory.slice w.buffer 0 (len + 4)
          exchange frame
          downloadLoop fuel) := by
        refine .bind (R := Stands input g b' (Settled input)) ?_ fun _ => ?_
        · exact Leads.modify fun v hv => ⟨hv.config, hv.left, hv.fed⟩
        apply Leads.bind (.gets _)
        intro len
        have hdata : Serves input g b' (Settled input) (Settled input) (readFile 4 len) :=
          fun v hv => wp_mono (readFile_serves 4 len hv) (fun _ _ h => h.1) fun _ _ h => h
        exact .bind hdata fun _ => .bind (.gets _) fun frame =>
          .bind (exchange_serves frame) fun _ => ih (by omega)
      exact wp_mono (hrecord t ht') (fun _ _ h => h.weaken (Nat.le_of_lt hb')) fun _ _ h => h

theorem download_serves : Serves input g b (Settled input) (Settled input) download := by
  intro w hw
  refine wp_bind.mpr (wp_gets.mpr ?_)
  have hexact : Stands input g (w.file.length + w.fileReads.length) (Settled input) w :=
    ⟨hw.config, Nat.le_refl _, hw.fed⟩
  exact wp_mono (downloadLoop_serves _ (Nat.lt_succ_self _) w hexact)
    (fun _ _ h => h.weaken hw.left) fun _ _ h => h

theorem procPatchram_serves : Serves input g b (Settled input) (Settled input) procPatchram := by
  refine .bind (exchange_answers _) fun _ => gets_config_serves ?_
  have hconfirmation : Serves input g b (Answered input hciDownloadMinidriver) (Settled input)
      (Effect.when (!g.no2bytes) (do let _ ← readUart 0 2)) :=
    .when (fun _ => .bind (readUart_confirms 0 2) fun _ => .pure _) fun _ _ hw => hw.settled
  apply Leads.bind hconfirmation
  intro _
  apply Leads.bind (when_serves fun _ =>
    record_serves (e := .usleep g.tosleep) settled_observed trivial)
  intro _
  apply Leads.bind download_serves
  intro _
  exact .bind (when_serves fun _ => setSpeed_serves settled_observed _) fun _ => procReset_serves

/-! ### Runs of the program -/

/-- The run stops as `R` says, if it was fed. -/
abbrev Finishes (input : List UInt8) (R : Stop → World → Prop) (c : Host Unit) (w : World) : Prop :=
  wp c (fun _ _ => False) (fun stop t => Fed input t.io → R stop t) w

/-- A part of the program that returns, and what follows it. -/
theorem Serves.finishes {c next : Host Unit} {R : Stop → World → Prop}
    (h : Serves input g b P Q c) {w : World} (hw : Stands input g b P w)
    (hnext : ∀ t, Stands input g b Q t → Finishes input R next t) :
    Finishes input R (c >>= fun _ => next) w :=
  wp_bind.mpr (wp_mono (h w hw) (fun _ t ht => hnext t ht)
    fun _ _ hnot hfed => absurd hfed hnot)

/-- The run has come to its end: it exits with status 0, or goes on with the line discipline. -/
def Finished (run : Except Stop Unit × World) : Prop :=
  run.1 = .error (.exited 0) ∨ ∃ name result, .ioctl name result ∈ run.2.io

theorem ioctl_recorded (name : String) (w : World) :
    wp (ioctl name) (fun _ t => ∃ name result, .ioctl name result ∈ t.io) (fun _ _ => False) w := by
  obtain ⟨v, -, hcall⟩ := sys_handled (do
    let result ← gets fun w => w.ioctls.headD 0
    modify fun w => { w with ioctls := w.ioctls.tail, io := w.io ++ [.ioctl name result] }
    return result) w
  rw [ioctl, wp, hcall]
  exact ⟨name, _, List.mem_append_right _ List.mem_cons_self⟩

theorem procEnableHci_recorded (w : World) : wp procEnableHci
    (fun _ t => ∃ name result, .ioctl name result ∈ t.io) (fun _ _ => False) w := by
  refine wp_seq (ioctl_recorded _ w) fun result u hu => wp_when.mpr ⟨fun _ => ?_, fun _ => hu⟩
  exact wp_seq (ioctl_recorded _ u) fun _ t ht => wp_pure.mpr ht

/-- With an event for every command, the program goes through all its steps: to `exit(0)`, or
to the line discipline if it is to stay on as the host. -/
theorem program_finishes {w : World} (hw : Stands input g b (Settled input) w) :
    Finishes input (fun stop t => Finished (.error stop, t) ∧
      (g.enableHci = false → stop = .exited 0 ∧ Settled input t)) program w := by
  refine initUart_serves.finishes hw fun w hw => ?_
  refine procReset_serves.finishes hw fun w hw => ?_
  refine wp_bind.mpr (wp_gets.mpr ?_)
  rw [hw.config]
  refine (when_serves fun _ => when_serves fun _ => procBaudrate_serves).finishes hw fun w hw => ?_
  refine (when_serves fun _ => procPatchram_serves).finishes hw fun w hw => ?_
  refine (when_serves fun _ => procBaudrate_serves).finishes hw fun w hw => ?_
  refine (when_serves fun _ => procBdaddr_serves).finishes hw fun w hw => ?_
  refine (when_serves fun _ => exchange_serves hciWriteSleepMode).finishes hw fun w hw => ?_
  refine (when_serves fun _ => procScopcm_serves).finishes hw fun w hw => ?_
  refine (when_serves fun _ => procI2s_serves).finishes hw fun w hw => ?_
  refine wp_bind.mpr (wp_when.mpr ⟨fun hhci => ?_, fun _ hfed => ?_⟩)
  · refine wp_seq (wp_mono (procEnableHci_recorded w) (fun _ _ h => h) fun _ _ h => h.elim)
      fun _ t ht _ => ⟨.inr ht, fun hnot => absurd hhci (by simp [hnot])⟩
  · exact ⟨.inl rfl, fun _ => ⟨rfl, (hw.fed hfed).2⟩⟩

/-- What `main` does before it uses the UART. -/
def commandLine (options : List Opt) (port : Option (List UInt8)) : Host Unit := do
  readDefaultBdaddr
  let ret ← parseCmdLine options port
  when (ret ≠ 0) (stop (.exited 1))
  let uartFd ← gets fun w => w.config.uartFd
  when (uartFd < 0) (stop (.exited 2))

theorem main_eq (options : List Opt) (port : Option (List UInt8)) :
    main options port = commandLine options port >>= fun _ => program := by
  simp only [main, commandLine, bind_assoc]

/-- A command line that is refused has a status greater than 0. -/
def Refused (stop : Stop) : Prop := ∃ status, 0 < status ∧ stop = .exited status

theorem openFile_refuses (path : List UInt8) : Stops Refused (openFile path) := by
  apply Stops.bind (.gets _)
  intro result
  refine .bind (.modify _) fun _ => ?_
  cases result <;> exact .pure _

theorem parsePatchram_refuses (optarg : List UInt8) : Stops Refused (parsePatchram optarg) := by
  rw [parsePatchram]
  cases extension optarg with
  | none => exact .stop ⟨3, by decide, rfl⟩
  | some p =>
      refine .bind (.when (.stop ⟨4, by decide, rfl⟩)) fun _ => ?_
      refine .bind (openFile_refuses _) fun file => .bind (.modify _) fun _ => ?_
      refine .bind (.when (.stop ⟨5, by decide, rfl⟩)) fun _ => ?_
      exact .bind (.modify _) fun _ => .pure _

/-- A parser that refuses an option does so with a status of its own. -/
theorem parse_refuses (option : Opt) : Stops Refused (parse option) := by
  cases option with
  | patchram optarg => exact parsePatchram_refuses optarg
  | baudrate optarg =>
      change Stops Refused (parseBaudrate optarg)
      rw [parseBaudrate]
      cases validateBaudrate (Scan.atoi optarg) with
      | none => exact .bind (.pure ()) fun _ => .pure _
      | some value => exact .bind (.modify _) fun _ => .pure _
  | bdAddr optarg => exact .bind (.gets _) fun _ => .bind (.modify _) fun _ => .pure _
  | scopcm optarg =>
      change Stops Refused (parseScopcm optarg)
      rw [parseScopcm]
      split
      · exact .pure _
      · exact .bind (.modify _) fun _ => .pure _
  | i2s optarg =>
      change Stops Refused (parseI2s optarg)
      rw [parseI2s]
      split
      · exact .pure _
      · exact .bind (.modify _) fun _ => .pure _
  | tosleep optarg =>
      refine .bind (.modify _) fun _ => ?_
      split <;> exact .pure _
  | enableLpm | enableHci | useBaudrateForDownload | no2bytes | d =>
      exact .bind (.modify _) fun _ => .pure _
  | unknown => exact .pure _

theorem parseOptions_refuses (options : List Opt) : Stops Refused (parseOptions options) := by
  induction options with
  | nil => exact .pure _
  | cons option options ih =>
      apply Stops.bind (parse_refuses option)
      intro ret
      split
      · exact .pure _
      · exact ih

theorem readDefaultBdaddr_refuses : Stops Refused readDefaultBdaddr := by
  refine .bind (.gets _) fun path => .when (.bind (openFile_refuses _) fun file => .when ?_)
  refine .bind (.gets _) fun result => .when (.bind (parse_refuses (.bdAddr _)) fun _ => .pure _)

theorem openPort_refuses (port : Option (List UInt8)) : Stops Refused (openPort port) := by
  cases port with
  | none => exact .pure _
  | some port => exact .bind (openFile_refuses port) fun _ => .modify _

theorem commandLine_refuses (options : List Opt) (port : Option (List UInt8)) :
    Stops Refused (commandLine options port) := by
  apply Stops.bind readDefaultBdaddr_refuses
  intro _
  have hparse : Stops Refused (parseCmdLine options port) := by
    apply Stops.bind (parseOptions_refuses options)
    intro ret
    split
    · exact .pure _
    · exact .bind (openPort_refuses port) fun _ => .pure _
  apply Stops.bind hparse
  intro ret
  refine .bind (.when (.stop ⟨1, by decide, rfl⟩)) fun _ => .bind (.gets _) fun uartFd => ?_
  exact .when (.stop ⟨2, by decide, rfl⟩)

theorem commandLine_sets (options : List Opt) (port : Option (List UInt8)) :
    Keeps (Sets (.enableHci ∈ options)) (commandLine options port) := by
  apply Keeps.bind Sets.trans readDefaultBdaddr_sets
  intro _
  apply Keeps.bind Sets.trans (parseCmdLine_sets options port)
  intro ret
  apply Keeps.bind Sets.trans (.when Sets.refl (.stop Sets.refl _))
  intro _
  exact .bind Sets.trans (.gets Sets.refl _) fun _ => .when Sets.refl (.stop Sets.refl _)

/-- A run that gets as far as the UART comes to its end if an event comes for every command,
whatever the events say and whenever the alarm expires. If every call is served as well, every
command has succeeded. -/
theorem main_finishes {w u : World} (hio : w.io = []) {options : List Opt}
    {port : Option (List UInt8)} (hline : commandLine options port w = (.ok (), u))
    (hfed : Fed (stream w.uart) (main options port w).2.io) :
    Finished (main options port w) ∧ (u.config.enableHci = false →
      (main options port w).1 = .error (.exited 0) ∧
        (Served (stream w.uart) (main options port w).2.io →
          Programmed (main options port w).2.io)) := by
  have hu := (wp_of_ok hline).mp (commandLine_sets options port w)
  have hstart : Stands (stream w.uart) u.config (u.file.length + u.fileReads.length)
      (Settled (stream w.uart)) u := by
    refine ⟨rfl, Nat.le_refl _, fun _ => ?_⟩
    rw [hu.parsed.state, Settled, hio]
    exact ⟨rfl, fun _ => rfl⟩
  have hends := program_finishes hstart
  rw [main_eq, bind_ok hline] at hfed ⊢
  rcases hrun : program u with ⟨stop | ⟨⟩, t⟩
  · rw [hrun] at hfed
    obtain ⟨hfinished, hexit⟩ := (wp_of_error hrun).mp hends hfed
    refine ⟨hfinished, fun hhci => ?_⟩
    obtain ⟨rfl, hsettled⟩ := hexit hhci
    exact ⟨rfl, fun hserved => programmed_of_settled (hsettled hserved)⟩
  · exact ((wp_of_ok hrun).mp hends).elim

/-- Nothing in the program tells a command that has failed. A run that gets as far as the UART
reports as it should when it is not asked to stay on as the host, and when every system
call is served: no alarm expires, writes transfer everything, reads do not fail where their
results are looked at, and what comes after a command is a Command Complete event for it with
status 0. -/
theorem main_reports {w : World} (hconfig : w.config = {}) (hio : w.io = []) (options : List Opt)
    (port : Option (List UInt8))
    (hserved : ∀ u, commandLine options port w = (.ok (), u) →
      Opt.enableHci ∉ options ∧ Served (stream w.uart) (main options port w).2.io) :
    Reports (main options port w) := by
  have hrefuses := commandLine_refuses options port w
  rcases hrun : commandLine options port w with ⟨stop | ⟨⟩, u⟩
  · obtain ⟨status, hpositive, rfl⟩ := (wp_of_error hrun).mp hrefuses
    rw [main_eq, bind_error hrun]
    exact Or.inr ⟨status, hpositive, rfl⟩
  · obtain ⟨hnot, hall⟩ := hserved u hrun
    have hu := (wp_of_ok hrun).mp (commandLine_sets options port w)
    have hhci : u.config.enableHci = false := by rw [hu.mode hnot, hconfig]
    obtain ⟨hexit, hprogrammed⟩ := (main_finishes hio hrun (fed_of_served hall)).2 hhci
    exact Or.inl ⟨hexit, hprogrammed hall⟩

/-- A Command Complete event for the given opcode. -/
def completion (low high status : UInt8) : List UInt8 :=
  [0x04, 0x0e, 0x04, 0x01, low, high, status]

/-- A file of one record is downloaded, and all commands succeed. -/
def downloading : World :=
  { World.start {} [.bytes (completion 0x03 0x0c 0 ++ completion 0x2e 0xfc 0 ++ [0xaa, 0xbb] ++
      completion 0x4c 0xfc 0 ++ completion 0x03 0x0c 0)] [] with
    opens := [some (5, [0x4c, 0xfc, 0x01, 0x7f]), some (3, [])] }

theorem main_reports_downloading :
    Reports (main [.patchram [0x61, 0x2e, 0x68, 0x63, 0x64]] (some portName) downloading) :=
  main_reports rfl rfl _ (some portName) fun _ _ => ⟨by decide, by decide +kernel⟩

/-- The port is opened, and the reset is answered with the given status. -/
def resetAnswered (status : UInt8) : World :=
  { World.start {} [.bytes (completion 0x03 0x0c status)] [] with opens := [some (3, [])] }

/-- The controller reports an error for the reset, and the program a success. -/
theorem main_failure : (main [] (some portName) (resetAnswered 1)).1 = .error (.exited 0) ∧
    ¬ Reports (main [] (some portName) (resetAnswered 1)) := by
  have hexit : (main [] (some portName) (resetAnswered 1)).1 = .error (.exited 0) := by decide
  have hio : (main [] (some portName) (resetAnswered 1)).2.io = [.tcsetattr 0, .tcsetattr 0,
      .tcsetattr B115200] ++ .write .main hciReset 4 :: [.alarm 4,
      .readUart 0 3 (.bytes [0x04, 0x0e, 0x04]),
      .readUart 3 4 (.bytes [0x01, 0x03, 0x0c, 0x01]),
      .event [0x04, 0x0e, 0x04, 0x01, 0x03, 0x0c, 0x01], .alarm 0] := by decide
  refine ⟨hexit, ?_⟩
  rintro (⟨_, hprogrammed⟩ | ⟨status, hpositive, hstatus⟩)
  · obtain ⟨_, between, received, later, hafter, _, hcompletes⟩ := hprogrammed _ _ _ _ _ hio
    have hmem : Io.event received ∈ between ++ .event received :: later := by simp
    rw [← hafter] at hmem
    obtain rfl : received = [0x04, 0x0e, 0x04, 0x01, 0x03, 0x0c, 0x01] := by simpa using hmem
    exact absurd hcompletes (by decide)
  · rw [hexit] at hstatus
    injection hstatus with hstop
    injection hstop with hzero
    omega

end Patchram
