import SystemBluetooth.Library.Monitor
import SystemBluetooth.Patchram.Handler

/-!
# The host takes turns

`Phase` is what the main flow shows of itself on the UART: it is idle, or it has written
a command and waits for the event, of which it has read some bytes. A second command
before the event, or an event that is not a whole block made of the bytes just read, would
be `bad`. The phase is `free` once something has happened after which nothing is required:
the handler has written a command, a write was incomplete, or a read failed. Bytes read while
no command is open, as those that confirm the minidriver, belong to no event.

The main result is that no run of the program is ever `bad`, for any input and any
signals: an invariant of every step, packaged as `Resting` between the steps.
-/

namespace Patchram

open Effect

inductive Phase where
  | idle
  | awaiting (command : List UInt8) (got : List UInt8)
  | free
  | bad
  deriving DecidableEq

def Phase.next : Phase → Io → Phase
  | bad, _ => bad
  | free, _ => free
  | _, .write .handler _ _ => free
  | idle, .write .main frame count => if count = frame.length then awaiting frame [] else free
  | awaiting _ _, .write .main _ _ => bad
  | _, .readUart _ _ .error => free
  | idle, .readUart _ _ (.bytes _) => idle
  | awaiting f got, .readUart _ _ (.bytes l) => awaiting f (got ++ l)
  | idle, .event _ => bad
  | awaiting _ got, .event data =>
      if data = got ∧ (Block.decode got).map Prod.snd = some [] then idle else bad
  | p, .readFile .. => p
  | p, .alarm _ => p
  | p, .tcsetattr _ => p
  | p, .usleep _ => p
  | p, .ioctl .. => p

theorem Phase.sink_bad : Monitor.Sink Phase.next .bad := fun _ => rfl

theorem Phase.sink_free : Monitor.Sink Phase.next .free := fun _ => rfl

/-- The phase after all system calls made so far. -/
def phase (w : World) : Phase := Monitor.run Phase.next .idle w.io

/-- Between two steps of the main flow. -/
def Resting (w : World) : Prop := phase w = .idle ∨ phase w = .free

/-- At any point. -/
def Sound (w : World) : Prop := phase w ≠ .bad

theorem Resting.sound {w : World} (h : Resting w) : Sound w := by
  rcases h with h | h <;> simp [Sound, h]

theorem phase_of_io {w t : World} {new : List Io} (h : t.io = w.io ++ new) :
    phase t = Monitor.run Phase.next (phase w) new := by
  rw [phase, h, Monitor.run_append]
  rfl

theorem free_of_io {w t : World} {new : List Io} (h : t.io = w.io ++ new)
    (hw : phase w = .free) : phase t = .free := by
  rw [phase_of_io h, hw, Phase.sink_free.run]

theorem Phase.next_handler {p : Phase} (hp : p ≠ .bad) (frame : List UInt8) (count : Int) :
    p.next (.write .handler frame count) = .free := by
  cases p with
  | bad => exact absurd rfl hp
  | idle | free | awaiting _ _ => rfl

/-- What is proved of a call from where the handler leaves the program is true of it as a
system call. -/
theorem wp_sys {α : Type} {call : Host α} {Q : α → World → Prop} {E : Stop → World → Prop}
    {w : World} (hw : Sound w)
    (quiet : ∀ s, wp call Q E { w with signals := s })
    (free : ∀ v, phase v = .free → wp call Q E v) : wp (sys call) Q E w := by
  obtain ⟨v, hcall, ⟨s, rfl⟩ | ⟨_, count, new, hnew, _⟩⟩ := sys_cases call w
  · rw [wp, hcall]
    exact quiet s
  · have hfree : phase v = .free := by
      rw [phase_of_io hnew, Monitor.run_cons, Phase.next_handler hw, Phase.sink_free.run]
    rw [wp, hcall]
    exact free v hfree

/-! ### Reading an event -/

/-- Waiting for the event of the command `f`: the bytes `got` of it are at the start of
the buffer. -/
def Listening (f got : List UInt8) (w : World) : Prop :=
  phase w = .awaiting f got ∧ Memory.slice w.buffer 0 got.length = got

theorem Listening.sound {f got : List UInt8} {w : World} (h : Listening f got w) : Sound w := by
  rw [Sound, h.1]
  simp

theorem sound_of_free {w : World} (h : phase w = .free) : Sound w := by
  rw [Sound, h]
  simp

/-- Whatever only listens leaves a free phase free. -/
theorem free_listens {α : Type} {c : Host α} (hc : Keeps Listened c) {w : World}
    (hw : phase w = .free) : wp c (fun _ t => phase t = .free) (fun _ t => Sound t) w := by
  have hfree : ∀ t, Listened w t → phase t = .free := by
    intro t ht
    obtain ⟨new, hnew, _⟩ := ht.listens
    exact free_of_io hnew hw
  exact wp_mono (hc w) (fun _ t ht => hfree t ht) (fun _ t ht => sound_of_free (hfree t ht))

theorem Listening.store {f got l : List UInt8} {w v : World} (hw : Listening f got w)
    (hbuffer : v.buffer = Memory.store w.buffer got.length l)
    (hphase : phase v = .awaiting f (got ++ l)) : Listening f (got ++ l) v := by
  refine ⟨hphase, ?_⟩
  have hextend := Memory.slice_store_append hw.2 l
  rwa [Int.zero_add, ← hbuffer] at hextend

/-- One read takes some bytes of the event, and no more than it asks for. -/
theorem readUart_listening {f got : List UInt8} {w : World} (hw : Listening f got w) (len : Int) :
    wp (readUart got.length len)
      (fun count t => phase t = .free ∨
        ∃ l : List UInt8, count = l.length ∧ l.length ≤ len.toNat ∧ Listening f (got ++ l) t)
      (fun _ t => Sound t) w := by
  refine wp_sys hw.sound (fun s => wp_bind.mpr (wp_get.mpr ?_))
    (fun v hv => wp_bind.mpr (wp_get.mpr ?_))
  · dsimp only
    cases hread : Arrivals.read len.toNat w.uart with
    | none => exact hw.sound
    | some answer =>
        obtain ⟨result, rest⟩ := answer
        have hlen := Arrivals.read_length hread
        dsimp only
        refine wp_bind.mpr (wp_modify.mpr (wp_pure.mpr ?_))
        cases result with
        | error =>
            left
            rw [phase_of_io (w := w) rfl, hw.1]
            rfl
        | bytes l =>
            right
            refine ⟨l, rfl, hlen, hw.store rfl ?_⟩
            rw [phase_of_io (w := w) rfl, hw.1]
            rfl
  · cases hread : Arrivals.read len.toNat v.uart with
    | none => exact sound_of_free hv
    | some answer =>
        obtain ⟨result, rest⟩ := answer
        left
        exact free_of_io (w := v) (t := { v with
          uart := rest
          buffer := Memory.store v.buffer got.length result.data
          io := v.io ++ [.readUart got.length len result] }) rfl hv

/-- The loop is left with exactly the bytes it was to read. -/
theorem readLoop_listening {f got : List UInt8} (fuel : Nat) {w : World} (hw : Listening f got w)
    (n : Nat) :
    wp (readLoop fuel got.length n)
      (fun r t => phase t = .free ∨ ∃ more : List UInt8, more.length = n ∧
        r.1 + r.2 = got.length + n ∧ Listening f (got ++ more) t)
      (fun _ t => Sound t) w := by
  induction fuel generalizing got n w with
  | zero => exact hw.sound
  | succ fuel ih =>
      refine wp_seq (readUart_listening hw n) (fun count t ht => ?_)
      obtain hfree | ⟨l, rfl, hlen, ht⟩ := ht
      · split
        · exact wp_mono (free_listens (readLoop_listens fuel _ _) hfree) (fun _ _ h => Or.inl h)
            (fun _ _ h => h)
        · exact Or.inl hfree
      · rw [Int.toNat_natCast] at hlen
        by_cases hlt : l.length < n
        · have hnext := ih ht (n - l.length)
          have hrest : (n : Int) - l.length = ((n - l.length : Nat) : Int) := by omega
          have hlength : ((got ++ l).length : Int) = got.length + l.length := by simp
          rw [if_pos (by omega), hrest]
          rw [hlength] at hnext
          refine wp_mono hnext (fun r t' h => ?_) (fun _ _ h => h)
          obtain h | ⟨more, hmore, hsum, h⟩ := h
          · exact Or.inl h
          · refine Or.inr ⟨l ++ more, by rw [List.length_append]; omega, by omega, ?_⟩
            rwa [← List.append_assoc]
        · rw [if_neg (by omega)]
          exact Or.inr ⟨l, by omega, by simp; omega, ht⟩

theorem readFull_listening {f got : List UInt8} {w : World} (hw : Listening f got w) (n : Nat) :
    wp (readFull got.length n)
      (fun r t => phase t = .free ∨ ∃ more : List UInt8, more.length = n ∧
        r.1 + r.2 = got.length + n ∧ Listening f (got ++ more) t)
      (fun _ t => Sound t) w :=
  readLoop_listening _ hw n

/-- `read_event` records an event when the bytes read since the command are one. -/
theorem readEvent_listening {f : List UInt8} {w : World} (hw : Listening f [] w) :
    wp readEvent (fun _ t => Resting t) (fun _ t => Sound t) w := by
  refine wp_seq (readFull_listening hw 3) (fun r u hu => ?_)
  obtain hfree | ⟨header, hthree, hsum, hu⟩ := hu
  · refine wp_bind.mpr (wp_gets.mpr ?_)
    refine wp_seq (free_listens (readFull_listens _ _) hfree) (fun r' t ht => ?_)
    exact Or.inr (free_of_io (w := t) rfl ht)
  · obtain ⟨x, y, z, rfl⟩ := List.length_eq_three.mp hthree
    have hsize : u.buffer 2 = z := by
      have hthird := Memory.getElem_of_slice hu.2 (k := 2) (by simp)
      exact (Option.some.inj hthird).symm
    refine wp_bind.mpr (wp_gets.mpr ?_)
    rw [hsize, hsum]
    refine wp_seq (readFull_listening hu z.toNat) (fun r' t ht => ?_)
    obtain hfree | ⟨payload, hlen, hsum', ht⟩ := ht
    · exact Or.inr (free_of_io (w := t) rfl hfree)
    · left
      have hall : (r'.2 + r'.1).toNat = ([] ++ [x, y, z] ++ payload).length := by
        simp only [List.nil_append, List.cons_append, List.length_cons]
        simp only [List.nil_append, List.length_cons, List.length_nil] at hsum'
        omega
      change phase { t with
        io := t.io ++ [.event (Memory.slice t.buffer 0 (r'.2 + r'.1).toNat)] } = .idle
      rw [hall, ht.2, phase_of_io (w := t) rfl, ht.1]
      change (if _ ∧ _ then Phase.idle else Phase.bad) = Phase.idle
      exact if_pos ⟨rfl, Block.decode_exact x y z hlen⟩

/-! ### The steps of the program -/

/-- From one rest to the next, and never bad on the way. -/
abbrev TakesTurns {α : Type} (c : Host α) : Prop := Leads Resting Resting Sound c

namespace TakesTurns

variable {α : Type}

theorem stop (e : Stop) : TakesTurns (Effect.stop e : Host α) :=
  Leads.stop (fun _ hw => hw.sound) e

theorem when {p : Prop} [Decidable p] {c : Host Unit} (h : TakesTurns c) :
    TakesTurns (Effect.when p c) :=
  Leads.when (fun _ => h) fun _ _ hw => hw

theorem sys {call : Host α} (h : TakesTurns call) : TakesTurns (sys call) :=
  fun _ hw => wp_sys hw.sound (fun _ => h _ hw) fun v hv => h v (Or.inr hv)

/-- Calls that neither open nor close a turn. -/
theorem modify {g : World → World} (new : World → List Io) (hio : ∀ w, (g w).io = w.io ++ new w)
    (hrest : ∀ w, Monitor.run Phase.next .idle (new w) = .idle ∨
      Monitor.run Phase.next .idle (new w) = .free) :
    TakesTurns (Effect.modify g : Host Unit) := by
  intro w hw
  cases hw with
  | inl hw =>
      have hphase := phase_of_io (hio w)
      rw [hw] at hphase
      exact (hrest w).imp hphase.trans hphase.trans
  | inr hw => exact Or.inr (free_of_io (hio w) hw)

end TakesTurns

/-- The program waits for the event of the command `f`, or nothing is required any more. -/
def Sent (f : List UInt8) (w : World) : Prop := phase w = .free ∨ Listening f [] w

theorem hciSendCmd_sent (frame : List UInt8) {w : World} (hw : Resting w) :
    wp (sys (hciSendCmd .main frame)) (fun _ t => Sent frame t) (fun _ t => Sound t) w := by
  have hcall : ∀ v, Resting v →
      wp (hciSendCmd .main frame) (fun _ t => Sent frame t) (fun _ t => Sound t) v := by
    intro v hv
    have hio : ((hciSendCmd .main frame) v).2.io =
        v.io ++ [.write .main frame (v.writes.headD frame.length)] := rfl
    cases hv with
    | inl hv =>
        by_cases hcount : v.writes.headD frame.length = frame.length
        · refine Or.inr ⟨(phase_of_io hio).trans ?_, rfl⟩
          rw [hv]
          exact if_pos hcount
        · refine Or.inl ((phase_of_io hio).trans ?_)
          rw [hv]
          exact if_neg hcount
    | inr hv => exact Or.inl (free_of_io hio hv)
  exact wp_sys hw.sound (fun _ => hcall _ hw) fun v hv => hcall v (Or.inr hv)

theorem Sent.sound {f : List UInt8} {w : World} (h : Sent f w) : Sound w := by
  cases h with
  | inl h => exact sound_of_free h
  | inr h => exact h.sound

/-- An alarm is set while the program waits. -/
theorem alarm_sent {f : List UInt8} {w : World} (hw : Sent f w) (seconds : Nat) :
    wp (sys (alarm seconds)) (fun _ t => Sent f t) (fun _ t => Sound t) w := by
  have hcall : ∀ v, Sent f v →
      wp (alarm seconds) (fun _ t => Sent f t) (fun _ t => Sound t) v := by
    intro v hv
    have hio : (alarm seconds v).2.io = v.io ++ [.alarm seconds] := rfl
    cases hv with
    | inl hv => exact Or.inl (free_of_io hio hv)
    | inr hv =>
        refine Or.inr ⟨(phase_of_io hio).trans ?_, hv.2⟩
        rw [hv.1]
        rfl
  exact wp_sys hw.sound (fun _ => hcall _ hw) fun v hv => hcall v (Or.inl hv)

theorem readEvent_sent {f : List UInt8} {w : World} (hw : Sent f w) :
    wp readEvent (fun _ t => Resting t) (fun _ t => Sound t) w := by
  cases hw with
  | inl hw =>
      exact wp_mono (free_listens readEvent_listens hw) (fun _ _ h => Or.inr h) (fun _ _ h => h)
  | inr hw => exact readEvent_listening hw

/-- A command and its event, from one rest to the next. -/
theorem exchange_turns (frame : List UInt8) : TakesTurns (exchange frame) :=
  fun _ hw => wp_seq (hciSendCmd_sent frame hw) fun _ _ ht => readEvent_sent ht

theorem alarm_turns (seconds : Nat) : TakesTurns (sys (alarm seconds)) :=
  TakesTurns.sys (TakesTurns.modify (fun _ => [.alarm seconds]) (fun _ => rfl) fun _ => Or.inl rfl)

theorem procReset_turns : TakesTurns procReset := by
  intro w hw
  refine wp_seq (hciSendCmd_sent hciReset hw) (fun _ u hu => ?_)
  refine wp_seq (alarm_sent hu 4) (fun _ v hv => ?_)
  exact wp_seq (readEvent_sent hv) fun _ t ht => alarm_turns 0 t ht

theorem setSpeed_turns (speed : Nat) : TakesTurns (setSpeed speed) :=
  TakesTurns.modify (fun _ => [.tcsetattr speed]) (fun _ => rfl) fun _ => Or.inl rfl

theorem record_turns {e : Io} (h : Phase.next .idle e = .idle) : TakesTurns (record e) :=
  TakesTurns.modify (fun _ => [e]) (fun _ => rfl) fun _ => Or.inl h

theorem readFile_turns (i len : Int) : TakesTurns (readFile i len) := by
  refine TakesTurns.sys (.bind .get fun w => ?_)
  refine .bind (TakesTurns.modify
    (fun _ => [.readFile i len (fileAnswer w.fileReads w.file len.toNat).1]) (fun _ => rfl)
    fun _ => Or.inl rfl) fun _ => .pure _

theorem readUart_turns (i len : Int) : TakesTurns (readUart i len) := by
  refine TakesTurns.sys (.bind .get fun w => ?_)
  cases Arrivals.read len.toNat w.uart with
  | none => exact TakesTurns.stop _
  | some answer =>
      obtain ⟨result, rest⟩ := answer
      refine .bind (TakesTurns.modify (fun _ => [.readUart i len result]) (fun _ => rfl)
        fun _ => ?_) fun _ => .pure _
      cases result with
      | error => exact Or.inr rfl
      | bytes l => exact Or.inl rfl

theorem downloadLoop_turns (fuel : Nat) : TakesTurns (downloadLoop fuel) := by
  induction fuel with
  | zero => exact TakesTurns.stop _
  | succ fuel ih =>
      refine .bind (readFile_turns 1 3) fun count => TakesTurns.when ?_
      apply Leads.bind (TakesTurns.modify (fun _ => []) (fun _ => by simp) fun _ => Or.inl rfl)
      intro _
      apply Leads.bind (.gets _)
      intro len
      apply Leads.bind (readFile_turns _ _)
      intro _
      exact .bind (.gets _) fun frame => .bind (exchange_turns frame) fun _ => ih

theorem procPatchram_turns : TakesTurns procPatchram := by
  apply Leads.bind (exchange_turns _)
  intro _
  apply Leads.bind (.gets _)
  intro config
  apply Leads.bind (TakesTurns.when (.bind (readUart_turns _ _) fun _ => .pure _))
  intro _
  apply Leads.bind (TakesTurns.when (TakesTurns.sys (record_turns rfl)))
  intro _
  apply Leads.bind (.bind (.gets _) fun fuel => downloadLoop_turns fuel)
  intro _
  exact .bind (TakesTurns.when (TakesTurns.sys (setSpeed_turns _))) fun _ => procReset_turns

theorem procBaudrate_turns : TakesTurns procBaudrate :=
  .bind (.gets _) fun _ => .bind (exchange_turns _) fun _ => TakesTurns.sys (setSpeed_turns _)

theorem procBdaddr_turns : TakesTurns procBdaddr :=
  .bind (.gets _) fun _ => exchange_turns _

theorem procEnableLpm_turns : TakesTurns procEnableLpm := exchange_turns _

theorem procScopcm_turns : TakesTurns procScopcm :=
  .bind (.gets _) fun _ => .bind (exchange_turns _) fun _ => exchange_turns _

theorem procI2s_turns : TakesTurns procI2s :=
  .bind (.gets _) fun _ => exchange_turns _

theorem initUart_turns : TakesTurns initUart := by
  apply Leads.bind (TakesTurns.modify (fun _ => []) (fun _ => by simp) fun _ => Or.inl rfl)
  intro _
  apply Leads.bind (.gets _)
  intro old
  apply Leads.bind (TakesTurns.sys (record_turns rfl))
  intro _
  exact .bind (TakesTurns.sys (record_turns rfl)) fun _ => TakesTurns.sys (setSpeed_turns _)

theorem ioctl_turns (name : String) : TakesTurns (ioctl name) := by
  refine TakesTurns.sys (.bind (.gets _) fun result => ?_)
  exact .bind (TakesTurns.modify (fun _ => [.ioctl name result]) (fun _ => rfl) fun _ => Or.inl rfl)
    fun _ => .pure _

theorem procEnableHci_turns : TakesTurns procEnableHci := by
  apply Leads.bind (ioctl_turns _)
  intro result
  apply TakesTurns.when
  exact .bind (ioctl_turns _) fun _ => .pure _

/-- No run of the program is ever bad. -/
theorem program_turns : TakesTurns program :=
  program_leads (fun _ hw => hw.sound) initUart_turns procReset_turns procBaudrate_turns
    procPatchram_turns procBdaddr_turns procEnableLpm_turns procScopcm_turns procI2s_turns
    procEnableHci_turns

end Patchram
