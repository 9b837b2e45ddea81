import SystemBluetooth.Patchram.Pairing
import SystemBluetooth.Patchram.Rates

/-!
# Both ends talk at one speed

The controller starts at 115200 baud, takes over the rate of an Update_Baud_Rate command
once it has answered it, and is back at 115200 when it has answered the last record of the
firmware. `Ends` follows this and the speed of the host over a trace.

As long as no alarm expires and no Update_Baud_Rate command is lost, every command is sent at a
common speed, whatever the options are, with two exceptions. A record of the file may well be an
Update_Baud_Rate command, and nothing in the program looks for one: until the download is over
the host is `diverted`. And a file without any record leaves the controller where it is, while the
host goes back if the download was to be faster: until it changes its speed again it is `stranded`.
-/

namespace Patchram

open Effect

/-- Where a trace has brought the two ends. -/
structure Ends where
  /-- The speed of the host as a termios constant, and that of the controller in baud. -/
  host : Nat
  controller : Nat
  /-- The rate that the command being answered asks for. -/
  asked : Option Nat
  /-- The command being answered is a record of the file, or one has been answered. -/
  record : Bool
  loaded : Bool
  /-- A record has asked for a rate, and the download is not over. -/
  diverted : Bool
  /-- The download has just ended without a record. -/
  vacant : Bool
  /-- The host has gone back after such a download, and has kept this speed since. -/
  stranded : Bool
  deriving DecidableEq

def Ends.start : Ends := ⟨0, 115200, none, false, false, false, false, false⟩

def Ends.next (s : Ends) : Io → Ends
  | .tcsetattr speed => { s with host := speed, vacant := false, stranded := s.vacant }
  | .write _ frame count =>
      -- A command that is not written whole does not get there.
      let asked := if count = frame.length then updateRate frame else none
      { s with
        asked := asked
        record := s.record && count = frame.length
        diverted := s.diverted || (s.record && asked.isSome)
        vacant := false }
  | .event _ =>
      { s with
        controller := s.asked.getD s.controller
        asked := none
        record := false
        loaded := s.loaded || s.record }
  | .readFile i _ result =>
      if i = 4 then { s with record := true }
      else if result.count = 0 then
        -- The header read that ends the download: there will be no further record.
        { s with
          controller := if s.loaded then 115200 else s.controller
          diverted := false
          vacant := !s.loaded }
      else s
  | _ => s

/-- The two ends after a trace. -/
def ends (io : List Io) : Ends := Monitor.run Ends.next .start io

def Ends.Agree (s : Ends) : Prop := denotes s.host = some s.controller

instance (s : Ends) : Decidable s.Agree :=
  inferInstanceAs (Decidable (denotes s.host = some s.controller))

theorem ends_append (io : List Io) (e : Io) : ends (io ++ [e]) = (ends io).next e := by
  rw [ends, Monitor.run_append]
  rfl

/-- If the command asks for a rate, it has been written whole. -/
def RateWritten (frame : List UInt8) (count : Int) : Prop :=
  (updateRate frame).isSome = true → count = frame.length

/-- No Update_Baud_Rate command has been lost. -/
def RatesWritten (io : List Io) : Prop :=
  ∀ caller frame count, .write caller frame count ∈ io → RateWritten frame count

/-- No alarm has expired, and no rate has been lost. -/
def Plain (io : List Io) : Prop := NoExpiry io ∧ RatesWritten io

theorem Plain.of_append {a b : List Io} (h : Plain (a ++ b)) : Plain a :=
  ⟨fun f n hmem => h.1 f n (List.mem_append_left b hmem),
    fun c f n hmem => h.2 c f n (List.mem_append_left b hmem)⟩

/-- Every command of the main flow was sent at a common speed, but for the two exceptions. -/
def Common (io : List Io) : Prop :=
  ∀ before after frame count, io = before ++ .write .main frame count :: after →
    Plain before → (ends before).diverted = false → (ends before).stranded = false →
      (ends before).Agree

theorem Common.nil : Common [] := fun before after frame count h => by simp at h

theorem Common.append {io : List Io} {e : Io} (h : Common io)
    (hsend : ∀ frame count, e = .write .main frame count → Plain io →
      (ends io).diverted = false → (ends io).stranded = false → (ends io).Agree) :
    Common (io ++ [e]) := by
  intro before after frame count hio hplain
  obtain rfl | ⟨after', last, rfl⟩ := List.eq_nil_or_concat after
  · obtain ⟨rfl, he⟩ : io = before ∧ e = .write .main frame count := by simpa using hio
    exact hsend frame count he hplain
  · rw [List.concat_eq_append, ← List.cons_append, ← List.append_assoc] at hio
    exact h before after' frame count (List.append_inj' hio rfl).1 hplain

/-! ### What holds between the steps -/

/-- The globals are `g`, all commands were sent at a common speed, and the two ends are as `C`
says as long as the trace is `Plain`. -/
structure Hold (g : Globals) (C : Ends → Prop) (w : World) : Prop where
  config : w.config = g
  common : Common w.io
  ends : Plain w.io → C (ends w.io)

variable {g : Globals} {C D : Ends → Prop} {α : Type}

theorem Hold.mono {w : World} (h : Hold g C w) (hCD : ∀ s, C s → D s) : Hold g D w :=
  ⟨h.config, h.common, fun hplain => hCD _ (h.ends hplain)⟩

/-- One more system call. -/
theorem Hold.append {w t : World} {e : Io} (h : Hold g C w) (hconfig : t.config = w.config)
    (hio : t.io = w.io ++ [e])
    (hsend : ∀ frame count, e = .write .main frame count → ∀ s, C s → s.diverted = false →
      s.stranded = false → s.Agree)
    (hnext : ∀ s, C s → Plain (w.io ++ [e]) → D (s.next e)) : Hold g D t := by
  refine ⟨hconfig.trans h.config, ?_, fun hplain => ?_⟩
  · rw [hio]
    exact h.common.append fun frame count he hplain => hsend frame count he _ (h.ends hplain)
  · rw [hio] at hplain ⊢
    rw [ends_append]
    exact hnext _ (h.ends hplain.of_append) hplain

/-- Once a handler has run, nothing more is required of the trace. -/
theorem Hold.of_handled {w v : World} {count : Int} {new : List Io} (h : Hold g C w)
    (hv : Handled w v) (hio : v.io = w.io ++ .write .handler hciReset count :: new)
    (hnew : ∀ e ∈ new, e.ByHandler) : Hold g D v := by
  have hcommon : ∀ l : List Io, (∀ e ∈ l, e.ByHandler) → Common (w.io ++ l) := by
    intro l
    induction l using List.reverseRecOn with
    | nil =>
        intro _
        rw [List.append_nil]
        exact h.common
    | append_singleton l e ih =>
        intro hl
        rw [← List.append_assoc]
        refine (ih fun x hx => hl x (List.mem_append_left _ hx)).append fun frame n he _ => ?_
        have hhandler := hl e (by simp)
        rw [he] at hhandler
        exact hhandler.elim
  refine ⟨by rw [hv.state, h.config], ?_, fun hplain => ?_⟩
  · rw [hio]
    exact hcommon _ (List.forall_mem_cons.mpr ⟨rfl, hnew⟩)
  · exact absurd (by rw [hio]; simp) (hplain.1 hciReset count)

theorem wp_sys_hold {call : Host α} {R : α → World → Prop} {E : Stop → World → Prop} {w : World}
    (hw : Hold g C w) (h : ∀ v, Hold g C v → wp call R E v) : wp (sys call) R E w := by
  obtain ⟨v, hcall, ⟨s, rfl⟩ | ⟨hv, count, new, hio, hnew⟩⟩ := sys_cases call w
  · rw [wp, hcall]
    exact h _ ⟨hw.config, hw.common, hw.ends⟩
  · rw [wp, hcall]
    exact h v (hw.of_handled hv hio hnew)

/-- A part of the program takes the ends from `C` to `D`. -/
abbrev Takes (g : Globals) (C D : Ends → Prop) (c : Host α) : Prop :=
  Leads (Hold g C) (Hold g D) (fun t => Common t.io) c

theorem sys_takes {call : Host α} (h : Takes g C D call) : Takes g C D (sys call) :=
  fun _ hw => wp_sys_hold hw fun v hv => h v hv

theorem stop_takes (e : Stop) : Takes g C D (stop e : Host α) := .stop (fun _ hw => hw.common) e

theorem when_takes {p : Prop} [Decidable p] {c : Host Unit} (h : p → Takes g C C c) :
    Takes g C C (Effect.when p c) :=
  .when h fun _ _ hw => hw

/-- Changes of the state that are no system call. -/
theorem modify_takes {f : World → World} (hconfig : ∀ w, (f w).config = w.config)
    (hio : ∀ w, (f w).io = w.io) : Takes g C C (modify f) :=
  Leads.modify fun w hw => ⟨(hconfig w).trans hw.config, by rw [hio]; exact hw.common,
    by rw [hio]; exact hw.ends⟩

/-- A system call that is no command. -/
theorem append_takes {f : World → World} (e : World → Io)
    (hconfig : ∀ w, (f w).config = w.config) (hio : ∀ w, (f w).io = w.io ++ [e w])
    (hquiet : ∀ w frame count, e w ≠ .write .main frame count)
    (hnext : ∀ w s, C s → D (s.next (e w))) : Takes g C D (modify f) :=
  Leads.modify fun w hw => hw.append (hconfig w) (hio w)
    (fun frame count he => absurd he (hquiet w frame count)) fun s hs _ => hnext w s hs

/-- What the program reads of the globals. -/
theorem gets_config_takes {k : Globals → Host α} (h : Takes g C D (k g)) :
    Takes g C D (gets World.config >>= k) := by
  intro w hw
  refine wp_bind.mpr (wp_gets.mpr ?_)
  rw [hw.config]
  exact h w hw

/-- Whatever the program depends on, it is enough that the ends are as `D` says for each of
the values that `C` allows. A trace that is not `Plain` need not have any. -/
theorem exists_takes {ι : Type} {P : ι → Ends → Prop} {c : Host α} (i : ι)
    (h : ∀ i, Takes g (P i) D c) : Takes g (fun s => ∃ i, P i s) D c := by
  intro w hw
  by_cases hplain : Plain w.io
  · obtain ⟨j, hj⟩ := hw.ends hplain
    exact h j w ⟨hw.config, hw.common, fun _ => hj⟩
  · exact h i w ⟨hw.config, hw.common, fun hp => absurd hp hplain⟩

/-! ### Steps -/

theorem readUart_takes (i len : Int) : Takes g C C (readUart i len) := by
  refine sys_takes fun w hw => wp_bind.mpr (wp_get.mpr ?_)
  cases Arrivals.read len.toNat w.uart with
  | none => exact hw.common
  | some answer => exact hw.append rfl rfl (fun _ _ he => nomatch he) fun s hs _ => hs

theorem readLoop_takes (fuel : Nat) (i len : Int) : Takes g C C (readLoop fuel i len) := by
  induction fuel generalizing i len with
  | zero => exact stop_takes _
  | succ fuel ih =>
      apply Leads.bind (readUart_takes i len)
      intro count
      split
      · exact ih _ _
      · exact .pure _

theorem readFull_takes (i len : Int) : Takes g C C (readFull i len) :=
  .bind (.gets _) fun fuel => readLoop_takes fuel i len

/-- The controller has answered. -/
theorem readEvent_takes (h : ∀ s received, C s → D (s.next (.event received))) :
    Takes g C D readEvent := by
  apply Leads.bind (readFull_takes 0 3)
  intro _
  apply Leads.bind (.gets _)
  intro len
  apply Leads.bind (readFull_takes _ len)
  intro _
  apply Leads.bind (.gets _)
  intro received
  exact append_takes (fun _ => .event received) (fun _ => rfl) (fun _ => rfl)
    (fun _ _ _ he => nomatch he) fun _ s hs => h s received hs

/-- A command is sent at a common speed, and gets there if it is written whole. -/
theorem hciSendCmd_takes {frame : List UInt8}
    (hsend : ∀ s, C s → s.diverted = false → s.stranded = false → s.Agree)
    (hnext : ∀ s count, C s → RateWritten frame count → D (s.next (.write .main frame count))) :
    Takes g C D (sys (hciSendCmd .main frame)) := by
  refine sys_takes (Leads.modify fun w hw => ?_)
  refine hw.append rfl rfl (fun _ _ _ => hsend) fun s hs hplain => ?_
  exact hnext s _ hs (hplain.2 .main frame _ (List.mem_append_right _ List.mem_cons_self))

theorem setSpeed_takes (speed : Nat) (h : ∀ s, C s → D (s.next (.tcsetattr speed))) :
    Takes g C D (sys (setSpeed speed)) :=
  sys_takes (append_takes (fun _ => .tcsetattr speed) (fun _ => rfl) (fun _ => rfl)
    (fun _ _ _ he => nomatch he) fun _ s hs => h s hs)

theorem alarm_takes (seconds : Nat) : Takes g C C (sys (alarm seconds)) :=
  sys_takes (append_takes (fun _ => .alarm seconds) (fun _ => rfl) (fun _ => rfl)
    (fun _ _ _ he => nomatch he) fun _ _ hs => hs)

/-- A command has been written, and is to be answered. -/
def Requested (C : Ends → Prop) (frame : List UInt8) (t : Ends) : Prop :=
  ∃ s count, C s ∧ RateWritten frame count ∧ t = s.next (.write .main frame count)

/-- A command and its event. -/
theorem exchange_takes {frame : List UInt8}
    (hsend : ∀ s, C s → s.diverted = false → s.stranded = false → s.Agree)
    (hnext : ∀ s count received, C s → RateWritten frame count →
      D ((s.next (.write .main frame count)).next (.event received))) :
    Takes g C D (exchange frame) := by
  refine .bind (hciSendCmd_takes (D := Requested C frame) hsend
    fun s count hs hwritten => ⟨s, count, hs, hwritten, rfl⟩) fun _ => readEvent_takes ?_
  rintro _ received ⟨s, count, hs, hwritten, rfl⟩
  exact hnext s count received hs hwritten

/-- The timer that `proc_reset` sets is no command. -/
theorem procReset_takes
    (hsend : ∀ s, C s → s.diverted = false → s.stranded = false → s.Agree)
    (hnext : ∀ s count received, C s → RateWritten hciReset count →
      D ((s.next (.write .main hciReset count)).next (.event received))) :
    Takes g C D procReset := by
  refine .bind (hciSendCmd_takes (D := Requested C hciReset) hsend
    fun s count hs hwritten => ⟨s, count, hs, hwritten, rfl⟩) fun _ =>
      .bind (alarm_takes 4) fun _ => .bind (readEvent_takes ?_) fun _ => alarm_takes 0
  rintro _ received ⟨s, count, hs, hwritten, rfl⟩
  exact hnext s count received hs hwritten

/-- Most commands change no speed. -/
theorem Ends.next_exchange {s : Ends} (hasked : s.asked = none) (hrecord : s.record = false)
    {frame : List UInt8} (hframe : updateRate frame = none) (count : Int) (received : List UInt8) :
    (s.next (.write .main frame count)).next (.event received) = { s with vacant := false } := by
  simp [Ends.next, hframe, hasked, hrecord]

/-- An Update_Baud_Rate command changes both, one after the other. -/
theorem Ends.next_update {s : Ends} (hrecord : s.record = false) {frame : List UInt8} {rate : Nat}
    (hframe : updateRate frame = some rate) {count : Int} (hwritten : RateWritten frame count)
    (received : List UInt8) (speed : Nat) :
    ((s.next (.write .main frame count)).next (.event received)).next (.tcsetattr speed) =
      { s with
        host := speed
        controller := rate
        asked := none
        vacant := false
        stranded := false } := by
  obtain rfl := hwritten (by rw [hframe]; rfl)
  simp [Ends.next, hframe, hrecord]

/-- The controller changes its speed when it answers, and the host follows. -/
theorem procBaudrate_takes (hg : Configured g) (hset : g.termiosBaudrate ≠ 0)
    (hsend : ∀ s, C s → s.diverted = false → s.stranded = false → s.Agree)
    (hnext : ∀ s rate, C s → denotes g.termiosBaudrate = some rate → s.record = false ∧
      D { s with
        host := g.termiosBaudrate
        controller := rate
        asked := none
        vacant := false
        stranded := false }) : Takes g C D procBaudrate := by
  obtain ⟨rate, hrate, hdenotes⟩ := hg.rates.denotes hset
  have hexchange : Takes g C (fun t => D (t.next (.tcsetattr g.termiosBaudrate)))
      (exchange g.hciUpdateBaudRate) := by
    refine exchange_takes hsend fun s count received hs hwritten => ?_
    obtain ⟨hrecord, hD⟩ := hnext s rate hs hdenotes
    rwa [Ends.next_update hrecord hrate hwritten]
  exact gets_config_takes (.bind hexchange fun _ => setSpeed_takes _ fun _ hs => hs)

/-! ### Commands outside of a download -/

/-- Nothing is being answered, and the ends agree unless the host is stranded. -/
structure Ends.Calm (s : Ends) : Prop where
  asked : s.asked = none
  record : s.record = false
  diverted : s.diverted = false
  agree : s.stranded = false → s.Agree

theorem Ends.Calm.sends (s : Ends) (h : s.Calm) (_ : s.diverted = false)
    (hstranded : s.stranded = false) : s.Agree := h.agree hstranded

theorem Ends.Calm.exchange {s : Ends} (h : s.Calm) {frame : List UInt8}
    (hframe : updateRate frame = none) (count : Int) (received : List UInt8) :
    ((s.next (.write .main frame count)).next (.event received)).Calm := by
  rw [Ends.next_exchange h.asked h.record hframe]
  exact ⟨h.asked, h.record, h.diverted, h.agree⟩

theorem exchange_calm {frame : List UInt8} (hframe : updateRate frame = none) :
    Takes g Ends.Calm Ends.Calm (exchange frame) :=
  exchange_takes Ends.Calm.sends fun _ count received hs _ => hs.exchange hframe count received

theorem procReset_calm : Takes g Ends.Calm Ends.Calm procReset :=
  procReset_takes Ends.Calm.sends fun _ count received hs _ => hs.exchange rfl count received

/-- Whatever has been before, the two ends agree now. -/
theorem procBaudrate_calm (hg : Configured g) (hset : g.termiosBaudrate ≠ 0) :
    Takes g Ends.Calm Ends.Calm procBaudrate :=
  procBaudrate_takes hg hset Ends.Calm.sends fun _ _ hs hrate =>
    ⟨hs.record, rfl, hs.record, hs.diverted, fun _ => hrate⟩

theorem ioctl_calm (name : String) : Takes g Ends.Calm Ends.Calm (ioctl name) := by
  refine sys_takes (.bind (.gets _) fun result => .bind ?_ fun _ => .pure _)
  exact append_takes (fun _ => .ioctl name result) (fun _ => rfl) (fun _ => rfl)
    (fun _ _ _ he => nomatch he) fun _ _ hs => hs

theorem procBdaddr_calm (hg : Configured g) : Takes g Ends.Calm Ends.Calm procBdaddr :=
  gets_config_takes (exchange_calm (updateRate_of_header hg.bdAddr (by decide)))

theorem procEnableLpm_calm : Takes g Ends.Calm Ends.Calm procEnableLpm := exchange_calm rfl

theorem procScopcm_calm (hg : Configured g) : Takes g Ends.Calm Ends.Calm procScopcm := by
  apply gets_config_takes
  apply Leads.bind (exchange_calm (updateRate_of_header hg.scoPcmInt (by decide)))
  intro _
  exact exchange_calm (updateRate_of_header hg.pcmDataFormat (by decide))

theorem procI2s_calm (hg : Configured g) : Takes g Ends.Calm Ends.Calm procI2s :=
  gets_config_takes (exchange_calm (updateRate_of_header hg.i2spcm (by decide)))

theorem procEnableHci_calm : Takes g Ends.Calm Ends.Calm procEnableHci := by
  apply Leads.bind (ioctl_calm _)
  intro result
  apply when_takes
  intro _
  exact .bind (ioctl_calm _) fun _ => .pure _

/-! ### The download -/

section Download

variable {host controller : Nat}

/-- Before the download nothing but the two speeds has changed. -/
def Ends.early (host controller : Nat) : Ends :=
  ⟨host, controller, none, false, false, false, false, false⟩

theorem Ends.early_sends (hs : denotes host = some controller) (s : Ends)
    (h : s = early host controller) (_ : s.diverted = false) (_ : s.stranded = false) : s.Agree :=
  h ▸ hs

theorem exchange_early {frame : List UInt8} (hframe : updateRate frame = none)
    (hs : denotes host = some controller) :
    Takes g (· = .early host controller) (· = .early host controller) (exchange frame) := by
  refine exchange_takes (Ends.early_sends hs) ?_
  rintro _ count received rfl _
  exact Ends.next_exchange rfl rfl hframe count received

/-- Between two records: the controller has changed its speed only if it was diverted. -/
structure Ends.Loading (host controller : Nat) (s : Ends) : Prop where
  host : s.host = host
  asked : s.asked = none
  record : s.record = false
  stranded : s.stranded = false
  same : s.diverted = false → s.controller = controller
  loaded : s.diverted = true → s.loaded = true

/-- The download is over: the controller is back, unless there was no record. -/
structure Ends.Over (host controller : Nat) (s : Ends) : Prop where
  host : s.host = host
  asked : s.asked = none
  record : s.record = false
  diverted : s.diverted = false
  stranded : s.stranded = false
  fallen : s.vacant = false → s.controller = 115200
  vacant : s.vacant = true → s.controller = controller

theorem Ends.Loading.header {s : Ends} (h : s.Loading host controller) (len : Int)
    (result : Arrival UInt8) : if result.count = 0
      then (s.next (.readFile 1 len result)).Over host controller
      else (s.next (.readFile 1 len result)).Loading host controller := by
  split_ifs with hcount
  · simp only [Ends.next, if_neg (show ¬ (1 : Int) = 4 by decide), if_pos hcount]
    refine ⟨h.host, h.asked, h.record, rfl, h.stranded, fun hvacant => ?_, fun hvacant => ?_⟩
    · have hloaded : s.loaded = true := by simpa using hvacant
      exact if_pos hloaded
    · have hloaded : ¬ s.loaded = true := by simpa using hvacant
      have hdiverted : s.diverted = false := by
        by_contra hd
        exact hloaded (h.loaded (by simpa using hd))
      exact (if_neg hloaded).trans (h.same hdiverted)
  · simpa only [Ends.next, if_neg (show ¬ (1 : Int) = 4 by decide), if_neg hcount] using h

/-- A record is sent, and answered; it may divert the controller. -/
theorem Ends.Loading.turn {s : Ends} (h : s.Loading host controller) (len : Int)
    (result : Arrival UInt8) (frame : List UInt8) (count : Int) (received : List UInt8) :
    (((s.next (.readFile 4 len result)).next (.write .main frame count)).next
      (.event received)).Loading host controller := by
  refine ⟨h.host, rfl, rfl, h.stranded, fun hdiverted => ?_, fun hdiverted => ?_⟩
  · simp only [Ends.next, if_true, Bool.true_and, Bool.or_eq_false_iff,
      Option.isSome_eq_false_iff, Option.isNone_iff_eq_none] at hdiverted ⊢
    rw [hdiverted.2]
    exact h.same hdiverted.1
  · by_cases hcount : count = frame.length
    · simp [Ends.next, hcount]
    · simp only [Ends.next, if_true, if_neg hcount, Option.isSome_none, Bool.and_false,
        Bool.or_false] at hdiverted ⊢
      rw [h.loaded hdiverted]
      rfl

/-- The data of a record has been read. -/
def HasRead (host controller : Nat) (len : Int) (t : Ends) : Prop :=
  ∃ (s : Ends) (result : Arrival UInt8),
    s.Loading host controller ∧ t = s.next (.readFile 4 len result)

theorem readFile_record {len : Int} : Takes g (Ends.Loading host controller)
    (HasRead host controller len) (readFile 4 len) := by
  refine sys_takes fun w hw => wp_bind.mpr (wp_get.mpr ?_)
  exact hw.append rfl rfl (fun _ _ he => nomatch he) fun s h _ => ⟨s, _, h, rfl⟩

theorem Ends.Loading.agree {s : Ends} (h : s.Loading host controller)
    (hs : denotes host = some controller) (hdiverted : s.diverted = false) : s.Agree := by
  rw [Ends.Agree, h.host, h.same hdiverted]
  exact hs

/-- The read of a header ends the download, or goes on with it. -/
theorem readFile_header {w : World} (hw : Hold g (Ends.Loading host controller) w) :
    wp (readFile 1 3) (fun count t => if count = 0 then Hold g (Ends.Over host controller) t
      else Hold g (Ends.Loading host controller) t) (fun _ t => Common t.io) w := by
  refine wp_sys_hold hw fun v hv => wp_bind.mpr (wp_get.mpr ?_)
  change if _ then _ else _
  have hnext (s : Ends) (h : s.Loading host controller) := h.header 3
    (fileAnswer v.fileReads v.file (3 : Int).toNat).1
  split_ifs with hcount
  · exact hv.append rfl rfl (fun _ _ he => nomatch he) fun s h _ => (if_pos hcount).mp (hnext s h)
  · exact hv.append rfl rfl (fun _ _ he => nomatch he) fun s h _ => (if_neg hcount).mp (hnext s h)

/-- A record, from behind its header on, and what follows it. -/
theorem record_takes (hs : denotes host = some controller) {next : Host Unit}
    (hnext : Takes g (Ends.Loading host controller) D next) :
    Takes g (Ends.Loading host controller) D (do
      modify fun w => { w with buffer := Memory.store w.buffer 0 [0x01] }
      let len ← gets fun w => (w.buffer 3).toNat
      let _ ← readFile 4 len
      let frame ← gets fun w => Memory.slice w.buffer 0 (len + 4)
      exchange frame
      next) := by
  refine .bind (modify_takes (fun _ => rfl) fun _ => rfl) fun _ => ?_
  apply Leads.bind (.gets _)
  intro len
  apply Leads.bind (readFile_record)
  intro _
  refine .bind (.gets _) fun frame => .bind (exchange_takes ?_ ?_) fun _ => hnext
  · rintro _ ⟨s, result, h, rfl⟩ hdiverted _
    exact h.agree hs hdiverted
  · rintro _ count received ⟨s, result, h, rfl⟩ _
    exact h.turn len result frame count received

theorem downloadLoop_takes (fuel : Nat) (hs : denotes host = some controller) :
    Takes g (Ends.Loading host controller) (Ends.Over host controller) (downloadLoop fuel) := by
  induction fuel with
  | zero => exact stop_takes _
  | succ fuel ih =>
      intro w hw
      apply wp_seq (readFile_header hw)
      intro count t ht
      apply wp_when.mpr
      constructor
      · intro hcount
        rw [if_neg hcount] at ht
        exact record_takes hs ih t ht
      · intro hcount
        rwa [if_pos (not_not.mp hcount)] at ht

/-- The host follows the controller back to 115200 baud if it has left that speed. -/
theorem procPatchram_takes (hs : denotes host = some controller)
    (hhost : ¬ g.useBaudrateForDownload → host = B115200) :
    Takes g (· = .early host controller) Ends.Calm procPatchram := by
  refine .bind (exchange_early rfl hs) fun _ => gets_config_takes ?_
  apply Leads.bind (when_takes fun _ => .bind (readUart_takes 0 2) fun _ => .pure _)
  intro _
  have hsleep : Takes g (· = .early host controller) (Ends.Loading host controller)
      (Effect.when (g.tosleep ≠ 0) (sys (Patchram.record (.usleep g.tosleep)))) := by
    have hearly (s : Ends) (h : s = .early host controller) : s.Loading host controller :=
      h ▸ ⟨rfl, rfl, rfl, rfl, fun _ => rfl, fun h => nomatch h⟩
    refine .when (fun _ => sys_takes ?_) fun _ w hw => hw.mono hearly
    exact append_takes (fun _ => .usleep g.tosleep) (fun _ => rfl) (fun _ => rfl)
      (fun _ _ _ he => nomatch he) fun _ s h => hearly s h
  apply Leads.bind hsleep
  intro _
  apply Leads.bind (.bind (.gets _) fun fuel => downloadLoop_takes fuel hs)
  intro _
  refine .bind (.when (fun _ => setSpeed_takes B115200 fun s h => ?_) fun huse w hw => ?_)
    fun _ => procReset_calm
  · refine ⟨h.asked, h.record, h.diverted, fun hvacant => ?_⟩
    exact (congrArg some (h.fallen hvacant)).symm
  · refine hw.mono fun s h => ⟨h.asked, h.record, h.diverted, fun _ => ?_⟩
    -- The download was at 115200 baud, so the controller could not be left at another speed.
    have hstart : controller = 115200 := Option.some.inj (hs.symm.trans (by rw [hhost huse]; rfl))
    have hcontroller : s.controller = 115200 := by
      cases hvacant : s.vacant with
      | false => exact h.fallen hvacant
      | true => exact (h.vacant hvacant).trans hstart
    rw [Ends.Agree, h.host, hcontroller, hhost huse]
    rfl

end Download

/-! ### Runs of the program -/

theorem initUart_takes : Takes g (fun s => ∃ host, s = .early host 115200)
    (· = .early B115200 115200) initUart := by
  have hold (old : Nat) : Takes g (fun s => ∃ host, s = .early host 115200)
      (fun s => ∃ host, s = .early host 115200) (sys (Patchram.record (.tcsetattr old))) := by
    refine sys_takes (append_takes (fun _ => .tcsetattr old) (fun _ => rfl) (fun _ => rfl)
      (fun _ _ _ he => nomatch he) ?_)
    rintro _ _ ⟨host, rfl⟩
    exact ⟨old, rfl⟩
  refine .bind (modify_takes (fun _ => rfl) fun _ => rfl) fun _ => ?_
  apply Leads.bind (.gets _)
  intro old
  apply Leads.bind (hold old)
  intro _
  apply Leads.bind (hold old)
  intro _
  refine setSpeed_takes B115200 ?_
  rintro _ ⟨host, rfl⟩
  rfl

/-- What the options have made of the two speeds when the download starts. -/
structure Started (g : Globals) (speeds : Nat × Nat) : Prop where
  denotes : denotes speeds.1 = some speeds.2
  host : ¬ g.useBaudrateForDownload → speeds.1 = B115200

theorem program_takes (hg : Configured g) :
    Takes g (fun s => ∃ host, s = .early host 115200) Ends.Calm program := by
  have hstart : denotes B115200 = some 115200 := rfl
  have hreset : Takes g (· = .early B115200 115200) (· = .early B115200 115200) procReset := by
    refine procReset_takes (Ends.early_sends hstart) ?_
    rintro _ count received rfl _
    exact Ends.next_exchange rfl rfl rfl count received
  refine .bind initUart_takes fun _ => .bind hreset fun _ => gets_config_takes ?_
  -- The speed changes before the download only if the download is to use it.
  have hfirst : Takes g (· = .early B115200 115200)
      (fun s => ∃ speeds : { speeds // Started g speeds }, s = .early speeds.1.1 speeds.1.2)
      (Effect.when g.useBaudrateForDownload
        (Effect.when (g.termiosBaudrate ≠ 0) procBaudrate)) := by
    have hskip (s : Ends) (h : s = .early B115200 115200) :
        ∃ speeds : { speeds // Started g speeds }, s = .early speeds.1.1 speeds.1.2 :=
      ⟨⟨(B115200, 115200), rfl, fun _ => rfl⟩, h⟩
    refine .when (fun huse => .when (fun hset => ?_) fun _ _ hw => hw.mono hskip) fun _ _ hw =>
      hw.mono hskip
    refine procBaudrate_takes hg hset (Ends.early_sends hstart) ?_
    rintro _ rate rfl hrate
    exact ⟨rfl, ⟨(g.termiosBaudrate, rate), hrate, fun hnot => absurd huse hnot⟩, rfl⟩
  have hdownload : Takes g
      (fun s => ∃ speeds : { speeds // Started g speeds }, s = .early speeds.1.1 speeds.1.2)
      Ends.Calm (Effect.when (g.hcdfileFd > 0) procPatchram) := by
    refine exists_takes ⟨(B115200, 115200), rfl, fun _ => rfl⟩ fun speeds => ?_
    refine .when (fun _ => procPatchram_takes speeds.2.denotes speeds.2.host) fun _ _ hw =>
      hw.mono fun s h => ?_
    exact h ▸ ⟨rfl, rfl, rfl, fun _ => speeds.2.denotes⟩
  refine .bind hfirst fun _ => .bind hdownload fun _ => ?_
  apply Leads.bind (when_takes (procBaudrate_calm hg))
  intro _
  apply Leads.bind (when_takes fun _ => procBdaddr_calm hg)
  intro _
  apply Leads.bind (when_takes fun _ => procEnableLpm_calm)
  intro _
  apply Leads.bind (when_takes fun _ => procScopcm_calm hg)
  intro _
  apply Leads.bind (when_takes fun _ => procI2s_calm hg)
  intro _
  apply Leads.bind (when_takes fun _ => .bind procEnableHci_calm fun _ => stop_takes _)
  intro _
  exact stop_takes _

theorem Hold.fresh {w : World} (h : Ready w) :
    Hold w.config (fun s => ∃ host, s = .early host 115200) w := by
  refine ⟨rfl, ?_, fun _ => ⟨0, ?_⟩⟩
  · rw [h.silent]
    exact Common.nil
  · rw [h.silent]
    rfl

/-- After any options the two copies of the rate match. And until an alarm has expired or an
Update_Baud_Rate command could not be written, every command is sent at a common speed, unless
the file itself has changed the rate in a download that is not over, or had no record for the
controller to fall back after. -/
theorem main_agree {w : World} (hconfig : w.config = {}) (hio : w.io = []) (options : List Opt)
    (port : Option (List UInt8)) : RatesMatch (parseOptions options w).2.config ∧
      ∀ before after frame count,
        (main options port w).2.io = before ++ .write .main frame count :: after →
          NoExpiry before → RatesWritten before → (ends before).diverted = false →
            (ends before).stranded = false → (ends before).Agree := by
  have hready : Ready w := ⟨hconfig ▸ configured_default, hio⟩
  refine ⟨(wp_end (parseOptions_ready options w hready)).configured.rates, ?_⟩
  have hquiet {t : World} (ht : Ready t) : Common t.io := by
    rw [ht.silent]
    exact Common.nil
  have hmain : wp (main options port) (fun _ t => Common t.io) (fun _ t => Common t.io) w := by
    refine wp_seq (wp_mono (readDefaultBdaddr_ready w hready) (fun _ _ h => h) fun _ _ => hquiet)
      fun _ u hu => ?_
    refine wp_seq (wp_mono (parseCmdLine_ready options port u hu) (fun _ _ h => h)
      fun _ _ => hquiet) fun ret v hv => ?_
    refine wp_bind.mpr (wp_when.mpr ⟨fun _ => hquiet hv, fun _ => wp_bind.mpr (wp_gets.mpr ?_)⟩)
    refine wp_bind.mpr (wp_when.mpr ⟨fun _ => hquiet hv, fun _ => ?_⟩)
    exact wp_mono (program_takes hv.configured v (.fresh hv)) (fun _ _ h => h.common) fun _ _ h => h
  intro before after frame count hsplit hexpiry hwhole
  exact wp_end hmain before after frame count hsplit ⟨hexpiry, hwhole⟩

/-! ### Examples of runs -/

/-- A write of the main flow that transfers everything, or no write. -/
def Io.sound : Io → Bool
  | .write caller frame count => caller = .main && count = frame.length
  | _ => true

theorem plain_of_sound {io : List Io} (h : ∀ e ∈ io, e.sound = true) : Plain io := by
  refine ⟨fun frame count hmem => ?_, fun caller frame count hmem _ => ?_⟩
  · have hsound := h _ hmem
    simp [Io.sound] at hsound
  · have hsound := h _ hmem
    simp only [Io.sound, Bool.and_eq_true, decide_eq_true_eq] at hsound
    exact hsound.2

/-- The two commands of a download. -/
def twoRecords : List UInt8 := [0x4c, 0xfc, 0x01, 0xaa, 0x4e, 0xfc, 0x00]

/-- A download at 921600 baud, and then another command. -/
def fastOptions : List Opt :=
  [.patchram [0x61, 0x2e, 0x68, 0x63, 0x64], .baudrate [0x39, 0x32, 0x31, 0x36, 0x30, 0x30],
    .useBaudrateForDownload, .enableLpm, .no2bytes]

/-- The port is opened behind the file, and every command is answered. -/
def answering (file : List UInt8) : World :=
  { World.start {} (List.replicate 8 (.bytes emptyEvent.encode)) [] with
    opens := [some (3, file), some (4, [])] }

theorem main_agree_tuned : ∃ before after,
    (main fastOptions (some portName) (answering twoRecords)).2.io =
      before ++ .write .main hciWriteSleepMode 16 :: after ∧
      (ends before).Agree ∧ (ends before).controller = 921600 := by
  have hio : (main fastOptions (some portName) (answering twoRecords)).2.io =
      (main fastOptions (some portName) (answering twoRecords)).2.io.take 43 ++
        .write .main hciWriteSleepMode 16 ::
          (main fastOptions (some portName) (answering twoRecords)).2.io.drop 44 := by
    decide +kernel
  have hplain : Plain ((main fastOptions (some portName) (answering twoRecords)).2.io.take 43) :=
    plain_of_sound (by decide +kernel)
  exact ⟨_, _, hio, (main_agree rfl rfl fastOptions (some portName)).2 _ _ _ _ hio hplain.1 hplain.2
    (by decide +kernel) (by decide +kernel), by decide +kernel⟩

/-- A file whose first record asks for 921600 baud. -/
def fasterFile : List UInt8 :=
  [0x18, 0xfc, 0x06, 0x00, 0x00, 0x00, 0x10, 0x0e, 0x00, 0x4c, 0xfc, 0x00]

def fasterRun : World :=
  (main [.patchram [0x61, 0x2e, 0x68, 0x63, 0x64], .no2bytes] (some portName)
    (answering fasterFile)).2

/-- The file is empty. -/
def vacantRun : World := (main fastOptions (some portName) (answering [])).2

/-- The Update_Baud_Rate command cannot be written, and some event comes all the same. -/
def lostRun : World :=
  (main [.baudrate [0x39, 0x32, 0x31, 0x36, 0x30, 0x30], .enableLpm] (some portName)
    { World.start {} (List.replicate 8 (.bytes emptyEvent.encode)) [] with
      opens := [some (4, [])]
      writes := [4, -1] }).2

/-- No alarm expires, and some command is not sent at a common speed. -/
def Strays (io : List Io) : Prop :=
  NoExpiry io ∧ ∃ before after frame count, io = before ++ .write .main frame count :: after ∧
    ¬ (ends before).Agree

/-- What the handler has not written. -/
def Io.ours : Io → Bool
  | .write caller _ _ => caller = .main
  | _ => true

theorem strays_at {io : List Io} (n : Nat) {frame : List UInt8} {count : Int}
    (hours : ∀ e ∈ io, e.ours = true) (hcommand : io[n]? = some (.write .main frame count))
    (hstray : ¬ (ends (io.take n)).Agree) : Strays io := by
  obtain ⟨hn, hget⟩ := List.getElem?_eq_some_iff.mp hcommand
  refine ⟨fun frame count hmem => ?_, io.take n, io.drop (n + 1), frame, count, ?_, hstray⟩
  · have hmain := hours _ hmem
    simp [Io.ours] at hmain
  · rw [← hget, List.getElem_cons_drop, List.take_append_drop]

/-- The second record is sent at 115200 baud to a controller that has changed its speed; after an
empty file the host goes back alone; and without the command it goes ahead alone. -/
theorem main_strays : Strays fasterRun.io ∧ Strays vacantRun.io ∧ Strays lostRun.io := by
  have hfaster : fasterRun.io[21]? = some (.write .main [0x01, 0x4c, 0xfc, 0x00] 4) := by
    decide +kernel
  have hvacant : vacantRun.io[20]? = some (.write .main hciReset 4) := by decide +kernel
  have hlost : lostRun.io[14]? = some (.write .main hciWriteSleepMode 16) := by decide +kernel
  refine ⟨strays_at 21 ?_ hfaster ?_, strays_at 20 ?_ hvacant ?_, strays_at 14 ?_ hlost ?_⟩
  all_goals decide +kernel

end Patchram
