import SystemBluetooth.Patchram.Alarm
import SystemBluetooth.Patchram.Carried

/-!
# Handing the line over

With `--enable_hci` the program ends by giving the UART to the line discipline of the kernel,
and sleeps from then on: it must not touch the line again, and it must not exit, which would
take the line discipline away. Whatever happens before, the two `ioctl` calls are the last ones
of a run, and no alarm is left that could write another reset behind them.
-/

namespace Patchram

open Effect

/-- The line discipline has not been set. -/
def Unattached (io : List Io) : Prop := ∀ e ∈ io, e.isIoctl = false

/-- The run ends with the line discipline: it is refused, or the protocol is set next. -/
def Attaches (io : List Io) : Prop :=
  ∃ before result, Unattached before ∧
    (result < 0 ∧ io = before ++ [.ioctl "TIOCSETD" result] ∨
      0 ≤ result ∧ ∃ protocol,
        io = before ++ [.ioctl "TIOCSETD" result, .ioctl "HCIUARTSETPROTO" protocol])

/-- A front that holds the last element, which stands nowhere else, is everything. -/
theorem take_of_mem_last {α : Type} {l : List α} {x : α} (hx : x ∉ l) {k : Nat}
    (h : x ∈ (l ++ [x]).take k) : (l ++ [x]).take k = l ++ [x] := by
  by_cases hk : k ≤ l.length
  · rw [List.take_append_of_le_length hk] at h
    exact absurd (List.mem_of_mem_take h) hx
  · exact List.take_of_length_le (by simp; omega)

/-- Once the protocol is set, all calls have been made. -/
theorem Attaches.whole {io : List Io} (h : Attaches io) {k : Nat} {result : Int}
    (hset : .ioctl "HCIUARTSETPROTO" result ∈ io.take k) : io.take k = io := by
  obtain ⟨before, first, hbefore, hio⟩ := h
  have hnot {r : Int} : Io.ioctl "HCIUARTSETPROTO" r ∉ before ++ [.ioctl "TIOCSETD" first] := by
    rw [List.mem_append, List.mem_singleton]
    rintro (hmem | hsame)
    · exact absurd (hbefore _ hmem) (by simp [Io.isIoctl])
    · simp at hsame
  rcases hio with ⟨-, rfl⟩ | ⟨-, protocol, rfl⟩
  · exact absurd (List.mem_of_mem_take hset) hnot
  · rw [List.append_cons] at hset ⊢
    obtain hmem | hlast := List.mem_append.mp (List.mem_of_mem_take hset)
    · exact absurd hmem hnot
    · rw [List.mem_singleton] at hlast
      rw [hlast] at hset
      exact take_of_mem_last hnot hset

/-! ### Before the line discipline -/

/-- No alarm is pending, and the line still belongs to the program. -/
structure Owns (w : World) : Prop where
  pending : w.pending = false
  io : Unattached w.io

/-- The alarm is off before and after. -/
abbrev KeepsUnset {α : Type} (c : Host α) : Prop :=
  Leads (fun w => w.pending = false) (fun t => t.pending = false) (fun _ => True) c

theorem Steady.unset {α : Type} {A : Io → Prop} {c : Host α} (h : Keeps (Steady A) c) :
    KeepsUnset c :=
  fun w hw => wp_mono (h w) (fun _ _ ht => ht.pending.trans hw) fun _ _ _ => trivial

/-- A computation that returns hands its end to the next one, whatever it does. -/
theorem leads_of_last {α β : Type} {c : Host α} {f : α → Host β} {P Q : World → Prop}
    (h : ∀ a, Leads (fun _ => True) Q (fun _ => True) (f a)) :
    Leads P Q (fun _ => True) (c >>= f) := by
  intro w hw
  refine wp_bind.mpr ?_
  rcases hc : c w with ⟨stop | a, t⟩
  · exact (wp_of_error hc).mpr trivial
  · exact (wp_of_ok hc).mpr (h a t trivial)

/-- The last call of `proc_reset` cancels the alarm. -/
theorem procReset_unsets :
    Leads (fun _ => True) (fun t => t.pending = false) (fun _ => True) procReset := by
  refine leads_of_last fun _ => leads_of_last fun _ => leads_of_last fun _ => ?_
  exact leads_of_last fun _ => .modify fun _ _ => rfl

theorem procPatchram_unset : KeepsUnset procPatchram := by
  refine leads_of_last fun _ => leads_of_last fun config => leads_of_last fun _ => ?_
  refine leads_of_last fun _ => leads_of_last fun _ => leads_of_last fun _ => ?_
  exact procReset_unsets

/-- What has sent commands only has not come to the line discipline. -/
theorem Wrote.unattached {fs : List (List UInt8)} {w t : World} (h : Wrote fs w t)
    (hw : Unattached w.io) : Unattached t.io := by
  obtain ⟨new, hio, -, hnone⟩ := h.calls
  rw [Unattached, hio]
  exact List.forall_mem_append.mpr ⟨hw, hnone⟩

theorem Waits.unattached {w t : World} {stop : Stop} (h : Waits w stop t)
    (hw : Unattached w.io) : Unattached t.io := by
  obtain ⟨-, new, hio, hnone⟩ := h
  rw [Unattached, hio]
  exact List.forall_mem_append.mpr ⟨hw, hnone⟩

/-- A step before the line discipline: it stops without having come to it. -/
abbrev KeepsLine {α : Type} (c : Host α) : Prop := Leads Owns Owns (fun t => Unattached t.io) c

theorem keepsLine {α : Type} {c : Host α}
    (hcalls : ∀ w, wp c (fun _ t => ∃ fs, Wrote fs w t) (Waits w) w) (hunset : KeepsUnset c) :
    KeepsLine c := by
  intro w hw
  refine wp_mono (wp_and (hcalls w) (hunset w hw.pending)) (fun _ t ht => ?_) fun _ t ht => ?_
  · obtain ⟨⟨fs, hwrote⟩, hpending⟩ := ht
    exact ⟨hpending, hwrote.unattached hw.io⟩
  · exact ht.1.unattached hw.io

theorem Issues.keepsLine {α : Type} {c : Host α} {fs : Globals → List (List UInt8)}
    (h : ∀ g, Issues g (fs g) c) (hunset : KeepsUnset c) : KeepsLine c :=
  Patchram.keepsLine (fun w => wp_mono (h w.config w rfl) (fun _ _ ht => ⟨_, ht.toWrote⟩)
    fun _ _ ht => ht) hunset

theorem procPatchram_keepsLine : KeepsLine procPatchram :=
  keepsLine (fun w => wp_mono (procPatchram_commands w)
    (fun _ _ ht => by obtain ⟨sent, -, hwrote⟩ := ht; exact ⟨_, hwrote⟩) fun _ _ ht => ht)
    procPatchram_unset

theorem KeepsLine.when {p : Prop} [Decidable p] {c : Host Unit} (h : KeepsLine c) :
    KeepsLine (Effect.when p c) :=
  Leads.when (fun _ => h) fun _ _ hw => hw

theorem initUart_keepsLine : KeepsLine initUart :=
  Issues.keepsLine (fun _ => initUart_issues) (Steady.unset initUart_steady)

theorem procReset_keepsLine : KeepsLine procReset :=
  Issues.keepsLine (fun _ => procReset_issues)
    (procReset_unsets.consequence (fun _ _ => trivial) fun _ ht => ht)

theorem procBaudrate_keepsLine : KeepsLine procBaudrate :=
  Issues.keepsLine (fun _ => procBaudrate_issues) (Steady.unset procBaudrate_steady)

theorem procBdaddr_keepsLine : KeepsLine procBdaddr :=
  Issues.keepsLine (fun _ => procBdaddr_issues) (Steady.unset procBdaddr_steady)

theorem procEnableLpm_keepsLine : KeepsLine procEnableLpm :=
  Issues.keepsLine (fun _ => procEnableLpm_issues) (Steady.unset procEnableLpm_steady)

theorem procScopcm_keepsLine : KeepsLine procScopcm :=
  Issues.keepsLine (fun _ => procScopcm_issues) (Steady.unset procScopcm_steady)

theorem procI2s_keepsLine : KeepsLine procI2s :=
  Issues.keepsLine (fun _ => procI2s_issues) (Steady.unset procI2s_steady)

/-! ### The last two calls -/

/-- How a run stops that began with the line in its hands. -/
def HandsOver (stop : Stop) (t : World) : Prop :=
  Unattached t.io ∨ stop = .waiting ∧ t.pending = false ∧ Attaches t.io

/-- Without an alarm, nothing comes between the two calls. -/
theorem ioctl_unset {w : World} (hw : w.pending = false) (name : String) :
    ioctl name w = (.ok (w.ioctls.headD 0),
      { w with ioctls := w.ioctls.tail, io := w.io ++ [.ioctl name (w.ioctls.headD 0)] }) :=
  sys_unset hw

theorem procEnableHci_attaches {w : World} (hw : Owns w) :
    wp procEnableHci (fun _ t => t.pending = false ∧ Attaches t.io) (fun _ _ => False) w := by
  let result := w.ioctls.headD 0
  let v : World := { w with ioctls := w.ioctls.tail, io := w.io ++ [.ioctl "TIOCSETD" result] }
  have hfirst : ioctl "TIOCSETD" w = (.ok result, v) := ioctl_unset hw.pending _
  have hsecond := ioctl_unset (w := v) hw.pending "HCIUARTSETPROTO"
  rw [wp, procEnableHci, bind_ok hfirst]
  by_cases haccepted : 0 ≤ result
  · rw [when_pos haccepted, bind_ok hsecond]
    refine ⟨hw.pending, w.io, result, hw.io, .inr ⟨haccepted, v.ioctls.headD 0, ?_⟩⟩
    exact List.append_assoc _ _ _
  · rw [when_neg haccepted]
    exact ⟨hw.pending, w.io, result, hw.io, .inl ⟨by omega, rfl⟩⟩

theorem program_handsOver {w : World} (hw : Owns w) :
    wp program (fun _ _ => False) HandsOver w := by
  have next {α : Type} {c : Host α} {f : α → Host Unit} {u : World} (hu : Owns u)
      (h : KeepsLine c) (hf : ∀ a v, Owns v → wp (f a) (fun _ _ => False) HandsOver v) :
      wp (c >>= f) (fun _ _ => False) HandsOver u :=
    wp_seq (wp_mono (h u hu) (fun _ _ hv => hv) fun _ _ ht => .inl ht) hf
  refine next hw initUart_keepsLine fun _ u₁ h₁ => next h₁ procReset_keepsLine fun _ u₂ h₂ => ?_
  refine wp_bind.mpr (wp_gets.mpr ?_)
  refine next h₂ procBaudrate_keepsLine.when.when fun _ u₃ h₃ => ?_
  refine next h₃ procPatchram_keepsLine.when fun _ u₄ h₄ => ?_
  refine next h₄ procBaudrate_keepsLine.when fun _ u₅ h₅ => ?_
  refine next h₅ procBdaddr_keepsLine.when fun _ u₆ h₆ => ?_
  refine next h₆ procEnableLpm_keepsLine.when fun _ u₇ h₇ => ?_
  refine next h₇ procScopcm_keepsLine.when fun _ u₈ h₈ => ?_
  refine next h₈ procI2s_keepsLine.when fun _ u₉ h₉ => ?_
  refine wp_bind.mpr (wp_when.mpr ⟨fun _ => ?_, fun _ => .inl h₉.io⟩)
  refine wp_seq (wp_mono (procEnableHci_attaches h₉) (fun _ _ ht => ht) fun _ _ => False.elim) ?_
  exact fun _ t ht => .inr ⟨rfl, ht⟩

/-! ### Runs -/

theorem main_ends {w : World} (hio : w.io = []) (hpending : w.pending = false)
    (options : List Opt) (port : Option (List UInt8)) :
    wp (main options port) (fun _ _ => False) HandsOver w := by
  have hstart {u : World} (hu : Parsed w u) : Owns u := by
    refine ⟨by rw [hu.state]; exact hpending, ?_⟩
    have hsilent : u.io = [] := by rw [hu.state]; exact hio
    rw [hsilent]
    exact fun e he => nomatch he
  rw [main_eq]
  refine wp_seq (wp_mono (commandLine_sets options port w) (fun _ _ hu => hu)
    fun _ u hu => .inl (hstart hu.parsed).io) fun _ u hu => ?_
  exact program_handsOver (hstart hu.parsed)

/-- The handler that runs where the program waits does not set the line discipline. -/
theorem Unattached.deliver {w : World} (h : Unattached w.io) : Unattached (deliver w).2.io := by
  have hsteady : Steady Io.Heard w (Patchram.deliver w).2 := wp_end (deliver_steady w)
  obtain ⟨new, _, hio, _, _, hall⟩ := hsteady.calls
  rw [Unattached, hio]
  refine List.forall_mem_append.mpr ⟨h, fun e he => ?_⟩
  exact ((hall e he).elim Io.Heard.listens fun hhandler => hhandler.2.listens).silent.2

/-- Signals that arrive where a run has stopped make no difference to the line discipline. -/
theorem HandsOver.later {stop : Stop} {t : World} (h : HandsOver stop t) (later : List Bool) :
    HandsOver stop (deliver { t with signals := later }).2 := by
  rcases h with hnone | ⟨rfl, hunset, hattached⟩
  · exact .inl (Unattached.deliver (w := { t with signals := later }) hnone)
  · have hquiet : deliver { t with signals := later } = (.ok (), { t with signals := later }) := by
      simp [deliver, hunset]
    rw [hquiet]
    exact .inr ⟨rfl, hunset, hattached⟩

theorem main_stops {w : World} (hio : w.io = []) (hpending : w.pending = false)
    (options : List Opt) (port : Option (List UInt8)) :
    ∃ stop t, main options port w = (.error stop, t) ∧ HandsOver stop t := by
  have hends := main_ends hio hpending options port
  rcases hrun : main options port w with ⟨stop | a, t⟩
  · exact ⟨stop, t, rfl, (wp_of_error hrun).mp hends⟩
  · exact ((wp_of_ok hrun).mp hends).elim

/-- Nothing is done with the line after it has been handed over. Of any run that starts without
an alarm, and whatever signals arrive `later`, where it waits: the line discipline is never set,
or setting it and the protocol are the last calls of all, the protocol only after the line
discipline has been accepted; and then the program neither exits nor has an alarm pending. -/
theorem main_handsOver {w : World} (hio : w.io = []) (hpending : w.pending = false)
    (options : List Opt) (port : Option (List UInt8)) (later : List Bool) :
    let run := main options port w
    let t := (deliver { run.2 with signals := later }).2
    Unattached t.io ∨ run.1 = .error .waiting ∧ t.pending = false ∧ Attaches t.io := by
  intro run t
  obtain ⟨stop, u, hrun, hu⟩ := main_stops hio hpending options port
  have ht : t = (deliver { u with signals := later }).2 := by
    change (deliver { (main options port w).2 with signals := later }).2 = _
    rw [hrun]
  rw [ht, show run = (.error stop, u) from hrun]
  exact (hu.later later).imp id fun hover => ⟨by rw [hover.1], hover.2⟩

/-- The reset is answered after its alarm has expired once. -/
def answeredLate : World :=
  { World.start {} [.bytes [0x04, 0x0e, 0x00]] [] with
    opens := [some (3, [])]
    signals := [true, false] }

theorem main_handsOver_answeredLate :
    let run := main [.enableHci] (some portName) answeredLate
    run.1 = .error .waiting ∧ Attaches (deliver { run.2 with signals := [true] }).2.io := by
  intro run
  have hset : .ioctl "TIOCSETD" 0 ∈ (deliver { run.2 with signals := [true] }).2.io := by
    decide +kernel
  obtain hnone | ⟨hwaits, -, hattached⟩ :=
    main_handsOver (w := answeredLate) rfl rfl [.enableHci] (some portName) [true]
  · exact absurd (hnone _ hset) (by decide)
  · exact ⟨hwaits, hattached⟩

end Patchram
