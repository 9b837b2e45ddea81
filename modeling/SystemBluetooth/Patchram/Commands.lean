import SystemBluetooth.Patchram.FileBytes
import SystemBluetooth.Patchram.Pairing

/-!
# The commands of a run

Which commands the main flow has sent when it comes to its end, the globals and the file tell:
whatever the UART delivers and whenever the alarm expires, a step that returns has sent its
commands and no other. `Issues` is that statement of one step. A step that does not return
waits for an event, and has not come to the line discipline.
-/

namespace Patchram

open Effect

/-! ### Steps -/

/-- The commands of the main flow. -/
def commands (io : List Io) : List (List UInt8) := io.filterMap Io.mainFrame

@[simp] theorem commands_append (a b : List Io) :
    commands (a ++ b) = commands a ++ commands b :=
  List.filterMap_append

def Io.isIoctl : Io → Bool
  | .ioctl _ _ => true
  | _ => false

theorem Io.Listens.silent {e : Io} (h : e.Listens) : e.mainFrame = none ∧ e.isIoctl = false := by
  cases e with
  | write caller frame count =>
      cases caller with
      | main => exact h.elim
      | handler => exact ⟨rfl, rfl⟩
  | readUart i len result | event received | alarm seconds => exact ⟨rfl, rfl⟩
  | readFile i len result | tcsetattr speed | usleep usec | ioctl name result => exact h.elim

/-- From `w` to `t`, the main flow sends the commands `fs`. -/
structure Wrote (fs : List (List UInt8)) (w t : World) : Prop where
  config : t.config = w.config
  openedPaths : t.openedPaths = w.openedPaths
  calls : ∃ new, t.io = w.io ++ new ∧ commands new = fs ∧ ∀ e ∈ new, e.isIoctl = false

/-- The file is left alone. -/
structure Dispatched (fs : List (List UInt8)) (w t : World) : Prop extends Wrote fs w t where
  file : t.file = w.file
  fileReads : t.fileReads = w.fileReads

/-- The run waits, and has not come to the line discipline. -/
def Waits (w : World) (stop : Stop) (t : World) : Prop :=
  stop = .waiting ∧ ∃ new, t.io = w.io ++ new ∧ ∀ e ∈ new, e.isIoctl = false

theorem Wrote.trans {fs gs : List (List UInt8)} {w u t : World} (h₁ : Wrote fs w u)
    (h₂ : Wrote gs u t) : Wrote (fs ++ gs) w t := by
  obtain ⟨new₁, hio₁, hfs, hnone₁⟩ := h₁.calls
  obtain ⟨new₂, hio₂, hgs, hnone₂⟩ := h₂.calls
  refine ⟨h₂.config.trans h₁.config, h₂.openedPaths.trans h₁.openedPaths, new₁ ++ new₂,
    io_trans hio₁ hio₂, ?_, ?_⟩
  · rw [commands_append, hfs, hgs]
  · exact List.forall_mem_append.mpr ⟨hnone₁, hnone₂⟩

theorem Wrote.waits {fs : List (List UInt8)} {w u t : World} {stop : Stop} (h : Wrote fs w u)
    (hstop : Waits u stop t) : Waits w stop t := by
  obtain ⟨new₁, hio₁, -, hnone₁⟩ := h.calls
  obtain ⟨hwaiting, new₂, hio₂, hnone₂⟩ := hstop
  exact ⟨hwaiting, new₁ ++ new₂, io_trans hio₁ hio₂,
    List.forall_mem_append.mpr ⟨hnone₁, hnone₂⟩⟩

namespace Dispatched

variable {fs gs : List (List UInt8)} {w u t : World}

theorem refl (w : World) : Dispatched [] w w := ⟨⟨rfl, rfl, [], by simp [commands]⟩, rfl, rfl⟩

theorem trans (h₁ : Dispatched fs w u) (h₂ : Dispatched gs u t) : Dispatched (fs ++ gs) w t :=
  ⟨h₁.toWrote.trans h₂.toWrote, h₂.file.trans h₁.file, h₂.fileReads.trans h₁.fileReads⟩

theorem of_listened (h : Listened w t) : Dispatched [] w t := by
  obtain ⟨new, hio, hlistens⟩ := h.listens
  refine ⟨⟨by rw [h.state], by rw [h.state], new, hio, ?_, fun e he => (hlistens e he).silent.2⟩,
    h.file, h.fileReads⟩
  exact List.filterMap_eq_nil_iff.mpr fun e he => (hlistens e he).silent.1

theorem waits {stop : Stop} (h : Dispatched fs w t) (hstop : stop = .waiting) :
    Waits w stop t := by
  obtain ⟨new, hio, -, hnone⟩ := h.calls
  exact ⟨hstop, new, hio, hnone⟩

end Dispatched

/-- With the globals `g`, a step that returns has sent the commands `fs`. -/
def Issues (g : Globals) (fs : List (List UInt8)) {α : Type} (c : Host α) : Prop :=
  ∀ w, w.config = g → wp c (fun _ t => Dispatched fs w t) (Waits w) w

/-- What follows a step, in a run that began in `w` and has come to `u`. -/
theorem Issues.seq {α β : Type} {g : Globals} {fs gs : List (List UInt8)} {c : Host α}
    {f : α → Host β} {w u : World} {R : β → World → Prop} {E : Stop → World → Prop}
    (hc : Issues g gs c) (hw : w.config = g) (hu : Wrote fs w u)
    (hE : ∀ stop t, Waits w stop t → E stop t)
    (next : ∀ a v, Wrote (fs ++ gs) w v → v.file = u.file → v.fileReads = u.fileReads →
      wp (f a) R E v) : wp (c >>= f) R E u := by
  refine wp_seq (wp_mono (hc u (hu.config.trans hw)) (fun _ _ h => h) fun stop t ht => ?_)
    fun a v hv => next a v (hu.trans hv.toWrote) hv.file hv.fileReads
  exact hE stop t (hu.waits ht)

section Steps

variable {α β : Type} {g : Globals} {fs gs : List (List UInt8)} {c : Host α} {f : α → Host β}

namespace Issues

theorem bind (first : Issues g fs c) (second : ∀ a, Issues g gs (f a)) :
    Issues g (fs ++ gs) (c >>= f) := by
  intro w hw
  refine wp_seq (first w hw) fun a u hu => ?_
  exact wp_mono (second a u (hu.config.trans hw)) (fun _ _ ht => hu.trans ht)
    fun _ _ ht => hu.toWrote.waits ht

theorem pure (a : α) : Issues g [] (Pure.pure a : Host α) := fun w _ => Dispatched.refl w

theorem gets (p : World → α) : Issues g [] (Effect.gets p : Host α) := fun w _ => Dispatched.refl w

theorem config {f : Globals → Host β} (h : Issues g fs (f g)) :
    Issues g fs (Effect.gets World.config >>= f) := by
  intro w hw
  subst hw
  exact h w rfl

theorem when {p : Prop} [Decidable p] {c : Host Unit} (h : Issues g fs c) :
    Issues g (if p then fs else []) (Effect.when p c) := by
  by_cases hp : p
  · rwa [if_pos hp, when_pos hp]
  · rw [if_neg hp, when_neg hp]
    exact .pure ()

/-- A step that sends nothing, if taken at all. -/
theorem silent {p : Prop} [Decidable p] {c : Host Unit} (h : Issues g [] c) :
    Issues g [] (Effect.when p c) := by
  have hwhen := h.when (p := p)
  rwa [ite_self] at hwhen

theorem sys (h : Issues g fs c) : Issues g fs (Patchram.sys c) := by
  intro w hw
  obtain ⟨v, hhandled, hcall⟩ := sys_handled c w
  have hv := Dispatched.of_listened (.of_handled hhandled)
  rw [wp, hcall]
  exact wp_mono (h v (hv.config.trans hw)) (fun _ _ ht => hv.trans ht)
    fun _ _ ht => hv.toWrote.waits ht

/-- A call that changes no globals and leaves the file alone. -/
theorem modify {p : World → World} (e : World → Io) (hfs : ∀ w, commands [e w] = fs)
    (hnone : ∀ w, (e w).isIoctl = false) (hconfig : ∀ w, (p w).config = w.config)
    (hpaths : ∀ w, (p w).openedPaths = w.openedPaths)
    (hfile : ∀ w, (p w).file = w.file) (hreads : ∀ w, (p w).fileReads = w.fileReads)
    (hio : ∀ w, (p w).io = w.io ++ [e w]) : Issues g fs (Effect.modify p : Host Unit) :=
  fun w _ => ⟨⟨hconfig w, hpaths w, [e w], hio w, hfs w, by simp [hnone w]⟩, hfile w, hreads w⟩

end Issues

theorem readUart_stops (i len : Int) : Stops (· = Stop.waiting) (readUart i len) := by
  refine .bind (.modify _) fun _ => .bind (fun w => trivial) fun w => ?_
  cases Arrivals.read len.toNat w.uart with
  | none => exact .stop rfl
  | some answer => exact .bind (.modify _) fun _ => .pure _

theorem readLoop_stops (fuel : Nat) (i len : Int) :
    Stops (· = Stop.waiting) (readLoop fuel i len) := by
  induction fuel generalizing i len with
  | zero => exact .stop rfl
  | succ fuel ih =>
      apply Stops.bind (readUart_stops i len)
      intro count
      split
      · exact ih _ _
      · exact .pure _

theorem readEvent_stops : Stops (· = Stop.waiting) readEvent := by
  have hfull (i len : Int) : Stops (· = Stop.waiting) (readFull i len) :=
    .bind (.gets _) fun _ => readLoop_stops _ _ _
  refine .bind (hfull 0 3) fun _ => .bind (.gets _) fun _ => .bind (hfull _ _) fun _ => ?_
  exact .bind (.gets _) fun _ => .modify _

theorem listens_issues (hlistens : Keeps Listened c) (hstops : Stops (· = Stop.waiting) c) :
    Issues g [] c := by
  intro w _
  refine wp_mono (wp_and (hlistens w) (hstops w)) (fun _ t ht => .of_listened ht.1) fun _ t ht => ?_
  exact (Dispatched.of_listened ht.1).waits ht.2

theorem readUart_issues (i len : Int) : Issues g [] (readUart i len) :=
  listens_issues (readUart_listens i len) (readUart_stops i len)

theorem readEvent_issues : Issues g [] readEvent :=
  listens_issues readEvent_listens readEvent_stops

theorem hciSendCmd_issues (frame : List UInt8) : Issues g [frame] (hciSendCmd .main frame) :=
  .modify (fun w => .write .main frame (w.writes.headD frame.length)) (fun _ => rfl) (fun _ => rfl)
    (fun _ => rfl) (fun _ => rfl) (fun _ => rfl) (fun _ => rfl) fun _ => rfl

theorem exchange_issues (frame : List UInt8) : Issues g [frame] (exchange frame) :=
  .bind (hciSendCmd_issues frame).sys fun _ => readEvent_issues

theorem record_issues {e : Io} (hframe : e.mainFrame = none) (hnone : e.isIoctl = false) :
    Issues g [] (record e) :=
  .modify (fun _ => e) (fun _ => by simp [commands, hframe]) (fun _ => hnone)
    (fun _ => rfl) (fun _ => rfl) (fun _ => rfl) (fun _ => rfl) fun _ => rfl

theorem setSpeed_issues (speed : Nat) : Issues g [] (setSpeed speed) :=
  .modify (fun _ => .tcsetattr speed) (fun _ => rfl) (fun _ => rfl) (fun _ => rfl) (fun _ => rfl)
    (fun _ => rfl) (fun _ => rfl) fun _ => rfl

theorem alarm_issues (seconds : Nat) : Issues g [] (alarm seconds) :=
  .modify (fun _ => .alarm seconds) (fun _ => rfl) (fun _ => rfl) (fun _ => rfl) (fun _ => rfl)
    (fun _ => rfl) (fun _ => rfl) fun _ => rfl

theorem procReset_issues : Issues g [hciReset] procReset :=
  .bind (hciSendCmd_issues hciReset).sys fun _ => .bind (alarm_issues 4).sys fun _ =>
    .bind readEvent_issues fun _ => (alarm_issues 0).sys

theorem procBaudrate_issues : Issues g [g.hciUpdateBaudRate] procBaudrate :=
  .config (.bind (exchange_issues _) fun _ => (setSpeed_issues _).sys)

theorem procBdaddr_issues : Issues g [g.hciWriteBdAddr] procBdaddr := .config (exchange_issues _)

theorem procEnableLpm_issues : Issues g [hciWriteSleepMode] procEnableLpm := exchange_issues _

theorem procScopcm_issues :
    Issues g [g.hciWriteScoPcmInt, g.hciWritePcmDataFormat] procScopcm :=
  .config (.bind (exchange_issues _) fun _ => exchange_issues _)

theorem procI2s_issues : Issues g [g.hciWriteI2spcmInterfaceParam] procI2s :=
  .config (exchange_issues _)

theorem initUart_issues : Issues g [] initUart := by
  have hflush : Issues g [] (Effect.modify fun w => { w with termios := w.tty }) :=
    fun w _ => ⟨⟨rfl, rfl, [], by simp [commands]⟩, rfl, rfl⟩
  have hold (old : Nat) : Issues g [] (sys (record (.tcsetattr old))) := (record_issues rfl rfl).sys
  exact hflush.bind fun _ => (Issues.gets _).bind fun old => (hold old).bind fun _ =>
    (hold old).bind fun _ => (setSpeed_issues _).sys

end Steps

/-! ### The download -/

/-- A file of records whose reads are ordinary is sent record by record. -/
def Downloaded (reads : List FileRead) (file : List UInt8) (sent : List (List UInt8)) : Prop :=
  reads = [] → ∀ records : List Block, file = records.flatMap Block.encode →
    sent = records.map commandOf

theorem Wrote.quiet {w t : World} {new : List Io} (hconfig : t.config = w.config)
    (hpaths : t.openedPaths = w.openedPaths) (hio : t.io = w.io ++ new)
    (hnew : ∀ e ∈ new, e.mainFrame = none ∧ e.isIoctl = false) : Wrote [] w t :=
  ⟨hconfig, hpaths, new, hio, List.filterMap_eq_nil_iff.mpr fun e he => (hnew e he).1,
    fun e he => (hnew e he).2⟩

/-- The two reads of a record find its header and its data. -/
theorem fileAnswer_record (record : Block) (rest : List UInt8) :
    fileAnswer [] (record.encode ++ rest) 3 =
        (.bytes [record.first, record.second, record.size], record.payload ++ rest) ∧
      fileAnswer [] (record.payload ++ rest) record.payload.length =
        (.bytes record.payload, rest) := by
  constructor
  · rfl
  · simp [fileAnswer]

theorem Downloaded.ended {reads : List FileRead} {file rest : List UInt8}
    (hheader : fileAnswer reads file 3 = (.bytes [], rest)) : Downloaded reads file [] := by
  rintro rfl records rfl
  cases records with
  | nil => rfl
  | cons record records =>
      rw [List.flatMap_cons, (fileAnswer_record record _).1] at hheader
      cases hheader

/-- The command of one turn is the record at the front of the file. -/
theorem Downloaded.turn {reads : List FileRead} {file rest : List UInt8} {header : Arrival UInt8}
    {buffer : Int → UInt8} {sent : List (List UInt8)} {n : Nat} {data : Arrival UInt8 × List UInt8}
    (hheader : fileAnswer reads file 3 = (header, rest)) (hne : header ≠ .bytes [])
    (hn : n = (Memory.store (Memory.store buffer 1 header.data) 0 [0x01] 3).toNat)
    (hdata : data = fileAnswer reads.tail rest n)
    (hlater : Downloaded reads.tail.tail data.2 sent) :
    Downloaded reads file (Memory.slice
      (Memory.store (Memory.store (Memory.store buffer 1 header.data) 0 [0x01]) 4 data.1.data)
      0 (n + 4) :: sent) := by
  rintro rfl records rfl
  cases records with
  | nil =>
      obtain ⟨rfl, -⟩ := Prod.mk.inj hheader
      exact absurd rfl hne
  | cons record records =>
      obtain ⟨hthree, hall⟩ := fileAnswer_record record (records.flatMap Block.encode)
      rw [List.flatMap_cons, hthree] at hheader
      obtain ⟨rfl, rfl⟩ := Prod.mk.inj hheader
      obtain rfl : n = record.payload.length := by
        rw [hn, Arrival.data_bytes, size_in_buffer, Block.toNat_size]
      rw [List.tail_nil, hall] at hdata
      subst hdata
      rw [hlater rfl records rfl, List.map_cons]
      exact congrArg (· :: _) (slice_command buffer record)

/-- The loop sends a command in each turn, and the records of a file of records. -/
theorem downloadLoop_commands (fuel : Nat) (w : World) :
    wp (downloadLoop fuel)
      (fun _ t => ∃ sent, Downloaded w.fileReads w.file sent ∧ Wrote sent w t) (Waits w) w := by
  induction fuel generalizing w with
  | zero => exact ⟨rfl, [], by simp, by simp⟩
  | succ fuel ih =>
      rcases hheader : fileAnswer w.fileReads w.file 3 with ⟨header, rest⟩
      by_cases hend : header = .bytes []
      · subst hend
        obtain ⟨v, hv, hread⟩ := readFile_handled 1 3 w
        obtain ⟨new, hnew, hhandler⟩ := hv.handler
        rw [show fileAnswer w.fileReads w.file (3 : Int).toNat = _ from hheader] at hread
        have hquiet : ∀ e ∈ new ++ [.readFile 1 3 (.bytes [])],
            e.mainFrame = none ∧ e.isIoctl = false :=
          List.forall_mem_append.mpr
            ⟨fun e he => (hhandler e he).listens.silent, by simp [Io.mainFrame, Io.isIoctl]⟩
        rw [wp, downloadLoop, bind_ok hread]
        refine ⟨[], .ended hheader, .quiet ?_ ?_ ?_ hquiet⟩
        · rw [hv.state]
        · rw [hv.state]
        · simp only [hnew, List.append_assoc]
      · obtain ⟨b, n, data, v, n₁, n₂, rfl, hn, hdata, hrun, hio, hhandler₁, hhandler₂, hfile,
          hreads, -, hconfig, hpaths, -⟩ := downloadLoop_sends fuel hheader hend
        have hv : Wrote [] w v := by
          refine .quiet hconfig hpaths hio fun e he => ?_
          simp only [List.mem_append, List.mem_cons, List.not_mem_nil, or_false] at he
          rcases he with he | rfl | he | rfl
          · exact (hhandler₁ e he).listens.silent
          · exact ⟨rfl, rfl⟩
          · exact (hhandler₂ e he).listens.silent
          · exact ⟨rfl, rfl⟩
        rw [wp, hrun]
        refine wp_seq (wp_mono (exchange_issues _ v rfl) (fun _ _ h => h)
          fun _ _ ht => hv.waits ht) fun _ u hu => ?_
        refine wp_mono (ih u) (fun _ t ht => ?_) fun _ _ ht => (hv.trans hu.toWrote).waits ht
        obtain ⟨sent, hsent, ht⟩ := ht
        rw [hu.file, hu.fileReads, hfile, hreads] at hsent
        exact ⟨_, .turn hheader hend hn hdata hsent, (hv.trans hu.toWrote).trans ht⟩

theorem Wrote.refl (w : World) : Wrote [] w w := (Dispatched.refl w).toWrote

/-- `proc_patchram` sends Download_Minidriver, the file, and a reset. -/
theorem procPatchram_commands (w : World) :
    wp procPatchram (fun _ t => ∃ sent, Downloaded w.fileReads w.file sent ∧
      Wrote (hciDownloadMinidriver :: sent ++ [hciReset]) w t) (Waits w) w := by
  have hstop : ∀ stop t, Waits w stop t → Waits w stop t := fun _ _ => id
  refine (exchange_issues _).seq rfl (.refl w) hstop fun _ u₁ h₁ hfile₁ hreads₁ => ?_
  refine (Issues.gets World.config).seq rfl h₁ hstop fun config u₂ h₂ hfile₂ hreads₂ => ?_
  have hconfirmation : Issues w.config [] (readUart 0 2 >>= fun _ => pure ()) :=
    (readUart_issues 0 2).bind fun _ => .pure ()
  refine hconfirmation.silent.seq rfl h₂ hstop fun _ u₃ h₃ hfile₃ hreads₃ => ?_
  have hsleep : Issues w.config [] (sys (record (.usleep config.tosleep))) :=
    (record_issues rfl rfl).sys
  refine hsleep.silent.seq rfl h₃ hstop fun _ u₄ h₄ hfile₄ hreads₄ => ?_
  have hfile : u₄.file = w.file := by rw [hfile₄, hfile₃, hfile₂, hfile₁]
  have hreads : u₄.fileReads = w.fileReads := by rw [hreads₄, hreads₃, hreads₂, hreads₁]
  refine wp_seq (wp_mono (downloadLoop_commands _ u₄) (fun _ _ h => h)
    fun _ _ ht => h₄.waits ht) fun _ u₅ h₅ => ?_
  obtain ⟨sent, hsent, h₅⟩ := h₅
  rw [hfile, hreads] at hsent
  refine (setSpeed_issues B115200).sys.silent.seq rfl (h₄.trans h₅) hstop fun _ u₆ h₆ _ _ => ?_
  refine wp_mono (procReset_issues u₆ rfl) (fun _ t ht => ⟨sent, hsent, ?_⟩)
    fun _ _ ht => h₆.waits ht
  have hall := h₆.trans ht.toWrote
  simpa using hall

/-! ### The program -/

/-- What the main flow has sent at its end, with the commands `sent` for the file. -/
def programCommands (g : Globals) (sent : List (List UInt8)) : List (List UInt8) :=
  [hciReset] ++
    (if g.useBaudrateForDownload then if g.termiosBaudrate ≠ 0 then [g.hciUpdateBaudRate] else []
      else []) ++
    (if g.hcdfileFd > 0 then hciDownloadMinidriver :: sent ++ [hciReset] else []) ++
    (if g.termiosBaudrate ≠ 0 then [g.hciUpdateBaudRate] else []) ++
    (if g.bdaddrFlag then [g.hciWriteBdAddr] else []) ++
    (if g.enableLpm then [hciWriteSleepMode] else []) ++
    (if g.scopcm then [g.hciWriteScoPcmInt, g.hciWritePcmDataFormat] else []) ++
    (if g.i2s then [g.hciWriteI2spcmInterfaceParam] else [])

/-- The file is downloaded if there is a descriptor for it. -/
theorem download_commands {w u : World} {fs : List (List UInt8)} (hu : Wrote fs w u)
    (hfile : u.file = w.file) (hreads : u.fileReads = w.fileReads) :
    wp (when (w.config.hcdfileFd > 0) procPatchram) (fun _ t => ∃ sent,
      (w.config.hcdfileFd > 0 → Downloaded w.fileReads w.file sent) ∧
        Wrote (fs ++ if w.config.hcdfileFd > 0 then
          hciDownloadMinidriver :: sent ++ [hciReset] else []) w t) (Waits w) u := by
  refine wp_when.mpr ⟨fun hfd => ?_, fun hfd => ⟨[], fun h => absurd h hfd, ?_⟩⟩
  · refine wp_mono (procPatchram_commands u) (fun _ t ht => ?_) fun _ _ ht => hu.waits ht
    obtain ⟨sent, hsent, ht⟩ := ht
    rw [hfile, hreads] at hsent
    refine ⟨sent, fun _ => hsent, ?_⟩
    rw [if_pos hfd]
    exact hu.trans ht
  · rwa [if_neg hfd, List.append_nil]

/-- No command is sent any more. -/
def Unsent (w t : World) : Prop :=
  t.openedPaths = w.openedPaths ∧ ∃ new, t.io = w.io ++ new ∧ commands new = []

theorem Unsent.trans (w u t : World) (h₁ : Unsent w u) (h₂ : Unsent u t) : Unsent w t := by
  obtain ⟨hpaths₁, new₁, hio₁, hnone₁⟩ := h₁
  obtain ⟨hpaths₂, new₂, hio₂, hnone₂⟩ := h₂
  refine ⟨hpaths₂.trans hpaths₁, new₁ ++ new₂, io_trans hio₁ hio₂, ?_⟩
  rw [commands_append, hnone₁, hnone₂]
  rfl

theorem Unsent.refl (w : World) : Unsent w w := ⟨rfl, [], by simp, rfl⟩

theorem ioctl_unsent (name : String) : Keeps Unsent (ioctl name) := by
  intro w
  obtain ⟨v, hhandled, hcall⟩ := sys_handled (do
    let result ← gets fun w => w.ioctls.headD 0
    modify fun w => { w with ioctls := w.ioctls.tail, io := w.io ++ [.ioctl name result] }
    return result) w
  have hlistened := Dispatched.of_listened (.of_handled hhandled)
  obtain ⟨new, hio, hnone, -⟩ := hlistened.calls
  rw [ioctl, wp, hcall]
  exact Unsent.trans w v _ ⟨hlistened.openedPaths, new, hio, hnone⟩ ⟨rfl, _, rfl, rfl⟩

theorem procEnableHci_unsent : Keeps Unsent procEnableHci := by
  apply Keeps.bind Unsent.trans (ioctl_unsent _)
  intro result
  refine .when Unsent.refl ?_
  exact .bind Unsent.trans (ioctl_unsent _) fun _ => .pure Unsent.refl _

/-- A run that does not wait for an event has sent all its commands. -/
theorem program_commands (w : World) :
    wp program (fun _ _ => False) (fun stop t => Waits w stop t ∨
      ∃ sent new, (w.config.hcdfileFd > 0 → Downloaded w.fileReads w.file sent) ∧
        t.openedPaths = w.openedPaths ∧ t.io = w.io ++ new ∧
          commands new = programCommands w.config sent) w := by
  refine initUart_issues.seq rfl (.refl w) (fun _ _ => .inl) fun _ u₁ h₁ hfile₁ hreads₁ => ?_
  refine procReset_issues.seq rfl h₁ (fun _ _ => .inl) fun _ u₂ h₂ hfile₂ hreads₂ => ?_
  refine wp_bind.mpr (wp_gets.mpr ?_)
  rw [h₂.config]
  refine procBaudrate_issues.when.when.seq rfl h₂ (fun _ _ => .inl)
    fun _ u₃ h₃ hfile₃ hreads₃ => ?_
  have hfile : u₃.file = w.file := by rw [hfile₃, hfile₂, hfile₁]
  have hreads : u₃.fileReads = w.fileReads := by rw [hreads₃, hreads₂, hreads₁]
  refine wp_seq (wp_mono (download_commands h₃ hfile hreads) (fun _ _ h => h) fun _ _ => .inl)
    fun _ u₄ hu₄ => ?_
  obtain ⟨sent, hsent, h₄⟩ := hu₄
  refine procBaudrate_issues.when.seq rfl h₄ (fun _ _ => .inl) fun _ u₅ h₅ _ _ => ?_
  refine procBdaddr_issues.when.seq rfl h₅ (fun _ _ => .inl) fun _ u₆ h₆ _ _ => ?_
  refine procEnableLpm_issues.when.seq rfl h₆ (fun _ _ => .inl) fun _ u₇ h₇ _ _ => ?_
  refine procScopcm_issues.when.seq rfl h₇ (fun _ _ => .inl) fun _ u₈ h₈ _ _ => ?_
  refine procI2s_issues.when.seq rfl h₈ (fun _ _ => .inl) fun _ u₉ h₉ _ _ => ?_
  obtain ⟨new, hio, hnew, -⟩ := h₉.calls
  have hend : commands new = programCommands w.config sent := by
    rw [hnew]
    simp [programCommands]
  have hlast : ∀ stop t, Unsent u₉ t → Waits w stop t ∨ ∃ sent new,
      (w.config.hcdfileFd > 0 → Downloaded w.fileReads w.file sent) ∧
        t.openedPaths = w.openedPaths ∧ t.io = w.io ++ new ∧
          commands new = programCommands w.config sent := by
    rintro stop t ⟨hpaths, more, hmore, hnone⟩
    refine .inr ⟨sent, new ++ more, hsent, hpaths.trans h₉.openedPaths, io_trans hio hmore, ?_⟩
    rw [commands_append, hend, hnone, List.append_nil]
  refine wp_bind.mpr (wp_when.mpr ⟨fun _ => ?_, fun _ => hlast _ _ (.refl u₉)⟩)
  exact wp_seq (wp_mono (procEnableHci_unsent u₉) (fun _ _ h => h) hlast) fun _ => hlast _

end Patchram
