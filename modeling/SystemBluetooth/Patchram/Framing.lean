import SystemBluetooth.Patchram.Handler
import SystemBluetooth.Patchram.Settings

/-!
# Everything sent is framed

Every command leaves the host in one call, as a packet indicator and a block. Its length
byte is right for one of two reasons. A template has the size it was declared with, whatever
the options put behind its header. The download sends as many bytes of the buffer as the
byte at offset 3 says, whoever has left it there.

That byte, like the one at offset 2 of an event, bounds what is read next, so no read
leaves the buffer as long as reads do not fail.
-/

namespace Patchram

open Effect

/-! ### What is kept -/

/-- `buffer[1024]`. -/
def bufferSize : Nat := 1024

/-- A template has its header, and as many parameters as the header says. -/
structure Shaped (first second size : UInt8) (template : List UInt8) : Prop where
  header : template.take 4 = [0x01, first, second, size]
  length : template.length = size.toNat + 4

/-- All templates that an option can write to. -/
structure Templates (g : Globals) : Prop where
  updateBaudRate : Shaped 0x18 0xfc 0x06 g.hciUpdateBaudRate
  bdAddr : Shaped 0x01 0xfc 0x06 g.hciWriteBdAddr
  scoPcmInt : Shaped 0x1c 0xfc 0x05 g.hciWriteScoPcmInt
  pcmDataFormat : Shaped 0x1e 0xfc 0x05 g.hciWritePcmDataFormat
  i2spcm : Shaped 0x6d 0xfc 0x04 g.hciWriteI2spcmInterfaceParam

/-- One command packet: a packet indicator and a block. -/
def Packet (frame : List UInt8) : Prop := ∃ block : Block, frame = 0x01 :: block.encode

/-- A write puts a whole packet on the UART. -/
def Io.Framed : Io → Prop
  | .write _ frame count => count = frame.length ∧ Packet frame
  | _ => True

/-- The part of the buffer that a call uses is inside of it. -/
def Io.InBuffer : Io → Prop
  | .readUart i len _ => 0 ≤ i ∧ 0 ≤ len ∧ i + len ≤ bufferSize
  | .readFile i len _ => 0 ≤ i ∧ 0 ≤ len ∧ i + len ≤ bufferSize
  | .event dumped => dumped.length ≤ bufferSize
  | .write _ frame _ => frame.length ≤ bufferSize
  | _ => True

/-- The state of a run whose writes are complete and whose UART reads do not fail. -/
structure Framing (w : World) : Prop where
  templates : Templates w.config
  complete : w.writes = []
  succeeding : .error ∉ w.uart
  calls : ∀ e ∈ w.io, e.Framed ∧ e.InBuffer

/-! ### Templates -/

theorem templates_default : Templates {} :=
  ⟨⟨rfl, rfl⟩, ⟨rfl, rfl⟩, ⟨rfl, rfl⟩, ⟨rfl, rfl⟩, ⟨rfl, rfl⟩⟩

namespace Shaped

variable {first second size : UInt8} {template : List UInt8}

theorem packet (h : Shaped first second size template) : Packet template := by
  have hparams : (template.drop 4).length = size.toNat := by
    rw [List.length_drop, h.length, Nat.add_sub_cancel]
  have hshort : (template.drop 4).length < 256 := by
    rw [hparams]
    exact size.toNat_lt
  refine ⟨⟨first, second, template.drop 4, hshort⟩, ?_⟩
  have hsize : UInt8.ofNat (template.drop 4).length = size := by rw [hparams, UInt8.ofNat_toNat]
  rw [Block.encode, Block.size, hsize]
  calc template = template.take 4 ++ template.drop 4 := (List.take_append_drop 4 template).symm
    _ = _ := by rw [h.header]; rfl

/-- The parameters are replaced by as many. -/
theorem replace (h : Shaped first second size template) {params : List UInt8}
    (hsize : params.length = size.toNat) :
    Shaped first second size (template.take 4 ++ params) := by
  have hfour : (template.take 4).length = 4 := by
    rw [h.header]
    rfl
  refine ⟨by rw [List.take_left' hfour, h.header], ?_⟩
  rw [List.length_append, hfour, hsize, Nat.add_comm]

/-- The last four of six parameters are replaced. -/
theorem replace_six (h : Shaped first second 0x06 template) {params : List UInt8}
    (hsize : params.length = 4) : Shaped first second 0x06 (template.take 6 ++ params) := by
  have hten : template.length = 10 := h.length
  have hsplit : template.take 6 = template.take 4 ++ (template.drop 4).take 2 :=
    List.take_add (i := 4) (j := 2)
  rw [hsplit, List.append_assoc]
  refine h.replace ?_
  rw [List.length_append, List.length_take, List.length_drop, hten, hsize]
  rfl

end Shaped

theorem Templates.update {g h : Globals} (hg : Templates g) (update : Update g h) :
    Templates h := by
  cases update with
  | baudrate supported =>
      exact ⟨hg.1.replace_six (LittleEndian.length_encode ..), hg.2, hg.3, hg.4, hg.5⟩
  | bdAddr six => exact ⟨hg.1, hg.2.replace six, hg.3, hg.4, hg.5⟩
  | scopcm five others => exact ⟨hg.1, hg.2, hg.3.replace five, hg.4.replace others, hg.5⟩
  | i2s four => exact ⟨hg.1, hg.2, hg.3, hg.4, hg.5.replace four⟩
  | patchram _ | tosleep _ | device _ => exact ⟨hg.1, hg.2, hg.3, hg.4, hg.5⟩
  | enableLpm | enableHci | useBaudrateForDownload | no2bytes | debug =>
      exact ⟨hg.1, hg.2, hg.3, hg.4, hg.5⟩

/-! ### System calls -/

namespace Framing

variable {w t : World}

/-- Further calls that are framed and inside of the buffer. -/
theorem extend (h : Framing w) {new : List Io} (config : t.config = w.config)
    (complete : t.writes = []) (succeeding : .error ∉ t.uart) (io : t.io = w.io ++ new)
    (hnew : ∀ e ∈ new, e.Framed ∧ e.InBuffer) : Framing t := by
  refine ⟨config ▸ h.templates, complete, succeeding, fun e he => ?_⟩
  rw [io] at he
  exact (List.mem_append.mp he).elim (h.calls e) (hnew e)

theorem append (h : Framing w) {e : Io} (he : e.Framed ∧ e.InBuffer) :
    Framing { w with io := w.io ++ [e] } :=
  h.extend rfl h.complete h.succeeding rfl fun _ hmem => List.mem_singleton.mp hmem ▸ he

end Framing

abbrev KeepsFraming {α : Type} (c : Host α) : Prop := Leads Framing Framing Framing c

theorem hciSendCmd_framing {frame : List UInt8} (caller : Caller) (packet : Packet frame)
    (small : frame.length ≤ bufferSize) : KeepsFraming (hciSendCmd caller frame) := by
  intro w hw
  have hcount : w.writes.headD (frame.length : Int) = frame.length := by rw [hw.complete]; rfl
  have hwrites : w.writes.tail = [] := by rw [hw.complete]; rfl
  refine hw.extend rfl hwrites hw.succeeding rfl fun e he => ?_
  obtain rfl := List.mem_singleton.mp he
  exact ⟨⟨hcount, packet⟩, small⟩

theorem alarm_framing (seconds : Nat) : KeepsFraming (alarm seconds) :=
  fun _ hw => hw.extend rfl hw.complete hw.succeeding rfl fun _ he =>
    List.mem_singleton.mp he ▸ ⟨trivial, trivial⟩

theorem packet_hciReset : Packet hciReset := ⟨⟨0x03, 0x0c, [], by decide⟩, rfl⟩

theorem expired_framing : KeepsFraming expired :=
  .bind (hciSendCmd_framing .handler packet_hciReset (by decide)) fun _ => alarm_framing 4

/-- Any number of expiries. -/
theorem runHandler_framing (signals : List Bool) {w : World} (hw : Framing w) :
    Framing (runHandler signals w) := by
  induction signals generalizing w with
  | nil => exact ⟨hw.templates, hw.complete, hw.succeeding, hw.calls⟩
  | cons expires later ih =>
      cases expires with
      | false => exact ⟨hw.templates, hw.complete, hw.succeeding, hw.calls⟩
      | true => exact ih (wp_end (expired_framing w hw))

/-- A handler that runs first does no harm, and leaves the buffer alone. -/
theorem wp_sys_framing {α : Type} {call : Host α} {Q : α → World → Prop}
    {E : Stop → World → Prop} {w : World} (hw : Framing w)
    (h : ∀ v, Framing v → v.buffer = w.buffer → wp call Q E v) : wp (sys call) Q E w := by
  change wp call Q E (if w.pending = true then runHandler w.signals w else w)
  split
  · refine h _ (runHandler_framing _ hw) ?_
    rw [(runHandler_handled (w := w) id).state]
  · exact h w hw rfl

namespace KeepsFraming

variable {α : Type}

theorem sys {call : Host α} (h : KeepsFraming call) : KeepsFraming (sys call) :=
  fun _ hw => wp_sys_framing hw fun v hv _ => h v hv

theorem stop (e : Stop) : KeepsFraming (Effect.stop e : Host α) := Leads.stop (fun _ hw => hw) e

theorem when {p : Prop} [Decidable p] {c : Host Unit} (h : KeepsFraming c) :
    KeepsFraming (Effect.when p c) :=
  Leads.when (fun _ => h) fun _ _ hw => hw

/-- A call that is neither a read nor a write. -/
theorem modify {g : World → World} (new : World → List Io) (config : ∀ w, (g w).config = w.config)
    (writes : ∀ w, (g w).writes = w.writes) (uart : ∀ w, (g w).uart = w.uart)
    (io : ∀ w, (g w).io = w.io ++ new w) (hnew : ∀ w, ∀ e ∈ new w, e.Framed ∧ e.InBuffer) :
    KeepsFraming (Effect.modify g : Host Unit) := by
  intro w hw
  exact hw.extend (config w) ((writes w).trans hw.complete) (by rw [uart w]; exact hw.succeeding)
    (io w) (hnew w)

end KeepsFraming

/-! ### Reads -/

/-- A read into the buffer transfers at most what it asks for. -/
theorem readUart_framing {i len : Int} (hi : 0 ≤ i) (hlen : 0 ≤ len) (hend : i + len ≤ bufferSize)
    {w : World} (hw : Framing w) : wp (readUart i len)
      (fun count t => 0 ≤ count ∧ count ≤ len ∧ Framing t) (fun _ t => Framing t) w := by
  refine wp_sys_framing hw fun v hv _ => wp_bind.mpr (wp_get.mpr ?_)
  cases hread : Arrivals.read len.toNat v.uart with
  | none => exact hv
  | some answer =>
      obtain ⟨result, rest⟩ := answer
      obtain ⟨⟨l, rfl⟩, hrest⟩ := Arrivals.read_succeeds hread hv.succeeding
      have hshort : l.length ≤ len.toNat := Arrivals.read_length hread
      refine wp_bind.mpr (wp_modify.mpr (wp_pure.mpr ⟨Int.natCast_nonneg _, ?_, ?_⟩))
      · rw [Arrival.count_bytes]
        omega
      · exact hv.extend rfl hv.complete hrest rfl fun e he =>
          List.mem_singleton.mp he ▸ ⟨trivial, hi, hlen, hend⟩

/-- The end of the part that is read stays where it is; the loop is left there. -/
theorem readLoop_framing (fuel : Nat) {i len : Int} (hi : 0 ≤ i) (hlen : 0 ≤ len)
    (hend : i + len ≤ bufferSize) {w : World} (hw : Framing w) : wp (readLoop fuel i len)
      (fun r t => r.1 + r.2 = i + len ∧ Framing t) (fun _ t => Framing t) w := by
  induction fuel generalizing i len w with
  | zero => exact hw
  | succ fuel ih =>
      apply wp_seq (readUart_framing hi hlen hend hw)
      intro count t ht
      obtain ⟨hcount, hle, ht⟩ := ht
      split
      · refine wp_mono (ih (by omega) (by omega) (by omega) ht) (fun r t hr => ?_) fun _ _ h => h
        exact ⟨by omega, hr.2⟩
      · exact ⟨by dsimp only; omega, ht⟩

theorem readFull_framing {i len : Int} (hi : 0 ≤ i) (hlen : 0 ≤ len)
    (hend : i + len ≤ bufferSize) {w : World} (hw : Framing w) : wp (readFull i len)
      (fun r t => r.1 + r.2 = i + len ∧ Framing t) (fun _ t => Framing t) w :=
  readLoop_framing _ hi hlen hend hw

theorem byte_fits (b : UInt8) : (b.toNat : Int) < 256 := by
  have := b.toNat_lt
  omega

theorem readEvent_framing : KeepsFraming readEvent := by
  intro w hw
  apply wp_seq (readFull_framing (Int.le_refl 0) (by decide) (by decide) hw)
  intro r u hu
  obtain ⟨hr, hu⟩ := hu
  have hsize := byte_fits (u.buffer 2)
  have hbuffer : bufferSize = 1024 := rfl
  refine wp_bind.mpr (wp_gets.mpr ?_)
  apply wp_seq (readFull_framing (by omega) (Int.natCast_nonneg _) (by omega) hu)
  intro r' t ht
  obtain ⟨hr', ht⟩ := ht
  refine wp_bind.mpr (wp_gets.mpr ?_)
  refine ht.append ⟨trivial, ?_⟩
  rw [Io.InBuffer, Memory.length_slice]
  omega

theorem exchange_framing {frame : List UInt8} (packet : Packet frame)
    (small : frame.length ≤ bufferSize) : KeepsFraming (exchange frame) :=
  .bind (KeepsFraming.sys (hciSendCmd_framing .main packet small)) fun _ => readEvent_framing

/-- A file read leaves the buffer below its target alone. -/
theorem readFile_framing {i len : Int} (hi : 0 ≤ i) (hlen : 0 ≤ len) (hend : i + len ≤ bufferSize)
    {w : World} (hw : Framing w) : wp (readFile i len)
      (fun _ t => Framing t ∧ ∀ j < i, t.buffer j = w.buffer j) (fun _ t => Framing t) w := by
  apply wp_sys_framing hw
  intro v hv hbuffer
  refine wp_bind.mpr (wp_get.mpr (wp_bind.mpr (wp_modify.mpr (wp_pure.mpr ⟨?_, ?_⟩))))
  · exact hv.extend rfl hv.complete hv.succeeding rfl fun e he =>
      List.mem_singleton.mp he ▸ ⟨trivial, hi, hlen, hend⟩
  · intro j hj
    rw [← hbuffer]
    exact Memory.store_below hj

/-! ### The steps of the program -/

/-- As many bytes of the buffer as the byte at offset 3 says, behind a packet indicator. -/
theorem packet_slice {b : Int → UInt8} (hindicator : b 0 = 0x01) :
    Packet (Memory.slice b 0 ((b 3).toNat + 4)) := by
  have hheader : Memory.slice b 0 4 = [b 0, b 1, b 2, b 3] := rfl
  have hshaped : Shaped (b 1) (b 2) (b 3) (Memory.slice b 0 ((b 3).toNat + 4)) := by
    refine ⟨?_, Memory.length_slice ..⟩
    rw [Memory.take_slice _ _ (Nat.le_add_left 4 _), hheader, hindicator]
  exact hshaped.packet

theorem downloadLoop_framing (fuel : Nat) : KeepsFraming (downloadLoop fuel) := by
  induction fuel with
  | zero => exact KeepsFraming.stop _
  | succ fuel ih =>
      intro w hw
      apply wp_seq (readFile_framing (by decide) (by decide) (by decide) hw)
      intro count u hu
      refine wp_when.mpr ⟨fun _ => ?_, fun _ => hu.1⟩
      refine wp_bind.mpr (wp_modify.mpr (wp_bind.mpr (wp_gets.mpr ?_)))
      -- The length byte is read once: it says how much to read, and how much to send.
      let v : World := { u with buffer := Memory.store u.buffer 0 [0x01] }
      have hv : Framing v := hu.1.extend rfl hu.1.complete hu.1.succeeding
        (List.append_nil _).symm (by simp)
      have hsize := byte_fits (v.buffer 3)
      have hbuffer : bufferSize = 1024 := rfl
      have hend : (4 : Int) + (v.buffer 3).toNat ≤ bufferSize := by omega
      apply wp_seq (readFile_framing (by decide) (Int.natCast_nonneg _) hend hv)
      intro _ t ht
      refine wp_bind.mpr (wp_gets.mpr ?_)
      have hindicator : t.buffer 0 = 0x01 := ht.2 0 (by decide)
      have hlength : t.buffer 3 = v.buffer 3 := ht.2 3 (by decide)
      have hpacket := packet_slice hindicator
      rw [hlength] at hpacket
      have hsmall : (Memory.slice t.buffer 0 ((v.buffer 3).toNat + 4)).length ≤ bufferSize := by
        rw [Memory.length_slice]
        omega
      exact wp_seq (exchange_framing hpacket hsmall t ht.1) fun _ t' ht' => ih t' ht'

theorem setSpeed_framing (speed : Nat) : KeepsFraming (setSpeed speed) :=
  KeepsFraming.modify (fun _ => [.tcsetattr speed]) (fun _ => rfl) (fun _ => rfl) (fun _ => rfl)
    (fun _ => rfl) fun _ _ he => List.mem_singleton.mp he ▸ ⟨trivial, trivial⟩

theorem record_framing {e : Io} (he : e.Framed ∧ e.InBuffer) : KeepsFraming (record e) :=
  fun _ hw => hw.append he

theorem procReset_framing : KeepsFraming procReset := by
  apply Leads.bind (KeepsFraming.sys
    (hciSendCmd_framing .main packet_hciReset (by decide)))
  intro _
  apply Leads.bind (KeepsFraming.sys (alarm_framing 4))
  intro _
  exact .bind readEvent_framing fun _ => KeepsFraming.sys (alarm_framing 0)

theorem procPatchram_framing : KeepsFraming procPatchram := by
  have hminidriver : Packet hciDownloadMinidriver := ⟨⟨0x2e, 0xfc, [], by decide⟩, rfl⟩
  apply Leads.bind (exchange_framing hminidriver (by decide))
  intro _
  apply Leads.bind (.gets _)
  intro config
  have hconfirmation : KeepsFraming (do let _ ← readUart 0 2 : Host Unit) := by
    intro w hw
    exact wp_seq (readUart_framing (by decide) (by decide) (by decide) hw) fun _ _ ht => ht.2.2
  have hsleep : (Io.usleep config.tosleep).Framed ∧ (Io.usleep config.tosleep).InBuffer :=
    ⟨trivial, trivial⟩
  apply Leads.bind (KeepsFraming.when hconfirmation)
  intro _
  apply Leads.bind (KeepsFraming.when (KeepsFraming.sys (record_framing hsleep)))
  intro _
  apply Leads.bind (.bind (.gets _) fun fuel => downloadLoop_framing fuel)
  intro _
  exact .bind (KeepsFraming.when (KeepsFraming.sys (setSpeed_framing _))) fun _ =>
    procReset_framing

/-- A template is sent as it was read from the globals. -/
theorem Shaped.framing {first second size : UInt8} {template : List UInt8}
    (h : Shaped first second size template) : KeepsFraming (exchange template) := by
  have hsize := size.toNat_lt
  have hbuffer : bufferSize = 1024 := rfl
  exact exchange_framing h.packet (by rw [h.length]; omega)

theorem gets_config_framing {c : Globals → Host Unit}
    (h : ∀ g, Templates g → KeepsFraming (c g)) : KeepsFraming (gets World.config >>= c) :=
  fun w hw => h w.config hw.templates w hw

theorem procBaudrate_framing : KeepsFraming procBaudrate :=
  gets_config_framing fun _ hg => .bind hg.updateBaudRate.framing fun _ =>
    KeepsFraming.sys (setSpeed_framing _)

theorem procBdaddr_framing : KeepsFraming procBdaddr :=
  gets_config_framing fun _ hg => hg.bdAddr.framing

theorem procEnableLpm_framing : KeepsFraming procEnableLpm := by
  have hsleepMode : Shaped 0x27 0xfc 0x0c hciWriteSleepMode := ⟨rfl, rfl⟩
  exact hsleepMode.framing

theorem procScopcm_framing : KeepsFraming procScopcm :=
  gets_config_framing fun _ hg => .bind hg.scoPcmInt.framing fun _ => hg.pcmDataFormat.framing

theorem procI2s_framing : KeepsFraming procI2s :=
  gets_config_framing fun _ hg => hg.i2spcm.framing

theorem initUart_framing : KeepsFraming initUart := by
  have hspeed (speed : Nat) : (Io.tcsetattr speed).Framed ∧ (Io.tcsetattr speed).InBuffer :=
    ⟨trivial, trivial⟩
  refine .bind (KeepsFraming.modify (fun _ => []) (fun _ => rfl) (fun _ => rfl) (fun _ => rfl)
    (fun _ => by simp) (by simp)) fun _ => ?_
  apply Leads.bind (.gets _)
  intro old
  apply Leads.bind (KeepsFraming.sys (record_framing (hspeed old)))
  intro _
  apply Leads.bind (KeepsFraming.sys (record_framing (hspeed old)))
  intro _
  exact KeepsFraming.sys (setSpeed_framing _)

theorem ioctl_framing (name : String) : KeepsFraming (ioctl name) := by
  refine KeepsFraming.sys (.bind (.gets _) fun result => .bind ?_ fun _ => .pure _)
  exact KeepsFraming.modify (fun _ => [.ioctl name result]) (fun _ => rfl) (fun _ => rfl)
    (fun _ => rfl) (fun _ => rfl) fun _ _ he => List.mem_singleton.mp he ▸ ⟨trivial, trivial⟩

theorem procEnableHci_framing : KeepsFraming procEnableHci := by
  apply Leads.bind (ioctl_framing _)
  intro result
  apply KeepsFraming.when
  exact .bind (ioctl_framing _) fun _ => .pure _

theorem program_framing : KeepsFraming program :=
  program_leads (fun _ hw => hw) initUart_framing procReset_framing procBaudrate_framing
    procPatchram_framing procBdaddr_framing procEnableLpm_framing procScopcm_framing
    procI2s_framing procEnableHci_framing

theorem Parsed.framing {w t : World} (h : Parsed w t) (hw : Framing w) : Framing t where
  templates := h.keeps (fun _ _ => Templates.update) hw.templates
  complete := by rw [h.state]; exact hw.complete
  succeeding := by rw [h.state]; exact hw.succeeding
  calls := by rw [h.state]; exact hw.calls

theorem framing_of_parsed {α : Type} {c : Host α} (h : Keeps Parsed c) : KeepsFraming c :=
  fun w hw => wp_mono (h w) (fun _ _ ht => ht.framing hw) fun _ _ ht => ht.framing hw

theorem main_framing (options : List Opt) (port : Option (List UInt8)) :
    KeepsFraming (main options port) := by
  apply Leads.bind (framing_of_parsed readDefaultBdaddr_parsed)
  intro _
  apply Leads.bind (framing_of_parsed (parseCmdLine_parsed options port))
  intro ret
  apply Leads.bind (KeepsFraming.when (KeepsFraming.stop _))
  intro _
  apply Leads.bind (.gets _)
  intro uartFd
  exact .bind (KeepsFraming.when (KeepsFraming.stop _)) fun _ => program_framing

/-! ### What is on the UART -/

/-- Writes of whole packets send one packet each. -/
theorem sent_packets {io : List Io} (h : ∀ e ∈ io, e.Framed) :
    ∃ packets : List Block, sent io = packets.map fun packet => 0x01 :: packet.encode := by
  induction io with
  | nil => exact ⟨[], rfl⟩
  | cons e io ih =>
      obtain ⟨packets, hpackets⟩ := ih fun e' he' => h e' (List.mem_cons_of_mem e he')
      have he := h e List.mem_cons_self
      cases e with
      | write caller frame count =>
          obtain ⟨rfl, packet, rfl⟩ := he
          refine ⟨packet :: packets, ?_⟩
          rw [List.map_cons, ← hpackets, sent,
            List.filterMap_cons_some (b := 0x01 :: packet.encode)]
          · rfl
          · rw [Io.sent, Int.toNat_natCast, List.take_length]
      | readUart _ _ _ | event _ | readFile _ _ _ | alarm _ | tcsetattr _ | usleep _ | ioctl _ _ =>
          exact ⟨packets, hpackets⟩

/-- At every point of every run the host has sent whole packets, one by each write, and no
call has left the buffer. No option damages a template, which is what the first part rests
on: none of them changes a header or the size. -/
theorem main_framed {w : World} (hconfig : w.config = {}) (hio : w.io = [])
    (hwrites : w.writes = []) (huart : .error ∉ w.uart) (options : List Opt)
    (port : Option (List UInt8)) :
    (∀ before after, (main options port w).2.io = before ++ after →
      ∃ packets : List Block, sent before = packets.map (fun packet => 0x01 :: packet.encode) ∧
        (sent before).flatten = Block.encodeAll 0x01 packets) ∧
    (∀ e ∈ (main options port w).2.io, e.InBuffer) ∧
    Templates w.config ∧ ∀ option v, Templates v.config → Templates (parse option v).2.config := by
  have htemplates : Templates w.config := hconfig ▸ templates_default
  have hw : Framing w := ⟨htemplates, hwrites, huart, by simp [hio]⟩
  have hrun : Framing (main options port w).2 := wp_end (main_framing options port w hw)
  refine ⟨?_, fun e he => (hrun.calls e he).2, htemplates, ?_⟩
  · intro before after hsplit
    have hbefore : ∀ e ∈ before, e.Framed := fun e he =>
      (hrun.calls e (hsplit ▸ List.mem_append_left after he)).1
    obtain ⟨packets, hpackets⟩ := sent_packets hbefore
    refine ⟨packets, hpackets, ?_⟩
    rw [hpackets, Block.encodeAll, List.flatMap_def]
  · intro option v hv
    exact ((parse_parsed option).apply v).keeps (fun _ _ => Templates.update) hv

/-- A file whose second record ends early, and an option of each kind that fills a template. -/
def equippedOptions : List Opt :=
  [.patchram [0x61, 0x2e, 0x68, 0x63, 0x64], .baudrate [0x31, 0x31, 0x35, 0x32, 0x30, 0x30],
   .enableLpm,
   .scopcm [0x30, 0x2c, 0x31, 0x2c, 0x32, 0x2c, 0x33, 0x2c, 0x30, 0x2c,
    0x31, 0x2c, 0x30, 0x2c, 0x33, 0x2c, 0x30, 0x2c, 0x31],
   .i2s [0x31, 0x2c, 0x31, 0x2c, 0x30, 0x2c, 0x32]]

/-- An event comes for every command, and the two bytes for the minidriver. -/
def cutShort : World :=
  { World.start {}
      (List.replicate 2 (.bytes [0x04, 0x0e, 0x00]) ++ .bytes [0x55, 0xaa] ::
        List.replicate 8 (.bytes [0x04, 0x0e, 0x00])) [] with
    opens := [some (5, [0x4c, 0xfc, 0x01, 0xaa, 0x4e, 0xfc, 0x03, 0x01]), some (3, [])] }

/-- The record that ends early is sent as a whole packet too. -/
theorem main_framed_truncated : ∃ packets : List Block,
    sent (main equippedOptions (some portName) cutShort).2.io =
      packets.map (fun packet => 0x01 :: packet.encode) ∧ packets.length = 10 := by
  have hall := (main_framed (w := cutShort) rfl rfl rfl (by decide) equippedOptions
    (some portName)).1 _ [] (List.append_nil _).symm
  obtain ⟨packets, hpackets, _⟩ := hall
  have hten : (sent (main equippedOptions (some portName) cutShort).2.io).length = 10 := by
    decide +kernel
  refine ⟨packets, hpackets, ?_⟩
  rw [hpackets, List.length_map] at hten
  exact hten

end Patchram
