import SystemBluetooth.Patchram.Settings

/-!
# The two copies of the baud rate

A rate is kept as a termios constant for the host and as four bytes of a command for the
controller. Both are set together, from one entry of `baudRates`, or not at all; and no
option turns another command into one that changes the rate.
-/

namespace Patchram

open Effect

/-- The rate an Update_Baud_Rate command carries; other commands carry none. -/
def updateRate (frame : List UInt8) : Option Nat :=
  if frame.take 4 = [0x01, 0x18, 0xfc, 0x06] ∧ frame.length = 10 then
    some (LittleEndian.decode (frame.drop 6))
  else none

/-- The rate in baud that a termios constant stands for. -/
def denotes : Nat → Option Nat
  | 0o10002 => some 115200
  | 0o10003 => some 230400
  | 0o10004 => some 460800
  | 0o10005 => some 500000
  | 0o10006 => some 576000
  | 0o10007 => some 921600
  | 0o10010 => some 1000000
  | 0o10011 => some 1152000
  | 0o10012 => some 1500000
  | 0o10013 => some 2000000
  | 0o10014 => some 2500000
  | 0o10015 => some 3000000
  | 0o10016 => some 3500000
  | 0o10017 => some 4000000
  | _ => none

/-- Every entry of the table is right, and its rate fits the four bytes. -/
theorem baudRates_denote : ∀ entry ∈ baudRates, denotes entry.termiosValue = some entry.baudRate ∧
    entry.termiosValue ≠ 0 ∧ 0 < entry.baudRate ∧ entry.baudRate < 256 ^ 4 := by
  decide

/-- No rate is set, or both copies are those of one entry. -/
def RatesMatch (g : Globals) : Prop :=
  g.termiosBaudrate = 0 ∧ g.hciUpdateBaudRate = [0x01, 0x18, 0xfc, 0x06, 0, 0, 0, 0, 0, 0] ∨
    ∃ entry ∈ baudRates, g.termiosBaudrate = entry.termiosValue ∧
      g.hciUpdateBaudRate.take 6 = [0x01, 0x18, 0xfc, 0x06, 0, 0] ∧
      (g.hciUpdateBaudRate.drop 6).length = 4 ∧
      LittleEndian.decode (g.hciUpdateBaudRate.drop 6) = entry.baudRate

/-- What all options keep: the rates match, and the headers of the other commands. -/
structure Configured (g : Globals) : Prop where
  rates : RatesMatch g
  bdAddr : g.hciWriteBdAddr.take 4 = [0x01, 0x01, 0xfc, 0x06]
  scoPcmInt : g.hciWriteScoPcmInt.take 4 = [0x01, 0x1c, 0xfc, 0x05]
  pcmDataFormat : g.hciWritePcmDataFormat.take 4 = [0x01, 0x1e, 0xfc, 0x05]
  i2spcm : g.hciWriteI2spcmInterfaceParam.take 4 = [0x01, 0x6d, 0xfc, 0x04]

theorem configured_default : Configured {} :=
  ⟨Or.inl ⟨rfl, rfl⟩, rfl, rfl, rfl, rfl⟩

theorem RatesMatch.take_six {g : Globals} (h : RatesMatch g) :
    g.hciUpdateBaudRate.take 6 = [0x01, 0x18, 0xfc, 0x06, 0, 0] := by
  obtain ⟨_, hbytes⟩ | ⟨_, _, _, hheader, _⟩ := h
  · rw [hbytes]
    rfl
  · exact hheader

/-- A rate that is set is the one the command carries. -/
theorem RatesMatch.denotes {g : Globals} (h : RatesMatch g) (hset : g.termiosBaudrate ≠ 0) :
    ∃ rate, updateRate g.hciUpdateBaudRate = some rate ∧
      Patchram.denotes g.termiosBaudrate = some rate := by
  obtain ⟨hzero, _⟩ | ⟨entry, hentry, hvalue, hheader, hlen, hrate⟩ := h
  · exact absurd hzero hset
  · have hfour : g.hciUpdateBaudRate.take 4 = [0x01, 0x18, 0xfc, 0x06] := by
      have h := congrArg (List.take 4) hheader
      rwa [List.take_take] at h
    have hten : g.hciUpdateBaudRate.length = 10 := by
      rw [List.length_drop] at hlen
      omega
    refine ⟨entry.baudRate, ?_, by rw [hvalue, (baudRates_denote entry hentry).1]⟩
    rw [updateRate, if_pos ⟨hfour, hten⟩, hrate]

/-- Only the header tells an Update_Baud_Rate command. -/
theorem updateRate_of_header {frame header : List UInt8} (h : frame.take 4 = header)
    (hne : header ≠ [0x01, 0x18, 0xfc, 0x06]) : updateRate frame = none :=
  if_neg fun hupdate => hne (h.symm.trans hupdate.1)

/-- Before the UART is used. -/
structure Ready (w : World) : Prop where
  configured : Configured w.config
  silent : w.io = []

/-- The four bytes in front stay when the rest of a command is replaced. -/
theorem take_four {frame : List UInt8} {a b c d : UInt8} (h : frame.take 4 = [a, b, c, d])
    (params : List UInt8) : (frame.take 4 ++ params).take 4 = [a, b, c, d] := by
  rw [h]
  rfl

/-- Both copies are those of the entry once it has been stored. -/
theorem RatesMatch.store {g : Globals} (h : RatesMatch g) {entry : BaudRate}
    (hentry : entry ∈ baudRates) :
    RatesMatch { g with
      termiosBaudrate := entry.termiosValue
      hciUpdateBaudRate :=
        g.hciUpdateBaudRate.take 6 ++ LittleEndian.encode 4 entry.baudRate } := by
  obtain ⟨_, _, _, hlt⟩ := baudRates_denote entry hentry
  have hsix : (g.hciUpdateBaudRate.take 6).length = 6 := by
    rw [h.take_six]
    rfl
  have hdrop : (g.hciUpdateBaudRate.take 6 ++ LittleEndian.encode 4 entry.baudRate).drop 6 =
      LittleEndian.encode 4 entry.baudRate := List.drop_left' hsix
  refine Or.inr ⟨entry, hentry, rfl, ?_, ?_, ?_⟩
  · rw [List.take_left' hsix, h.take_six]
  · rw [hdrop, LittleEndian.length_encode]
  · rw [hdrop, LittleEndian.decode_encode_of_lt hlt]

/-- A supported rate sets both copies to one entry; every other update leaves both alone. -/
theorem Configured.update {g h : Globals} (hg : Configured g) (update : Update g h) :
    Configured h := by
  cases update with
  | baudrate supported => exact ⟨hg.rates.store supported, hg.2, hg.3, hg.4, hg.5⟩
  | bdAddr six => exact ⟨hg.1, take_four hg.bdAddr _, hg.3, hg.4, hg.5⟩
  | scopcm five others =>
      exact ⟨hg.1, hg.2, take_four hg.scoPcmInt _, take_four hg.pcmDataFormat _, hg.5⟩
  | i2s four => exact ⟨hg.1, hg.2, hg.3, hg.4, take_four hg.i2spcm _⟩
  | patchram _ | tosleep _ | device _ => exact ⟨hg.1, hg.2, hg.3, hg.4, hg.5⟩
  | enableLpm | enableHci | useBaudrateForDownload | no2bytes | debug =>
      exact ⟨hg.1, hg.2, hg.3, hg.4, hg.5⟩

theorem Parsed.ready {w t : World} (h : Parsed w t) (hw : Ready w) : Ready t where
  configured := h.keeps (fun _ _ => Configured.update) hw.configured
  silent := by
    rw [h.state]
    exact hw.silent

theorem ready_of_parsed {α : Type} {c : Host α} (h : Keeps Parsed c) : Leads Ready Ready Ready c :=
  fun w hw => wp_mono (h w) (fun _ _ ht => ht.ready hw) fun _ _ ht => ht.ready hw

theorem parseOptions_ready (options : List Opt) : Leads Ready Ready Ready (parseOptions options) :=
  ready_of_parsed (parseOptions_parsed options)

theorem parseCmdLine_ready (options : List Opt) (port : Option (List UInt8)) :
    Leads Ready Ready Ready (parseCmdLine options port) :=
  ready_of_parsed (parseCmdLine_parsed options port)

theorem readDefaultBdaddr_ready : Leads Ready Ready Ready readDefaultBdaddr :=
  ready_of_parsed readDefaultBdaddr_parsed

end Patchram
