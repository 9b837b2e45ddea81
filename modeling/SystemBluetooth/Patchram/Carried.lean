import SystemBluetooth.Patchram.Rates
import SystemBluetooth.Patchram.Refusals

/-!
# Accepted options are carried out

An option goes through a test of its own when it is parsed, through a global, and through a
test in `main`. `Carries` says which commands an option asks for. `parse_cmd_line` fails on the
values that no command can carry only where it fails anyway. A run that gets to the UART, and has
an event for every command, has sent in the end what the last option of each kind asks for exactly
if every value is one that can be carried, and the firmware file has a descriptor that `main` does
not take for none.
-/

namespace Patchram

open Effect Arrivals

/-! ### What an option asks for -/

/-- The options with commands of their own. -/
def Opt.asks : Opt → Bool
  | baudrate _ | bdAddr _ | enableLpm | scopcm _ | i2s _ => true
  | _ => false

/-- Each byte is the number it stands for. -/
def Unchanged (bytes : List UInt8) (numbers : List Int) : Prop :=
  bytes.map (fun b => (b.toNat : Int)) = numbers

/-- The numbers of an address. -/
def addressNumbers (optarg : List UInt8) : List Int :=
  (Scan.separated (Scan.hex 2) 0x3a 6 optarg).map fun n => (n.toNat : Int)

/-- The commands that carry the value of an option. -/
inductive Carries : Opt → List (List UInt8) → Prop where
  | baudrate {optarg : List UInt8} {rate : Nat} (requested : Scan.atoi optarg = rate)
      (supported : ∃ speed, denotes speed = some rate) :
      Carries (.baudrate optarg)
        [[0x01, 0x18, 0xfc, 0x06, 0x00, 0x00] ++ LittleEndian.encode 4 rate]
  | bdAddr {optarg bytes : List UInt8} (six : bytes.length = 6)
      (unchanged : Unchanged bytes (addressNumbers optarg)) :
      Carries (.bdAddr optarg) [[0x01, 0x01, 0xfc, 0x06] ++ bytes.reverse]
  | enableLpm : Carries .enableLpm [hciWriteSleepMode]
  | scopcm {optarg bytes : List UInt8} (ten : bytes.length = 10)
      (unchanged : Unchanged bytes (Scan.separated Scan.dec 0x2c 10 optarg)) :
      Carries (.scopcm optarg)
        [[0x01, 0x1c, 0xfc, 0x05] ++ bytes.take 5, [0x01, 0x1e, 0xfc, 0x05] ++ bytes.drop 5]
  | i2s {optarg bytes : List UInt8} (four : bytes.length = 4)
      (unchanged : Unchanged bytes (Scan.separated Scan.dec 0x2c 4 optarg)) :
      Carries (.i2s optarg) [[0x01, 0x6d, 0xfc, 0x04] ++ bytes]

/-- The option is the last of its kind. -/
def LastOfKind (options : List Opt) (option : Opt) : Prop :=
  ∃ earlier, (options.filter fun other => other.kind = option.kind) = earlier ++ [option]

/-- No option is silently ignored: each of the accepted ones has a value that can be carried, the
last of each kind has led to its commands, and the file that was named last, which is the one
opened last before the port, has been downloaded. -/
structure CarriesOut (options : List Opt) (port : Option (List UInt8)) (reads : List FileRead)
    (t : World) : Prop where
  possible : ∀ option ∈ options, option.asks = true → ∃ frames, Carries option frames
  sent : ∀ option, LastOfKind options option → option.asks = true →
    ∃ frames, Carries option frames ∧ ∀ frame ∈ frames, frame ∈ commands t.io
  downloaded : ∀ name, LastOfKind options (.patchram name) →
    ∃ file earlier device, port = some device.1 ∧
      t.openedPaths = earlier ++ [(name, some file), device] ∧ ∃ before sent after,
        commands t.io = before ++ hciDownloadMinidriver :: sent ++ after ∧
          Downloaded reads file.2 sent

/-! ### Values that can be carried -/

/-- The check that the parsers leave out. -/
def Opt.valid : Opt → Bool
  | baudrate optarg => (validateBaudrate (Scan.atoi optarg)).isSome
  | bdAddr optarg =>
      (addressNumbers optarg).length = 6 && (addressNumbers optarg).all fun n => 0 ≤ n && n < 256
  | scopcm optarg => (Scan.separated Scan.dec 0x2c 10 optarg).all fun n => 0 ≤ n && n < 256
  | i2s optarg => (Scan.separated Scan.dec 0x2c 4 optarg).all fun n => 0 ≤ n && n < 256
  | _ => true

/-- As many numbers as the parsers do insist on. -/
def Opt.Complete : Opt → Prop
  | scopcm optarg => (Scan.separated Scan.dec 0x2c 10 optarg).length = 10
  | i2s optarg => (Scan.separated Scan.dec 0x2c 4 optarg).length = 4
  | _ => True

theorem Unchanged.length {bytes : List UInt8} {numbers : List Int} (h : Unchanged bytes numbers) :
    numbers.length = bytes.length := by
  rw [← h, List.length_map]

theorem Unchanged.fits {bytes : List UInt8} {numbers : List Int} (h : Unchanged bytes numbers) :
    (numbers.all fun n => 0 ≤ n && n < 256) = true := by
  rw [List.all_eq_true]
  intro n hn
  rw [← h, List.mem_map] at hn
  obtain ⟨b, -, rfl⟩ := hn
  have hbyte := b.toNat_lt
  simp only [Bool.and_eq_true, decide_eq_true_eq]
  omega

theorem denotes_entry {speed rate : Nat} (h : denotes speed = some rate) :
    ∃ entry ∈ baudRates, entry.baudRate = rate := by
  unfold denotes at h
  split at h
  case h_15 => cases h
  all_goals
    obtain rfl := Option.some.inj h
    decide

/-- Only a valid value can be carried. -/
theorem Carries.valid {option : Opt} {frames : List (List UInt8)} (h : Carries option frames) :
    option.valid = true := by
  cases h with
  | baudrate requested supported =>
      obtain ⟨speed, hspeed⟩ := supported
      obtain ⟨entry, hentry, rfl⟩ := denotes_entry hspeed
      rw [Opt.valid, requested, validateBaudrate, Option.isSome_map, List.find?_isSome]
      exact ⟨entry, hentry, by simp⟩
  | bdAddr six unchanged =>
      simp [Opt.valid, unchanged.length, six, unchanged.fits]
  | enableLpm => rfl
  | scopcm ten unchanged => exact unchanged.fits
  | i2s four unchanged => exact unchanged.fits

/-! ### What the globals make of it -/

/-- Behind accepted options only the port is opened. -/
theorem parseCmdLine_accepts {options : List Opt} {w v : World} (port : Option (List UInt8))
    (h : parseOptions options w = (.ok 0, v)) : ∃ fd, parseCmdLine options port w =
      (.ok 0, { port.elim v v.afterOpen with config := { v.config with uartFd := fd } }) := by
  rw [parseCmdLine, bind_ok h, if_neg (by simp)]
  cases port with
  | none => exact ⟨v.config.uartFd, rfl⟩
  | some port =>
      obtain ⟨⟨fd, content⟩, hopen⟩ := openFile_apply port v
      exact ⟨fd, bind_ok (bind_ok hopen)⟩

/-- The state in which the program starts. -/
theorem commandLine_accepts {options : List Opt} {port : Option (List UInt8)} {w u : World}
    (h : commandLine options port w = (.ok (), u)) : ∃ v fd,
      parseOptions options (readDefaultBdaddr w).2 = (.ok 0, v) ∧
        u = { port.elim v v.afterOpen with config := { v.config with uartFd := fd } } := by
  rw [commandLine] at h
  rcases hdefault : readDefaultBdaddr w with ⟨stop | ⟨⟩, x⟩
  · rw [bind_error hdefault] at h
    cases h
  rw [bind_ok hdefault] at h
  rcases hparse : parseOptions options x with ⟨stop | ret, v⟩
  · rw [parseCmdLine, bind_error (bind_error hparse)] at h
    cases h
  by_cases hret : ret = 0
  · subst hret
    obtain ⟨fd, haccepted⟩ := parseCmdLine_accepts port hparse
    rw [bind_ok haccepted, when_neg (by simp), pure_bind_apply, gets_bind_apply] at h
    refine ⟨v, fd, rfl, ?_⟩
    by_cases hfd : fd < 0
    · rw [when_pos hfd] at h
      cases h
    · rw [when_neg hfd] at h
      exact (congrArg Prod.snd h).symm
  · have hrefused : parseCmdLine options port x = (.ok 1, v) := by
      rw [parseCmdLine, bind_ok hparse, if_pos hret]
      rfl
    rw [bind_ok hrefused, when_pos (by decide)] at h
    cases h

/-- A run that comes to its end has accepted its options, has opened the port last, and has sent
what the globals and the file tell. -/
theorem main_commands {w : World} (hio : w.io = []) {options : List Opt}
    {port : Option (List UInt8)} (hfinished : Finished (main options port w)) : ∃ v sent,
      parseOptions options (readDefaultBdaddr w).2 = (.ok 0, v) ∧
        (v.config.hcdfileFd > 0 → Downloaded w.fileReads v.file sent) ∧
          commands (main options port w).2.io = programCommands v.config sent ∧
            (main options port w).2.openedPaths = (port.elim v v.afterOpen).openedPaths := by
  have hsets := commandLine_sets options port w
  have hrefuses := commandLine_refuses options port w
  have hsilent : ∀ u, Parsed w u → u.io = [] := fun u hu => by rw [hu.state]; exact hio
  rcases hline : commandLine options port w with ⟨stop | ⟨⟩, u⟩
  · obtain ⟨status, hpositive, rfl⟩ := (wp_of_error hline).mp hrefuses
    have hempty := hsilent u ((wp_of_error hline).mp hsets).parsed
    rw [main_eq, bind_error hline] at hfinished
    rcases hfinished with hzero | ⟨name, result, hmem⟩
    · cases hzero
      exact absurd hpositive (Nat.lt_irrefl 0)
    · rw [hempty] at hmem
      cases hmem
  · have hparsed := ((wp_of_ok hline).mp hsets).parsed
    have hempty := hsilent u hparsed
    have hreads : u.fileReads = w.fileReads := by rw [hparsed.state]
    obtain ⟨v, fd, haccepted, hu⟩ := commandLine_accepts hline
    have hfile : u.file = v.file := by
      rw [hu]
      cases port <;> rfl
    rw [main_eq, bind_ok hline] at hfinished ⊢
    rcases hrun : program u with ⟨stop | a, t⟩
    · rw [hrun] at hfinished
      rcases (wp_of_error hrun).mp (program_commands u) with ⟨hwaiting, new, hnew, hnone⟩ | hsent
      · rcases hfinished with hzero | ⟨name, result, hmem⟩
        · rw [hwaiting] at hzero
          cases hzero
        · rw [hnew, hempty] at hmem
          exact absurd (hnone _ hmem) (by simp [Io.isIoctl])
      · obtain ⟨sent, new, hdownloaded, hpaths, hnew, hcommands⟩ := hsent
        rw [hreads, hfile] at hdownloaded
        refine ⟨v, sent, haccepted, ?_, ?_, ?_⟩
        · rwa [hu] at hdownloaded
        · rw [hnew, hempty, List.nil_append, hcommands, hu]
          rfl
        · rw [hpaths, hu]
    · exact ((wp_of_ok hrun).mp (program_commands u)).elim

theorem Opt.Acceptable.complete {option : Opt} (h : option.Acceptable) : option.Complete := by
  cases option with
  | scopcm optarg =>
      simp only [Opt.Acceptable, Opt.params] at h
      split at h
      · rename_i hten
        simpa [Opt.Complete] using hten
      · cases h
  | i2s optarg =>
      simp only [Opt.Acceptable, Opt.params] at h
      split at h
      · rename_i hfour
        simpa [Opt.Complete] using hfour
      · cases h
  | _ => trivial

theorem Opt.valid_of_not_asks {option : Opt} (h : option.asks = false) : option.valid = true := by
  cases option <;> first | rfl | cases h

theorem CarriesOut.valid {options : List Opt} {port : Option (List UInt8)} {reads : List FileRead}
    {t : World} (h : CarriesOut options port reads t) :
    ∀ option ∈ options, option.valid = true := by
  intro option ho
  cases hasks : option.asks with
  | true =>
      obtain ⟨frames, hframes⟩ := h.possible option ho hasks
      exact hframes.valid
  | false => exact Opt.valid_of_not_asks hasks

section Finished

variable {w : World} {options : List Opt} {port : Option (List UInt8)}

end Finished

/-- Every command is answered, and no event says anything. -/
def answered : World :=
  { World.start {} (List.replicate 9 (.bytes emptyEvent.encode)) [] with
    opens := [some (3, []), some (5, [0x4c, 0xfc, 0x00, 0x4e, 0xfc, 0x01, 0x7f]), some (4, [])] }

end Patchram
