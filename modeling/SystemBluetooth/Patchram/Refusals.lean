import SystemBluetooth.Patchram.CommandLine
import SystemBluetooth.Patchram.Commands
import SystemBluetooth.Patchram.Status

/-!
# Command lines that are refused

The options are read one after the other, and the first that is not accepted ends the program
with a status for its kind of mistake; so does a port that is missing or cannot be opened. What
the options before it have set is lost then, and nothing has been sent to the controller.
-/

namespace Patchram

open Effect Getopt

open Scan (ascii)

variable {opens : List (Option (Nat × List UInt8))} {options : List Opt} {w : World} {status : Nat}

/-- Every option is accepted: its argument is right, and its file can be opened. -/
def Accepted (options : List Opt) (opens : List (Option (Nat × List UInt8))) : Prop :=
  (∀ o ∈ options, o.Acceptable) ∧ Opens (options.countP Opt.opensFile) opens

/-- The status that an option is refused with, if `file` is what its file is opened as. -/
inductive Opt.Refused (file : Option (Nat × List UInt8)) : Opt → Nat → Prop where
  | noExtension {optarg : List UInt8} (h : extension optarg = none) :
      Refused file (.patchram optarg) 3
  | otherExtension {optarg p : List UInt8} (h : extension optarg = some p)
      (hother : p.map Scan.toLower ≠ hcd) : Refused file (.patchram optarg) 4
  | notOpened {optarg : List UInt8} (h : (Opt.patchram optarg).Acceptable) (hnone : file = none) :
      Refused file (.patchram optarg) 5
  | malformed {o : Opt} (hother : o.opensFile = false) (h : ¬ o.Acceptable) : Refused file o 1

/-- The first option that is not accepted is refused with this status. -/
def RefusedOption (opens : List (Option (Nat × List UInt8))) (options : List Opt) (status : Nat) :
    Prop :=
  ∃ before o after, options = before ++ o :: after ∧ Accepted before opens ∧
    o.Refused ((opens.drop (before.countP Opt.opensFile)).headD none) status

/-- The status that a command line is refused with: the port is opened after the options. -/
inductive Refusal (opens : List (Option (Nat × List UInt8))) (options : List Opt)
    (port : Option (List UInt8)) : Nat → Prop where
  | option {status : Nat} (h : RefusedOption opens options status) :
      Refusal opens options port status
  | noPort (h : Accepted options opens) (hport : port = none) :
      Refusal opens options port 2
  | portNotOpened (h : Accepted options opens) {name : List UInt8} (hport : port = some name)
      (hnone : (opens.drop (options.countP Opt.opensFile)).headD none = none) :
      Refusal opens options port 2

theorem Refusal.positive {port : Option (List UInt8)} (h : Refusal opens options port status) :
    0 < status := by
  cases h with
  | option h =>
      obtain ⟨_, _, _, _, _, ho⟩ := h
      cases ho <;> decide
  | noPort | portNotOpened => decide

theorem accepted_nil : Accepted [] opens :=
  ⟨fun _ h => (List.not_mem_nil h).elim, opens_none⟩

theorem accepted_cons {o : Opt} :
    Accepted (o :: options) opens ↔
      (o.Acceptable ∧ Opens (if o.opensFile then 1 else 0) opens) ∧
        Accepted options (opens.drop (if o.opensFile then 1 else 0)) := by
  rw [Accepted, Accepted, List.forall_mem_cons, List.countP_cons, Nat.add_comm, Opens.drop]
  tauto

/-! ### One option -/

theorem opens_one : Opens 1 opens ↔ opens.headD none ≠ none := by
  cases opens with
  | nil => simp [Opens]
  | cons file later =>
      cases file with
      | none => simp [Opens]
      | some file => simpa [Opens] using ⟨_, _, rfl⟩

/-- How a parser ends that refuses its option: the program exits, or with status 1 it is the
caller that prints the usage and exits. -/
def Refuses (result : Except Stop Int) (status : Nat) : Prop :=
  result = .error (.exited status) ∨ status = 1 ∧ result = .ok 1

/-- An option that is not refused is accepted. -/
theorem Opt.accepted_or_refused (o : Opt) (opens : List (Option (Nat × List UInt8))) :
    (o.Acceptable ∧ Opens (if o.opensFile then 1 else 0) opens) ∨
      ∃ status, o.Refused (opens.headD none) status := by
  by_cases hfile : o.opensFile = true
  · cases o with
    | patchram optarg =>
        rw [if_pos hfile, opens_one]
        cases hext : extension optarg with
        | none => exact .inr ⟨3, .noExtension hext⟩
        | some p =>
            by_cases hhcd : p.map Scan.toLower = hcd
            · have hacceptable : (Opt.patchram optarg).Acceptable := ⟨p, hext, hhcd⟩
              by_cases hnone : opens.headD none = none
              · exact .inr ⟨5, .notOpened hacceptable hnone⟩
              · exact .inl ⟨hacceptable, hnone⟩
            · exact .inr ⟨4, .otherExtension hext hhcd⟩
    | _ => cases hfile
  · rw [if_neg hfile]
    by_cases hacceptable : o.Acceptable
    · exact .inl ⟨hacceptable, opens_none⟩
    · exact .inr ⟨1, .malformed (Bool.not_eq_true _ ▸ hfile) hacceptable⟩

theorem parse_refused {o : Opt} (hopens : w.opens = opens)
    (h : o.Refused (opens.headD none) status) : Refuses (parse o w).1 status := by
  cases h with
  | noExtension hext => simp [parse, parsePatchram, hext, Refuses]
  | otherExtension hext hother => simp [parse, parsePatchram, hext, when_pos hother, Refuses]
  | notOpened h hnone =>
      obtain ⟨p, hext, hhcd⟩ := h
      simp only [parse, parsePatchram, hext]
      rw [when_neg (not_not.mpr hhcd), pure_bind_apply,
        bind_ok (openFile_none _ (by rw [hopens, hnone]))]
      exact .inl rfl
  | malformed hother h =>
      cases o with
      | scopcm optarg =>
          refine .inr ⟨rfl, ?_⟩
          simp only [Opt.Acceptable, Opt.params] at h
          simp only [parse, parseScopcm]
          split <;> simp_all
      | i2s optarg =>
          refine .inr ⟨rfl, ?_⟩
          simp only [Opt.Acceptable, Opt.params] at h
          simp only [parse, parseI2s]
          split <;> simp_all
      | tosleep optarg =>
          refine .inr ⟨rfl, ?_⟩
          simp only [Opt.Acceptable, Int.not_lt] at h
          simp [parse, parseTosleep, configure, h]
      | patchram optarg => cases hother
      | _ => exact absurd trivial h

/-! ### The options in their order -/

/-- The port is not opened yet, and the next file is the first of `opens`. -/
structure Unopened (opens : List (Option (Nat × List UInt8))) (w : World) : Prop where
  port : w.config.uartFd < 0
  opens : w.opens = opens

theorem parse_ok {o : Opt} (hw : Unopened opens w)
    (h : o.Acceptable ∧ Opens (if o.opensFile then 1 else 0) opens) :
    ∃ t, parse o w = (.ok 0, t) ∧ Unopened (opens.drop (if o.opensFile then 1 else 0)) t := by
  obtain ⟨hport, rfl⟩ := hw
  obtain ⟨hiff, hopens⟩ := parse_accepted o w
  have hok := hiff.mpr h
  refine ⟨_, Prod.ext hok rfl, ?_, hopens hok⟩
  cases o with
  | patchram optarg =>
      obtain ⟨file, later, -, ht⟩ := parsePatchram_opens (Prod.ext hok rfl)
      have hsame := congrArg (fun t : World => t.config.uartFd) ht
      exact hsame.trans_lt hport
  | baudrate optarg =>
      simp only [parse, parseBaudrate]
      cases validateBaudrate (Scan.atoi optarg) <;> exact hport
  | scopcm optarg =>
      simp only [parse, parseScopcm]
      split <;> exact hport
  | i2s optarg =>
      simp only [parse, parseI2s]
      split <;> exact hport
  | tosleep optarg =>
      simp only [parse, parseTosleep]
      split <;> exact hport
  | bdAddr | enableLpm | enableHci | useBaudrateForDownload | no2bytes | d | unknown => exact hport

theorem parseOptions_ok (hw : Unopened opens w) (h : Accepted options opens) :
    ∃ t, parseOptions options w = (.ok 0, t) ∧
      Unopened (opens.drop (options.countP Opt.opensFile)) t := by
  induction options generalizing opens w with
  | nil => exact ⟨w, rfl, hw⟩
  | cons o options ih =>
      obtain ⟨hfirst, hrest⟩ := accepted_cons.mp h
      obtain ⟨u, hparse, hu⟩ := parse_ok hw hfirst
      obtain ⟨t, hrun, ht⟩ := ih hu hrest
      refine ⟨t, ?_, ?_⟩
      · rw [parseOptions, bind_ok hparse, if_neg (by simp), hrun]
      · rwa [List.countP_cons, Nat.add_comm, ← List.drop_drop]

theorem parseOptions_refused (hw : Unopened opens w) (h : RefusedOption opens options status) :
    Refuses (parseOptions options w).1 status := by
  obtain ⟨before, o, after, rfl, hbefore, ho⟩ := h
  induction before generalizing opens w with
  | nil =>
      have hrefuses := parse_refused hw.opens ho
      rw [List.nil_append, parseOptions]
      rcases hparse : parse o w with ⟨stop | ret, t⟩
      · rwa [bind_error hparse, ← congrArg Prod.fst hparse]
      · rw [hparse] at hrefuses
        obtain hstop | ⟨rfl, hone⟩ := hrefuses
        · cases hstop
        · cases hone
          rw [bind_ok hparse, if_pos (by decide)]
          exact .inr ⟨rfl, rfl⟩
  | cons first before ih =>
      obtain ⟨hfirst, hrest⟩ := accepted_cons.mp hbefore
      obtain ⟨u, hparse, hu⟩ := parse_ok hw hfirst
      rw [List.cons_append, parseOptions, bind_ok hparse, if_neg (by simp)]
      refine ih hu hrest ?_
      rwa [List.drop_drop, Nat.add_comm, ← List.countP_cons]

/-- Options that are not all accepted have a first one that is refused. -/
theorem accepted_or_refused (options : List Opt) (opens : List (Option (Nat × List UInt8))) :
    Accepted options opens ∨ ∃ status, RefusedOption opens options status := by
  induction options generalizing opens with
  | nil => exact .inl accepted_nil
  | cons o options ih =>
      obtain hfirst | ⟨status, ho⟩ := o.accepted_or_refused opens
      · obtain hrest | ⟨status, before, p, after, rfl, hbefore, hp⟩ := ih (opens.drop _)
        · exact .inl (accepted_cons.mpr ⟨hfirst, hrest⟩)
        · refine .inr ⟨status, o :: before, p, after, rfl, accepted_cons.mpr ⟨hfirst, hbefore⟩, ?_⟩
          rwa [List.countP_cons, Nat.add_comm, ← List.drop_drop]
      · exact .inr ⟨status, [], o, options, rfl, accepted_nil, ho⟩

/-! ### The port -/

/-- What `open` gives from the first option on: the default address has been read before. -/
def World.openings (w : World) : List (Option (Nat × List UInt8)) :=
  if w.bdaddrPath = [] then w.opens else w.opens.tail

theorem readDefaultBdaddr_unopened (hw : w.config.uartFd < 0) :
    ∃ u, readDefaultBdaddr w = (.ok (), u) ∧ Unopened w.openings u := by
  rw [readDefaultBdaddr, gets_bind_apply, World.openings]
  by_cases hpath : w.bdaddrPath = []
  · rw [when_neg (not_not.mpr hpath), if_pos hpath]
    exact ⟨w, rfl, hw, rfl⟩
  · obtain ⟨⟨fd, content⟩, hopen⟩ := openFile_apply w.bdaddrPath w
    rw [when_pos hpath, if_neg hpath, bind_ok hopen]
    dsimp only
    by_cases hfd : 0 ≤ fd
    · rw [when_pos hfd, gets_bind_apply]
      by_cases hcount : (w.afterOpen w.bdaddrPath).bdaddrFile.count = 17
      · rw [when_pos hcount, bind_ok (parseBdaddr_apply _ _)]
        exact ⟨_, rfl, hw, rfl⟩
      · rw [when_neg hcount]
        exact ⟨_, rfl, hw, rfl⟩
    · rw [when_neg hfd]
      exact ⟨_, rfl, hw, rfl⟩

/-- The port is opened once the options are read. -/
theorem parseCmdLine_ok (port : Option (List UInt8)) (hw : Unopened opens w)
    (h : Accepted options opens) :
    ∃ t, parseCmdLine options port w = (.ok 0, t) ∧
      (t.config.uartFd < 0 ↔ port = none ∨
        (opens.drop (options.countP Opt.opensFile)).headD none = none) := by
  obtain ⟨u, hrun, hport, hopens⟩ := parseOptions_ok hw h
  rw [parseCmdLine, bind_ok hrun, if_neg (by simp)]
  cases port with
  | none => exact ⟨u, rfl, by simp [hport]⟩
  | some name =>
      rw [← hopens]
      cases hfile : u.opens.headD none with
      | none => exact ⟨_, bind_ok (bind_ok (openFile_none name hfile)), by simp⟩
      | some file => exact ⟨_, bind_ok (bind_ok (openFile_some name hfile)), by simp⟩

/-- A command line that is refused ends the program with the status of the refusal. -/
theorem commandLine_refused {port : Option (List UInt8)} (hw : w.config.uartFd < 0)
    (h : Refusal w.openings options port status) :
    (commandLine options port w).1 = .error (.exited status) := by
  obtain ⟨u, hdefault, hu⟩ := readDefaultBdaddr_unopened hw
  rw [commandLine, bind_ok hdefault]
  have closed (haccepted : Accepted options w.openings) (hnone : port = none ∨
      (w.openings.drop (options.countP Opt.opensFile)).headD none = none) :
      ((do
        let ret ← parseCmdLine options port
        when (ret ≠ 0) (stop (.exited 1))
        let uartFd ← gets fun w => w.config.uartFd
        when (uartFd < 0) (stop (.exited 2)) : Host Unit) u).1 = .error (.exited 2) := by
    obtain ⟨t, hrun, hport⟩ := parseCmdLine_ok port hu haccepted
    rw [bind_ok hrun, when_neg (by simp), pure_bind_apply, gets_bind_apply,
      when_pos (hport.mpr hnone)]
    rfl
  cases h with
  | option hoption =>
      have hrefuses := parseOptions_refused hu hoption
      rcases hrun : parseOptions options u with ⟨stop | ret, t⟩
      · rw [hrun] at hrefuses
        obtain hstop | ⟨-, hok⟩ := hrefuses
        · cases hstop
          rw [bind_error (by rw [parseCmdLine, bind_error hrun])]
        · cases hok
      · rw [hrun] at hrefuses
        obtain hstop | ⟨rfl, hone⟩ := hrefuses
        · cases hstop
        · cases hone
          have hline : parseCmdLine options port u = (.ok 1, t) := by
            rw [parseCmdLine, bind_ok hrun, if_pos (by decide)]
            rfl
          rw [bind_ok hline, when_pos (by decide), stop_bind_apply]
  | noPort haccepted hport => exact closed haccepted (.inl hport)
  | portNotOpened haccepted _ hnone => exact closed haccepted (.inr hnone)

/-- Any other command line gets the program to the UART. -/
theorem commandLine_ok {port : Option (List UInt8)} (hw : w.config.uartFd < 0)
    (h : ∀ status, ¬ Refusal w.openings options port status) :
    ∃ t, commandLine options port w = (.ok (), t) := by
  obtain ⟨u, hdefault, hu⟩ := readDefaultBdaddr_unopened hw
  have haccepted : Accepted options w.openings :=
    (accepted_or_refused options w.openings).resolve_right fun ⟨status, hoption⟩ =>
      h status (.option hoption)
  obtain ⟨t, hrun, hport⟩ := parseCmdLine_ok port hu haccepted
  have hopened : ¬ t.config.uartFd < 0 := by
    rw [hport]
    rintro (hmissing | hnone)
    · exact h 2 (.noPort haccepted hmissing)
    · cases port with
      | none => exact h 2 (.noPort haccepted rfl)
      | some name => exact h 2 (.portNotOpened haccepted rfl hnone)
  refine ⟨t, ?_⟩
  rw [commandLine, bind_ok hdefault, bind_ok hrun, when_neg (by simp), pure_bind_apply,
    gets_bind_apply, when_neg hopened]
  rfl

/-! ### Runs -/

/-- How a run ends that has got to the UART. -/
def Lasts (stop : Stop) : Prop := stop = .waiting ∨ stop = .exited 0

theorem stops_of_waits {α : Type} {c : Host α} {Q : World → α → World → Prop}
    (h : ∀ w, wp c (Q w) (Waits w) w) : Stops Lasts c :=
  fun w => wp_mono (h w) (fun _ _ _ => trivial) fun _ _ hwaits => .inl hwaits.1

theorem Issues.lasts {α : Type} {c : Host α} {fs : Globals → List (List UInt8)}
    (h : ∀ g, Issues g (fs g) c) : Stops Lasts c :=
  stops_of_waits fun w => h w.config w rfl

/-- An `ioctl` that fails is not a reason to stop. -/
theorem ioctl_lasts (name : String) : Stops Lasts (ioctl name) :=
  .bind (.modify _) fun _ => .bind (.gets _) fun _ => .bind (.modify _) fun _ => .pure _

theorem program_lasts : Stops Lasts program := by
  refine .bind (Issues.lasts fun _ => initUart_issues) fun _ => ?_
  refine .bind (Issues.lasts fun _ => procReset_issues) fun _ => .bind (.gets _) fun config => ?_
  have hbaudrate : Stops Lasts procBaudrate := Issues.lasts fun _ => procBaudrate_issues
  refine .bind (.when (.when hbaudrate)) fun _ => ?_
  refine .bind (.when (stops_of_waits procPatchram_commands)) fun _ => ?_
  refine .bind (.when hbaudrate) fun _ => ?_
  refine .bind (.when (Issues.lasts fun _ => procBdaddr_issues)) fun _ => ?_
  refine .bind (.when (Issues.lasts fun _ => procEnableLpm_issues)) fun _ => ?_
  refine .bind (.when (Issues.lasts fun _ => procScopcm_issues)) fun _ => ?_
  refine .bind (.when (Issues.lasts fun _ => procI2s_issues)) fun _ => ?_
  refine .bind (.when (.bind ?_ fun _ => .stop (.inl rfl))) fun _ => .stop (.inr rfl)
  exact .bind (ioctl_lasts _) fun result => .when (.bind (ioctl_lasts _) fun _ => .pure _)

theorem main_refused {port : Option (List UInt8)} (hw : w.config.uartFd < 0)
    (h : Refusal w.openings options port status) :
    (main options port w).1 = .error (.exited status) ∧ (main options port w).2.io = w.io := by
  have hstatus := commandLine_refused hw h
  have hparsed : Parsed w (commandLine options port w).2 :=
    wp_end (parsed_of_sets (commandLine_sets options port) w)
  have hrun : commandLine options port w =
      (.error (.exited status), (commandLine options port w).2) := Prod.ext hstatus rfl
  rw [main_eq, bind_error hrun]
  refine ⟨rfl, ?_⟩
  rw [hparsed.state]

/-- The program exits with a status greater than 0 exactly if its command line is refused, and
then with the status of the first option that is not accepted or else of the port, and without
having touched the controller. -/
theorem mainArgv_refused (hconfig : w.config = {}) (argv : List Word) (status : Nat) :
    ((mainArgv argv w).1 = .error (.exited status) ∧ 0 < status ↔
        Refusal w.openings (splitArgv argv.tail).1 (splitArgv argv.tail).2.head? status) ∧
      (Refusal w.openings (splitArgv argv.tail).1 (splitArgv argv.tail).2.head? status →
        (mainArgv argv w).2.io = w.io) := by
  have hw : w.config.uartFd < 0 := by
    rw [hconfig]
    decide
  have hmain : mainArgv argv =
      main (splitArgv argv.tail).1 (splitArgv argv.tail).2.head? := rfl
  rw [hmain]
  generalize (splitArgv argv.tail).1 = options
  generalize (splitArgv argv.tail).2.head? = port
  refine ⟨⟨?_, fun h => ⟨(main_refused hw h).1, h.positive⟩⟩, fun h => (main_refused hw h).2⟩
  rintro ⟨hexit, hpositive⟩
  by_cases hnone : ∀ status, ¬ Refusal w.openings options port status
  · obtain ⟨u, hline⟩ := commandLine_ok hw hnone
    rw [main_eq, bind_ok hline] at hexit
    obtain hwaiting | hzero := (wp_of_error (Prod.ext hexit rfl)).mp (program_lasts u)
    · cases hwaiting
    · obtain rfl : status = 0 := by simpa using hzero
      exact absurd hpositive (Nat.lt_irrefl 0)
  · obtain ⟨other, h⟩ := not_forall_not.mp hnone
    have hother := (main_refused hw h).1
    rw [hexit] at hother
    obtain rfl : status = other := by simpa using hother
    exact h

/-- A pause of no time is refused before the firmware file, which has no extension, is. -/
theorem mainArgv_refused_pauseFirst :
    (mainArgv [ascii "brcm_patchram_plus", ascii "--enable_lpm", ascii "--tosleep=0",
      ascii "--patchram", ascii "firmware", ascii "/dev/ttyHS0"] (.start {} [] [])).1 =
        .error (.exited 1) := by
  have hpause : ¬ (Opt.tosleep (ascii "0")).Acceptable := by
    rw [Opt.Acceptable]
    decide +kernel
  have hoption : RefusedOption []
      [.enableLpm, .tosleep (ascii "0"), .patchram (ascii "firmware")] 1 :=
    ⟨[.enableLpm], _, [.patchram (ascii "firmware")], rfl,
      accepted_cons.mpr ⟨⟨trivial, opens_none⟩, accepted_nil⟩, .malformed rfl hpause⟩
  have hline : splitArgv [ascii "--enable_lpm", ascii "--tosleep=0", ascii "--patchram",
      ascii "firmware", ascii "/dev/ttyHS0"] =
        ([.enableLpm, .tosleep (ascii "0"), .patchram (ascii "firmware")],
          [ascii "/dev/ttyHS0"]) := by
    decide +kernel
  refine (((mainArgv_refused (w := .start {} [] []) rfl _ 1).1).mpr (.option ?_)).1
  rw [List.tail_cons, hline]
  exact hoption

end Patchram
