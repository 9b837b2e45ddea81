import Mathlib.Logic.Relation
import SystemBluetooth.Patchram.Options

/-!
# What an option changes

`Update g h` says that the globals `h` are `g` after one assignment of an option parser. A
run of the command line is a sequence of such updates: `Parsed` is that relation between
the state before and the state after, and everything that the options keep is an induction
on the updates.
-/

namespace Patchram

open Effect

/-- One parser sets the globals. The parameters behind the header of a template are
replaced as a whole, by as many bytes as there are. -/
inductive Update (g : Globals) : Globals → Prop where
  | patchram (fd : Int) : Update g { g with hcdfileFd := fd }
  | baudrate {entry : BaudRate} (supported : entry ∈ baudRates) :
      Update g { g with
        termiosBaudrate := entry.termiosValue
        hciUpdateBaudRate :=
          g.hciUpdateBaudRate.take 6 ++ LittleEndian.encode 4 entry.baudRate }
  | bdAddr {address : List UInt8} (six : address.length = 6) :
      Update g { g with hciWriteBdAddr := g.hciWriteBdAddr.take 4 ++ address, bdaddrFlag := true }
  | scopcm {sco format : List UInt8} (five : sco.length = 5) (others : format.length = 5) :
      Update g { g with
        scopcm := true
        hciWriteScoPcmInt := g.hciWriteScoPcmInt.take 4 ++ sco
        hciWritePcmDataFormat := g.hciWritePcmDataFormat.take 4 ++ format }
  | i2s {params : List UInt8} (four : params.length = 4) :
      Update g { g with
        i2s := true
        hciWriteI2spcmInterfaceParam := g.hciWriteI2spcmInterfaceParam.take 4 ++ params }
  | enableLpm : Update g { g with enableLpm := true }
  | enableHci : Update g { g with enableHci := true }
  | useBaudrateForDownload : Update g { g with useBaudrateForDownload := true }
  | no2bytes : Update g { g with no2bytes := true }
  | tosleep (usec : Int) : Update g { g with tosleep := usec }
  | debug : Update g { g with debug := true }
  | device (fd : Int) : Update g { g with uartFd := fd }

/-- `t` is `w` after any number of updates; files may have been opened on the way. -/
structure Parsed (w t : World) : Prop where
  state : t = { w with
    config := t.config, file := t.file, opens := t.opens, openedPaths := t.openedPaths }
  updates : Relation.ReflTransGen Update w.config t.config

namespace Parsed

theorem refl (w : World) : Parsed w w := ⟨rfl, .refl⟩

theorem trans (w u t : World) (h₁ : Parsed w u) (h₂ : Parsed u t) : Parsed w t :=
  ⟨by rw [h₂.state, h₁.state], h₁.updates.trans h₂.updates⟩

/-- What every update keeps, the options keep. -/
theorem keeps {P : Globals → Prop} (step : ∀ g h, P g → Update g h → P h) {w t : World}
    (h : Parsed w t) (hw : P w.config) : P t.config := by
  have hrun : ∀ g h : Globals, Relation.ReflTransGen Update g h → P g → P h := by
    intro g h updates hg
    induction updates with
    | refl => exact hg
    | tail _ update ih => exact step _ _ ih update
  exact hrun _ _ h.updates hw

end Parsed

/-- `t` is `w` after updates, of which none asks the program to stay on as the host of the
controller unless `hci` holds. -/
structure Sets (hci : Prop) (w t : World) : Prop where
  parsed : Parsed w t
  mode : ¬ hci → t.config.enableHci = w.config.enableHci

namespace Sets

variable {hci hci' : Prop}

theorem refl (w : World) : Sets hci w w := ⟨.refl w, fun _ => rfl⟩

theorem trans (w u t : World) (h₁ : Sets hci w u) (h₂ : Sets hci u t) : Sets hci w t :=
  ⟨h₁.parsed.trans w u t h₂.parsed, fun hnot => (h₂.mode hnot).trans (h₁.mode hnot)⟩

theorem keeps_mono {α : Type} {c : Host α} (h : Keeps (Sets hci) c) (himp : hci → hci') :
    Keeps (Sets hci') c :=
  fun w => wp_mono (h w) (fun _ _ ht => ⟨ht.parsed, fun hnot => ht.mode fun h => hnot (himp h)⟩)
    fun _ _ ht => ⟨ht.parsed, fun hnot => ht.mode fun h => hnot (himp h)⟩

end Sets

theorem parsed_of_sets {hci : Prop} {α : Type} {c : Host α} (h : Keeps (Sets hci) c) :
    Keeps Parsed c :=
  fun w => wp_mono (h w) (fun _ _ ht => ht.parsed) fun _ _ ht => ht.parsed

variable {hci : Prop}

theorem configure_sets {f : Globals → Globals} (h : ∀ g, Update g (f g))
    (hmode : ∀ g, ¬ hci → (f g).enableHci = g.enableHci) : Keeps (Sets hci) (configure f) :=
  Keeps.modify fun w => ⟨⟨rfl, .single (h w.config)⟩, hmode w.config⟩

theorem openFile_sets (path : List UInt8) : Keeps (Sets hci) (openFile path) := by
  apply Keeps.bind Sets.trans (.gets Sets.refl _)
  intro result
  refine .bind Sets.trans (Keeps.modify fun w => ⟨⟨rfl, .refl⟩, fun _ => rfl⟩) fun _ => ?_
  cases result <;> exact .pure Sets.refl _

theorem validateBaudrate_entry {baudRate : Int} {value : Nat}
    (h : validateBaudrate baudRate = some value) :
    ∃ entry ∈ baudRates, baudRate = entry.baudRate ∧ value = entry.termiosValue := by
  rw [validateBaudrate, Option.map_eq_some_iff] at h
  obtain ⟨entry, hfind, rfl⟩ := h
  have hrate : (entry.baudRate : Int) = baudRate := by simpa using List.find?_some hfind
  exact ⟨entry, List.mem_of_find?_eq_some hfind, hrate.symm, rfl⟩

/-- No supported rate is 0, so all of them are encoded. -/
theorem baudRates_encode : ∀ entry ∈ baudRates, ∀ old,
    brcmEncodeBaudRate entry.baudRate old = LittleEndian.encode 4 entry.baudRate := by
  intro entry hentry old
  have hpositive : ∀ entry ∈ baudRates, entry.baudRate ≠ 0 := by decide
  exact if_neg (hpositive entry hentry)

/-! ### The parsers -/

theorem parsePatchram_sets (optarg : List UInt8) : Keeps (Sets hci) (parsePatchram optarg) := by
  rw [parsePatchram]
  cases extension optarg with
  | none => exact .stop Sets.refl _
  | some p =>
      have hexit (code : Nat) (q : Prop) [Decidable q] :
          Keeps (Sets hci) (Effect.when q (stop (.exited code)) : Host Unit) :=
        .when Sets.refl (.stop Sets.refl _)
      apply Keeps.bind Sets.trans (hexit 4 _)
      intro _
      apply Keeps.bind Sets.trans (openFile_sets _)
      intro file
      refine .bind Sets.trans (configure_sets (fun _ => .patchram file.1) fun _ _ => rfl)
        fun _ => ?_
      apply Keeps.bind Sets.trans (hexit 5 _)
      intro _
      refine .bind Sets.trans (Keeps.modify fun w => ⟨⟨rfl, .refl⟩, fun _ => rfl⟩) fun _ => ?_
      exact .pure Sets.refl _

/-- A supported rate sets both copies to one entry; any other leaves both alone. -/
theorem parseBaudrate_sets (optarg : List UInt8) : Keeps (Sets hci) (parseBaudrate optarg) := by
  rw [parseBaudrate]
  cases hvalid : validateBaudrate (Scan.atoi optarg) with
  | none => exact .bind Sets.trans (.pure Sets.refl ()) fun _ => .pure Sets.refl _
  | some value =>
      obtain ⟨entry, hentry, hrate, rfl⟩ := validateBaudrate_entry hvalid
      refine .bind Sets.trans (configure_sets (fun g => ?_) fun _ _ => rfl) fun _ =>
        .pure Sets.refl _
      rw [hrate, Int.toNat_natCast, baudRates_encode entry hentry]
      exact .baudrate hentry

theorem parseBdaddr_sets (optarg : List UInt8) : Keeps (Sets hci) (parseBdaddr optarg) := by
  apply Keeps.bind Sets.trans (.gets Sets.refl _)
  intro stack
  exact .bind Sets.trans (configure_sets (fun g => .bdAddr (by simp)) fun _ _ => rfl) fun _ =>
    .pure Sets.refl _

theorem parseScopcm_sets (optarg : List UInt8) : Keeps (Sets hci) (parseScopcm optarg) := by
  rw [parseScopcm]
  split
  · exact .pure Sets.refl _
  · rename_i hten
    have hparam := not_not.mp hten
    exact .bind Sets.trans
      (configure_sets (fun g => .scopcm (by simp [hparam]) (by simp [hparam])) fun _ _ => rfl)
      fun _ => .pure Sets.refl _

theorem parseI2s_sets (optarg : List UInt8) : Keeps (Sets hci) (parseI2s optarg) := by
  rw [parseI2s]
  split
  · exact .pure Sets.refl _
  · rename_i hfour
    exact .bind Sets.trans (configure_sets (fun g => .i2s (not_not.mp hfour)) fun _ _ => rfl)
      fun _ => .pure Sets.refl _

theorem parse_sets (option : Opt) : Keeps (Sets (option = .enableHci)) (parse option) := by
  have hflag {hci : Prop} {f : Globals → Globals} (h : ∀ g, Update g (f g))
      (hmode : ∀ g, ¬ hci → (f g).enableHci = g.enableHci) :
      Keeps (Sets hci) (do configure f; return 0 : Host Int) :=
    .bind Sets.trans (configure_sets h hmode) fun _ => .pure Sets.refl _
  cases option with
  | patchram optarg => exact parsePatchram_sets optarg
  | baudrate optarg => exact parseBaudrate_sets optarg
  | bdAddr optarg => exact parseBdaddr_sets optarg
  | scopcm optarg => exact parseScopcm_sets optarg
  | i2s optarg => exact parseI2s_sets optarg
  | tosleep optarg =>
      refine .bind Sets.trans (configure_sets (fun _ => .tosleep _) fun _ _ => rfl) fun _ => ?_
      split <;> exact .pure Sets.refl _
  | enableLpm => exact hflag (fun _ => .enableLpm) fun _ _ => rfl
  | enableHci => exact hflag (fun _ => .enableHci) fun _ hnot => absurd rfl hnot
  | useBaudrateForDownload => exact hflag (fun _ => .useBaudrateForDownload) fun _ _ => rfl
  | no2bytes => exact hflag (fun _ => .no2bytes) fun _ _ => rfl
  | d => exact hflag (fun _ => .debug) fun _ _ => rfl
  | unknown => exact .pure Sets.refl _

theorem parseOptions_sets (options : List Opt) :
    Keeps (Sets (.enableHci ∈ options)) (parseOptions options) := by
  induction options with
  | nil => exact .pure Sets.refl _
  | cons option options ih =>
      apply Keeps.bind Sets.trans (Sets.keeps_mono (parse_sets option) fun h => by simp [h])
      intro ret
      split
      · exact .pure Sets.refl _
      · exact Sets.keeps_mono ih (List.mem_cons_of_mem option)

theorem openPort_sets (port : Option (List UInt8)) : Keeps (Sets hci) (openPort port) := by
  cases port with
  | none => exact .pure Sets.refl _
  | some port =>
      apply Keeps.bind Sets.trans (openFile_sets port)
      intro _
      exact configure_sets (fun _ => .device _) fun _ _ => rfl

theorem parseCmdLine_sets (options : List Opt) (port : Option (List UInt8)) :
    Keeps (Sets (.enableHci ∈ options)) (parseCmdLine options port) := by
  apply Keeps.bind Sets.trans (parseOptions_sets options)
  intro ret
  split
  · exact .pure Sets.refl _
  · exact .bind Sets.trans (openPort_sets port) fun _ => .pure Sets.refl _

theorem readDefaultBdaddr_sets : Keeps (Sets hci) readDefaultBdaddr := by
  apply Keeps.bind Sets.trans (.gets Sets.refl _)
  intro path
  apply Keeps.when Sets.refl
  apply Keeps.bind Sets.trans (openFile_sets _)
  intro file
  apply Keeps.when Sets.refl
  apply Keeps.bind Sets.trans (.gets Sets.refl _)
  intro result
  apply Keeps.when Sets.refl
  exact .bind Sets.trans (parseBdaddr_sets _) fun _ => .pure Sets.refl _

theorem parse_parsed (option : Opt) : Keeps Parsed (parse option) :=
  parsed_of_sets (parse_sets option)

theorem parseOptions_parsed (options : List Opt) : Keeps Parsed (parseOptions options) :=
  parsed_of_sets (parseOptions_sets options)

theorem parseCmdLine_parsed (options : List Opt) (port : Option (List UInt8)) :
    Keeps Parsed (parseCmdLine options port) :=
  parsed_of_sets (parseCmdLine_sets options port)

theorem readDefaultBdaddr_parsed : Keeps Parsed readDefaultBdaddr :=
  parsed_of_sets (readDefaultBdaddr_sets : Keeps (Sets False) readDefaultBdaddr)

end Patchram
