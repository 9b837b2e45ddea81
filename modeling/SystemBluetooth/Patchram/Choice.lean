import SystemBluetooth.Library.LastOf
import SystemBluetooth.Patchram.Address
import SystemBluetooth.Patchram.Framing

/-!
# The last valid option wins

No two kinds of options write the same global, and what an option writes behind the header of
a template does not depend on what was there. So a command line whose options are all accepted
comes to one assignment of the globals, `chosen`: each of them is set from the last option of
its kind that has a value, however the kinds are interleaved.
-/

namespace Patchram

open Effect

namespace Opt

/-- The options by their names. -/
inductive Kind where
  | patchram | baudrate | bdAddr | enableLpm | enableHci | useBaudrateForDownload
  | scopcm | i2s | no2bytes | tosleep | d | unknown
  deriving DecidableEq

def kind : Opt → Kind
  | patchram _ => .patchram
  | baudrate _ => .baudrate
  | bdAddr _ => .bdAddr
  | enableLpm => .enableLpm
  | enableHci => .enableHci
  | useBaudrateForDownload => .useBaudrateForDownload
  | scopcm _ => .scopcm
  | i2s _ => .i2s
  | no2bytes => .no2bytes
  | tosleep _ => .tosleep
  | d => .d
  | unknown => .unknown

/-- The rate, if it is supported. -/
@[simp] def rate : Opt → Option BaudRate
  | baudrate optarg => baudRates.find? fun entry => (entry.baudRate : Int) = Scan.atoi optarg
  | _ => none

/-- The six bytes of an address, the last of the string first. -/
def sixBytes (optarg : List UInt8) : Option (List UInt8) :=
  let found := Scan.separated (Scan.hex 2) 0x3a 6 optarg
  if found.length = 6 then some (found.reverse.map UInt32.toUInt8) else none

@[simp] def address : Opt → Option (List UInt8)
  | bdAddr optarg => sixBytes optarg
  | _ => none

/-- As many numbers as the option has parameters. -/
def params (n : Nat) (optarg : List UInt8) : Option (List UInt8) :=
  let param := (Scan.separated Scan.dec 0x2c n optarg).map UInt8.ofInt
  if param.length = n then some param else none

@[simp] def scoParams : Opt → Option (List UInt8)
  | scopcm optarg => params 10 optarg
  | _ => none

@[simp] def i2sParams : Opt → Option (List UInt8)
  | i2s optarg => params 4 optarg
  | _ => none

/-- A time to sleep. -/
@[simp] def usec : Opt → Option Int
  | tosleep optarg => if 0 < Scan.atoi optarg then some (Scan.atoi optarg) else none
  | _ => none

/-- The name of a firmware file. -/
@[simp] def fileName : Opt → Option (List UInt8)
  | patchram optarg => some optarg
  | _ => none

@[simp] def opensFile : Opt → Bool
  | patchram _ => true
  | _ => false

/-- An address is the text of one. -/
def Formed : Opt → Prop
  | bdAddr optarg => ∃ t, IsAddress optarg t
  | _ => True

/-- An address has six numbers. -/
def Converts : Opt → Prop
  | bdAddr optarg => (sixBytes optarg).isSome
  | _ => True

end Opt

/-- What the last successful `open` of a firmware file has given. -/
def opened (options : List Opt) (opens : List (Option (Nat × List UInt8))) :
    Option (Nat × List UInt8) :=
  lastOf id (opens.take (options.countP Opt.opensFile))

/-- The globals after the options, each from the last valid option of its kind. -/
def chosen (options : List Opt) (opens : List (Option (Nat × List UInt8))) (g : Globals) :
    Globals :=
  { g with
    hcdfileFd := ((opened options opens).map fun file => (file.1 : Int)).getD g.hcdfileFd
    termiosBaudrate :=
      ((lastOf Opt.rate options).map BaudRate.termiosValue).getD g.termiosBaudrate
    hciUpdateBaudRate := ((lastOf Opt.rate options).map fun entry =>
      g.hciUpdateBaudRate.take 6 ++ LittleEndian.encode 4 entry.baudRate).getD
        g.hciUpdateBaudRate
    bdaddrFlag := g.bdaddrFlag || (lastOf Opt.address options).isSome
    hciWriteBdAddr := ((lastOf Opt.address options).map fun address =>
      g.hciWriteBdAddr.take 4 ++ address).getD g.hciWriteBdAddr
    enableLpm := g.enableLpm || decide (.enableLpm ∈ options)
    enableHci := g.enableHci || decide (.enableHci ∈ options)
    useBaudrateForDownload :=
      g.useBaudrateForDownload || decide (.useBaudrateForDownload ∈ options)
    scopcm := g.scopcm || (lastOf Opt.scoParams options).isSome
    hciWriteScoPcmInt := ((lastOf Opt.scoParams options).map fun param =>
      g.hciWriteScoPcmInt.take 4 ++ param.take 5).getD g.hciWriteScoPcmInt
    hciWritePcmDataFormat := ((lastOf Opt.scoParams options).map fun param =>
      g.hciWritePcmDataFormat.take 4 ++ param.drop 5).getD g.hciWritePcmDataFormat
    i2s := g.i2s || (lastOf Opt.i2sParams options).isSome
    hciWriteI2spcmInterfaceParam := ((lastOf Opt.i2sParams options).map fun param =>
      g.hciWriteI2spcmInterfaceParam.take 4 ++ param).getD g.hciWriteI2spcmInterfaceParam
    no2bytes := g.no2bytes || decide (.no2bytes ∈ options)
    tosleep := (lastOf Opt.usec options).getD g.tosleep
    debug := g.debug || decide (.d ∈ options) }

/-- The state after the options: each firmware file has been opened by its name. -/
def World.chosen (options : List Opt) (w : World) : World :=
  { w with
    config := Patchram.chosen options w.opens w.config
    file := ((opened options w.opens).map Prod.snd).getD w.file
    opens := w.opens.drop (options.countP Opt.opensFile)
    openedPaths := w.openedPaths ++ (options.filterMap Opt.fileName).zip w.opens }

/-! ### One option -/

/-- The text of an address is one as an option. -/
theorem isAddress_string (t : Address.Text) : IsAddress t.string t := by
  have hgroup : ∀ g : Scan.Group 2, g.digits.count 0 = 0 := fun g =>
    List.count_eq_zero.mpr fun hmem => absurd (g.hex _ hmem) (by decide)
  have hnul : t.string.count 0 = 0 := by
    obtain ⟨groups, six⟩ := t
    match groups, six with
    | [g₁, g₂, g₃, g₄, g₅, g₆], six =>
        simp [Address.Text.string, List.count_append, hgroup]
  rw [IsAddress, List.takeWhile_eq_self_iff]
  intro c hc
  have hne : c ≠ 0 := fun hzero => List.count_eq_zero.mp hnul (hzero ▸ hc)
  simpa using hne

theorem sixBytes_formed {optarg : List UInt8} {t : Address.Text} (h : IsAddress optarg t) :
    Opt.sixBytes optarg = some t.address.b.toList := by
  have hsplit : optarg = t.string ++ optarg.dropWhile (· != 0) := by
    rw [← h, List.takeWhile_append_dropWhile]
  have hstop : ∀ c ∈ (optarg.dropWhile (· != 0)).head?, Scan.isAlnum c = false := by
    intro c hc
    have hnul := List.head?_dropWhile_not (· != 0) optarg
    rw [Option.mem_def.mp hc] at hnul
    obtain rfl : c = 0 := by simpa using hnul
    rfl
  have hfound := Scan.separated_joined (show Scan.isAlnum 0x3a = false from rfl) t.groups hstop
  rw [t.six] at hfound
  rw [Opt.sixBytes, hsplit, Address.Text.string, hfound]
  simp [t.six, Address.Text.address, Function.comp_def]

theorem Opt.Formed.converts {option : Opt} (h : option.Formed) : option.Converts := by
  cases option with
  | bdAddr optarg =>
      obtain ⟨t, ht⟩ := h
      exact Option.isSome_iff_exists.mpr ⟨_, sixBytes_formed ht⟩
  | _ => trivial

/-- With all six numbers there, nothing is left over from the stack. -/
theorem converted_six {optarg bytes : List UInt8} (h : Opt.sixBytes optarg = some bytes)
    (stack : Nat → UInt32) : converted optarg stack = bytes := by
  rw [Opt.sixBytes] at h
  split at h
  · rename_i hsix
    rw [← Option.some.inj h, converted]
    generalize Scan.separated (Scan.hex 2) 0x3a 6 optarg = found at hsix
    rcases found with _ | ⟨a, _ | ⟨b, _ | ⟨c, _ | ⟨d, _ | ⟨e, _ | ⟨f, _ | ⟨g, more⟩⟩⟩⟩⟩⟩⟩
    case cons.cons.cons.cons.cons.cons.nil => rfl
    all_goals simp at hsix
  · cases h

/-- An accepted firmware file has been opened. -/
theorem parsePatchram_opens {optarg : List UInt8} {w t : World}
    (h : parsePatchram optarg w = (.ok 0, t)) :
    ∃ file later, w.opens = some file :: later ∧ t = w.chosen [.patchram optarg] := by
  rw [parsePatchram] at h
  cases hext : extension optarg with
  | none => simp [hext] at h
  | some p =>
      simp only [hext] at h
      by_cases hhcd : p.map Scan.toLower = hcd
      · rw [when_neg (not_not.mpr hhcd), pure_bind_apply] at h
        have hfails (hnone : w.opens.headD none = none) : False := by
          rw [bind_ok (openFile_none optarg hnone)] at h
          simp [configure, when_pos] at h
        rcases hopens : w.opens with _ | ⟨_ | ⟨fd, content⟩, later⟩
        · exact (hfails (by rw [hopens]; rfl)).elim
        · exact (hfails (by rw [hopens]; rfl)).elim
        · have hfile : w.opens.headD none = some (fd, content) := by rw [hopens]; rfl
          rw [bind_ok (openFile_some optarg hfile)] at h
          have hfd : ¬ (fd : Int) = -1 := by omega
          simp only [configure, modify_bind_apply, when_neg hfd, pure_bind_apply, pure_apply,
            Prod.mk.injEq, true_and] at h
          refine ⟨(fd, content), later, rfl, ?_⟩
          rw [← h]
          simp [World.chosen, World.afterOpen, chosen, opened, lastOf_singleton, hopens]
      · rw [when_pos hhcd, stop_bind_apply] at h
        cases h

theorem parsePatchram_chosen {optarg : List UInt8} {w t : World}
    (h : parsePatchram optarg w = (.ok 0, t)) : t = w.chosen [.patchram optarg] := by
  obtain ⟨_, _, _, hchosen⟩ := parsePatchram_opens h
  exact hchosen

theorem parseBaudrate_chosen (optarg : List UInt8) (w : World) :
    parseBaudrate optarg w = (.ok 0, w.chosen [.baudrate optarg]) := by
  rw [parseBaudrate]
  cases hfind : baudRates.find? fun entry => (entry.baudRate : Int) = Scan.atoi optarg with
  | none =>
      have hvalid : validateBaudrate (Scan.atoi optarg) = none := by
        rw [validateBaudrate, hfind, Option.map_none]
      simp only [hvalid]
      simp [World.chosen, chosen, opened, lastOf_singleton, hfind, List.filterMap_cons]
  | some entry =>
      have hvalid : validateBaudrate (Scan.atoi optarg) = some entry.termiosValue := by
        rw [validateBaudrate, hfind, Option.map_some]
      have hrate : (entry.baudRate : Int) = Scan.atoi optarg := by
        simpa using List.find?_some hfind
      have hencode := baudRates_encode entry (List.mem_of_find?_eq_some hfind)
      simp only [hvalid]
      rw [← hrate, Int.toNat_natCast]
      simp [configure, hencode, World.chosen, chosen, opened, lastOf_singleton, hfind]

theorem parseBdaddr_chosen {optarg bytes : List UInt8} (h : Opt.sixBytes optarg = some bytes)
    (w : World) : parseBdaddr optarg w = (.ok 0, w.chosen [.bdAddr optarg]) := by
  have hbytes := converted_six h w.stack
  rw [converted] at hbytes
  rw [parseBdaddr_apply, hbytes]
  simp [World.chosen, chosen, opened, lastOf_singleton, h]

theorem parseScopcm_chosen {optarg : List UInt8} {w t : World}
    (h : parseScopcm optarg w = (.ok 0, t)) : t = w.chosen [.scopcm optarg] := by
  rw [parseScopcm] at h
  split at h
  · simp at h
  · rename_i hten
    have hparams : Opt.params 10 optarg =
        some ((Scan.separated Scan.dec 0x2c 10 optarg).map UInt8.ofInt) :=
      if_pos (not_not.mp hten)
    simp only [configure, modify_bind_apply, pure_apply, Prod.mk.injEq, true_and] at h
    rw [← h]
    simp [World.chosen, chosen, opened, lastOf_singleton, hparams]

theorem parseI2s_chosen {optarg : List UInt8} {w t : World}
    (h : parseI2s optarg w = (.ok 0, t)) : t = w.chosen [.i2s optarg] := by
  rw [parseI2s] at h
  split at h
  · simp at h
  · rename_i hfour
    have hparams : Opt.params 4 optarg =
        some ((Scan.separated Scan.dec 0x2c 4 optarg).map UInt8.ofInt) :=
      if_pos (not_not.mp hfour)
    simp only [configure, modify_bind_apply, pure_apply, Prod.mk.injEq, true_and] at h
    rw [← h]
    simp [World.chosen, chosen, opened, lastOf_singleton, hparams]

theorem parseTosleep_chosen {optarg : List UInt8} {w t : World}
    (h : parseTosleep optarg w = (.ok 0, t)) : t = w.chosen [.tosleep optarg] := by
  rw [parseTosleep] at h
  by_cases hpositive : Scan.atoi optarg ≤ 0
  · simp [configure, hpositive] at h
  · have husec := Int.not_le.mp hpositive
    simp only [configure, modify_bind_apply, if_neg hpositive, pure_apply, Prod.mk.injEq,
      true_and] at h
    rw [← h]
    simp [World.chosen, chosen, opened, lastOf_singleton, husec]

/-- An accepted option does what it does as the only one. -/
theorem parse_chosen {option : Opt} (hconverts : option.Converts) {w t : World}
    (h : parse option w = (.ok 0, t)) : t = w.chosen [option] := by
  cases option with
  | patchram optarg => exact parsePatchram_chosen h
  | baudrate optarg => exact (congrArg Prod.snd ((parseBaudrate_chosen optarg w).symm.trans h)).symm
  | bdAddr optarg =>
      obtain ⟨bytes, hbytes⟩ := Option.isSome_iff_exists.mp hconverts
      exact (congrArg Prod.snd ((parseBdaddr_chosen hbytes w).symm.trans h)).symm
  | scopcm optarg => exact parseScopcm_chosen h
  | i2s optarg => exact parseI2s_chosen h
  | tosleep optarg => exact parseTosleep_chosen h
  | enableLpm | enableHci | useBaudrateForDownload | no2bytes | d | unknown =>
      obtain rfl := congrArg Prod.snd h
      simp [parse, parseEnableLpm, parseEnableHci, parseUseBaudrateForDownload, parseNo2bytes,
        configure, World.chosen, chosen, opened, lastOf_singleton, List.filterMap_cons]

/-! ### Lists of options -/

/-- What stands in front of the bytes that an option sets. -/
theorem take_getD {γ : Type} {n : Nat} {template : List UInt8} (hn : n ≤ template.length)
    (o : Option γ) (set : γ → List UInt8) :
    ((o.map fun c => template.take n ++ set c).getD template).take n = template.take n := by
  cases o with
  | none => rfl
  | some c => exact List.take_left' (by simpa using hn)

theorem opened_append (a b : List Opt) (opens : List (Option (Nat × List UInt8))) :
    opened (a ++ b) opens =
      (opened b (opens.drop (a.countP Opt.opensFile))).or (opened a opens) := by
  rw [opened, List.countP_append, List.take_add, lastOf_append]
  rfl

theorem chosen_append (a b : List Opt) (opens : List (Option (Nat × List UInt8))) {g : Globals}
    (h : Templates g) : chosen (a ++ b) opens g =
      chosen b (opens.drop (a.countP Opt.opensFile)) (chosen a opens g) := by
  have hrate := take_getD (n := 6) (by rw [h.updateBaudRate.length]; decide)
    (lastOf Opt.rate a) fun entry => LittleEndian.encode 4 entry.baudRate
  have haddress := take_getD (n := 4) (by rw [h.bdAddr.length]; decide)
    (lastOf Opt.address a) fun address => address
  have hsco := take_getD (n := 4) (by rw [h.scoPcmInt.length]; decide)
    (lastOf Opt.scoParams a) fun param => param.take 5
  have hformat := take_getD (n := 4) (by rw [h.pcmDataFormat.length]; decide)
    (lastOf Opt.scoParams a) fun param => param.drop 5
  have hi2s := take_getD (n := 4) (by rw [h.i2spcm.length]; decide)
    (lastOf Opt.i2sParams a) fun param => param
  simp only [chosen, opened_append, lastOf_append, Option.map_or, Option.getD_or, hrate, haddress,
    hsco, hformat, hi2s, List.mem_append, Bool.decide_or, Option.isSome_or, Bool.or_assoc,
    Bool.or_comm (lastOf _ b).isSome]

theorem length_fileNames (options : List Opt) :
    (options.filterMap Opt.fileName).length = options.countP Opt.opensFile := by
  have hopens : Opt.opensFile = fun option => option.fileName.isSome := by
    funext option
    cases option <;> rfl
  rw [List.length_filterMap_eq_countP, hopens]

theorem fileNames_filter (options : List Opt) : options.filterMap Opt.fileName =
    (options.filter fun option => option.kind = .patchram).filterMap Opt.fileName := by
  rw [List.filterMap_filter]
  refine List.filterMap_congr fun option _ => ?_
  cases option <;> rfl

/-- The names of some files and of those after them, with what each has been opened as. -/
theorem zip_fileNames (a b : List Opt) (opens : List (Option (Nat × List UInt8))) :
    ((a ++ b).filterMap Opt.fileName).zip opens =
      (a.filterMap Opt.fileName).zip opens ++
        (b.filterMap Opt.fileName).zip (opens.drop (a.countP Opt.opensFile)) := by
  rw [List.filterMap_append, ← length_fileNames]
  generalize a.filterMap Opt.fileName = names
  induction names generalizing opens with
  | nil => rfl
  | cons name names ih => cases opens <;> simp [ih]

theorem World.chosen_append (a b : List Opt) {w : World} (h : Templates w.config) :
    w.chosen (a ++ b) = (w.chosen a).chosen b := by
  simp only [World.chosen, Patchram.chosen_append a b _ h, opened_append, List.countP_append,
    Option.map_or, Option.getD_or, List.drop_drop, zip_fileNames, List.append_assoc]

theorem World.chosen_nil (w : World) : w.chosen [] = w := by
  simp [World.chosen, Patchram.chosen, opened]

/-- Accepted options come to one assignment. -/
theorem parseOptions_chosen {options : List Opt}
    (hconverts : ∀ option ∈ options, option.Converts)
    {w t : World} (htemplates : Templates w.config) (h : parseOptions options w = (.ok 0, t)) :
    t = w.chosen options := by
  induction options generalizing w with
  | nil =>
      rw [World.chosen_nil]
      exact (congrArg Prod.snd h).symm
  | cons option options ih =>
      rw [List.forall_mem_cons] at hconverts
      rcases hparse : parse option w with ⟨stop | ret, u⟩
      · rw [parseOptions, bind_error hparse] at h
        cases h
      · rw [parseOptions, bind_ok hparse] at h
        by_cases hret : ret = 0
        · subst hret
          obtain rfl := parse_chosen hconverts.1 hparse
          rw [← List.singleton_append, World.chosen_append _ _ htemplates]
          refine ih hconverts.2 ?_ h
          have hparsed := wp_end (parse_parsed option w)
          rw [hparse] at hparsed
          exact hparsed.keeps (fun _ _ => Templates.update) htemplates
        · rw [if_pos hret] at h
          exact absurd (congrArg Prod.fst h) (by simpa using hret)

/-! ### Command lines -/

/-- Each kind has the same options in the same order. -/
def SameByKind (a b : List Opt) : Prop :=
  ∀ k, (a.filter fun option => option.kind = k) = b.filter fun option => option.kind = k

/-- The last valid options of each kind say the same. -/
structure SameLast (opens : List (Option (Nat × List UInt8))) (a b : List Opt) : Prop where
  file : opened a opens = opened b opens
  rate : lastOf Opt.rate a = lastOf Opt.rate b
  address : lastOf Opt.address a = lastOf Opt.address b
  scoParams : lastOf Opt.scoParams a = lastOf Opt.scoParams b
  i2sParams : lastOf Opt.i2sParams a = lastOf Opt.i2sParams b
  usec : lastOf Opt.usec a = lastOf Opt.usec b
  flags : ∀ option ∈ [Opt.enableLpm, .enableHci, .useBaudrateForDownload, .no2bytes, .d],
    option ∈ a ↔ option ∈ b

theorem SameLast.chosen {opens : List (Option (Nat × List UInt8))} {a b : List Opt}
    (h : SameLast opens a b) (g : Globals) : chosen a opens g = chosen b opens g := by
  obtain ⟨hfile, hrate, haddress, hsco, hi2s, husec, hflags⟩ := h
  simp only [List.forall_mem_cons] at hflags
  simp only [Patchram.chosen, hfile, hrate, haddress, hsco, hi2s, husec, hflags]

theorem SameByKind.count {a b : List Opt} (h : SameByKind a b) :
    a.countP Opt.opensFile = b.countP Opt.opensFile := by
  have hkind : Opt.opensFile = fun option => decide (option.kind = .patchram) := by
    funext option
    cases option <;> rfl
  rw [hkind, List.countP_eq_length_filter, List.countP_eq_length_filter, h .patchram]

theorem SameByKind.sameLast {a b : List Opt} (h : SameByKind a b)
    (opens : List (Option (Nat × List UInt8))) : SameLast opens a b := by
  refine ⟨by rw [opened, opened, h.count], ?_, ?_, ?_, ?_, ?_,
    fun option _ => mem_iff_of_filter (h option.kind)⟩
  · refine lastOf_eq_of_filter (fun option hsome => ?_) (h .baudrate)
    cases option <;> first | rfl | exact absurd rfl hsome
  · refine lastOf_eq_of_filter (fun option hsome => ?_) (h .bdAddr)
    cases option <;> first | rfl | exact absurd rfl hsome
  · refine lastOf_eq_of_filter (fun option hsome => ?_) (h .scopcm)
    cases option <;> first | rfl | exact absurd rfl hsome
  · refine lastOf_eq_of_filter (fun option hsome => ?_) (h .i2s)
    cases option <;> first | rfl | exact absurd rfl hsome
  · refine lastOf_eq_of_filter (fun option hsome => ?_) (h .tosleep)
    cases option <;> first | rfl | exact absurd rfl hsome

theorem SameByKind.fileNames {a b : List Opt} (h : SameByKind a b) :
    a.filterMap Opt.fileName = b.filterMap Opt.fileName := by
  rw [fileNames_filter a, fileNames_filter b, h .patchram]

theorem SameByKind.world {a b : List Opt} (h : SameByKind a b) (w : World) :
    w.chosen a = w.chosen b := by
  simp only [World.chosen, (h.sameLast w.opens).chosen, (h.sameLast w.opens).file, h.count,
    h.fileNames]

/-- Where the name decides what `open` gives, it is the last name that does. -/
theorem opened_last {options : List Opt} {opens : List (Option (Nat × List UInt8))}
    {files : List UInt8 → Option (Nat × List UInt8)}
    (h : opens.take (options.countP Opt.opensFile) = (options.filterMap Opt.fileName).map files) :
    opened options opens = lastOf (fun option => option.fileName.bind files) options := by
  rw [opened, h, lastOf, lastOf, List.filterMap_map, List.filterMap_filterMap]
  rfl

theorem readDefaultBdaddr_templates {w : World} (hconfig : w.config = {}) :
    Templates (readDefaultBdaddr w).2.config :=
  (wp_end (readDefaultBdaddr_parsed w)).keeps (fun _ _ => Templates.update)
    (hconfig ▸ templates_default)

/-- A default file that holds an address sets it. -/
theorem readDefaultBdaddr_address {w : World} (hconfig : w.config = {}) (file : DefaultFile)
    {t : Address.Text} (ht : IsAddress file.content t) :
    (readDefaultBdaddr (file.provide w)).2.config.hciWriteBdAddr =
        [0x01, 0x01, 0xfc, 0x06] ++ t.address.b.toList ∧
      (readDefaultBdaddr (file.provide w)).2.config.bdaddrFlag = true := by
  rw [readDefaultBdaddr_provide, (parseBdaddr_isAddress ht w).taken t ht |>.1, hconfig]
  exact ⟨rfl, ((parseBdaddr_isAddress ht w).taken t ht).2⟩

/-- After any default address, accepted options whose addresses are well formed set the globals
from the last valid option of each kind. Two command lines that agree on these agree on the
globals and on the file, which is the one named last where `open` goes by the names; and with
the same options of each kind, however interleaved, the program runs alike. Without a
`--bd_addr` the address stays the one of the default file. -/
theorem main_lastWins {w : World} (hconfig : w.config = {}) {options options' : List Opt}
    (port : Option (List UInt8)) (hformed : ∀ option ∈ options, option.Formed)
    (hformed' : ∀ option ∈ options', option.Formed)
    (haccepted : (parseOptions options (readDefaultBdaddr w).2).1 = .ok 0)
    (haccepted' : (parseOptions options' (readDefaultBdaddr w).2).1 = .ok 0) :
    parseOptions options (readDefaultBdaddr w).2 =
        (.ok 0, (readDefaultBdaddr w).2.chosen options) ∧
      (SameLast (readDefaultBdaddr w).2.opens options options' →
        (parseOptions options (readDefaultBdaddr w).2).2.config =
            (parseOptions options' (readDefaultBdaddr w).2).2.config ∧
          (parseOptions options (readDefaultBdaddr w).2).2.file =
            (parseOptions options' (readDefaultBdaddr w).2).2.file) ∧
      (SameByKind options options' → main options port w = main options' port w) ∧
      (∀ files, (readDefaultBdaddr w).2.opens.take (options.countP Opt.opensFile) =
          (options.filterMap Opt.fileName).map files →
        opened options (readDefaultBdaddr w).2.opens =
          lastOf (fun option => option.fileName.bind files) options) ∧
      ∀ (file : DefaultFile) (v : World) (t : Address.Text), w = file.provide v →
        IsAddress file.content t →
          (readDefaultBdaddr w).2.config.hciWriteBdAddr =
              [0x01, 0x01, 0xfc, 0x06] ++ t.address.b.toList ∧
            (readDefaultBdaddr w).2.config.bdaddrFlag = true := by
  have hall {options : List Opt} (hformed : ∀ option ∈ options, option.Formed)
      (haccepted : (parseOptions options (readDefaultBdaddr w).2).1 = .ok 0) :
      parseOptions options (readDefaultBdaddr w).2 =
        (.ok 0, (readDefaultBdaddr w).2.chosen options) := by
    have hrun : parseOptions options (readDefaultBdaddr w).2 = (.ok 0, _) :=
      Prod.ext haccepted rfl
    have hconverts : ∀ option ∈ options, option.Converts := fun option ho =>
      (hformed option ho).converts
    rw [hrun, parseOptions_chosen hconverts (readDefaultBdaddr_templates hconfig) hrun]
  have hrun := hall hformed haccepted
  have hrun' := hall hformed' haccepted'
  refine ⟨hrun, fun hlast => ?_, fun hkinds => ?_, fun files => opened_last, ?_⟩
  · rw [hrun, hrun']
    simp only [World.chosen, hlast.chosen, hlast.file, and_self]
  · rcases hdefault : readDefaultBdaddr w with ⟨stop | ⟨⟩, u⟩
    · rw [main, main, bind_error hdefault, bind_error hdefault]
    · rw [hdefault] at hrun hrun'
      rw [main, main, bind_ok hdefault, bind_ok hdefault]
      refine bind_congr ?_
      rw [parseCmdLine, parseCmdLine, bind_ok hrun, bind_ok hrun', hkinds.world]
  · rintro file v t rfl ht
    have hv : v.config = {} := hconfig
    exact readDefaultBdaddr_address hv file ht

/-- Two addresses of which the second counts, a file and a flag. -/
def interleaved : List Opt :=
  [.bdAddr (Address.Text.ofBdaddr ⟨#v[1, 2, 3, 4, 5, 6]⟩).string,
   .patchram [0x61, 0x2e, 0x68, 0x63, 0x64],
   .bdAddr (Address.Text.ofBdaddr ⟨#v[6, 5, 4, 3, 2, 1]⟩).string, .enableLpm]

/-- The same with the flag and the file in front. -/
def reordered : List Opt :=
  [.enableLpm, .patchram [0x61, 0x2e, 0x68, 0x63, 0x64],
   .bdAddr (Address.Text.ofBdaddr ⟨#v[1, 2, 3, 4, 5, 6]⟩).string,
   .bdAddr (Address.Text.ofBdaddr ⟨#v[6, 5, 4, 3, 2, 1]⟩).string]

/-- A firmware file without records, and the port. -/
def twoFiles : World :=
  { World.start {} [] [] with opens := [some (5, []), some (3, [])] }

theorem main_lastWins_reordered :
    main interleaved (some portName) twoFiles = main reordered (some portName) twoFiles := by
  have hfirst := isAddress_string (Address.Text.ofBdaddr ⟨#v[1, 2, 3, 4, 5, 6]⟩)
  have hsecond := isAddress_string (Address.Text.ofBdaddr ⟨#v[6, 5, 4, 3, 2, 1]⟩)
  refine (main_lastWins rfl (some portName) ?_ ?_ (by decide) (by decide)).2.2.1 ?_
  · simp [interleaved, Opt.Formed, Exists.intro _ hfirst, Exists.intro _ hsecond]
  · simp [reordered, Opt.Formed, Exists.intro _ hfirst, Exists.intro _ hsecond]
  · intro k
    cases k <;> rfl

end Patchram
