import Mathlib.Tactic.IntervalCases
import SystemBluetooth.Library.Getopt
import SystemBluetooth.Patchram.Choice

/-!
# From the arguments to the options

`main` from the arguments of the program on: the table of long options and the short option
`d`, with the parser behind each. What a command line does depends on the options it says and
on the port it names, not on how they are written or where they stand; and what is not
an option of the program is left out.
-/

namespace Patchram

open Effect Getopt

open Scan (ascii)

/-- `long_options`, and `"d"`. -/
def longOptions : Table where
  long :=
    [⟨ascii "patchram", true⟩, ⟨ascii "baudrate", true⟩, ⟨ascii "bd_addr", true⟩,
     ⟨ascii "enable_lpm", false⟩, ⟨ascii "enable_hci", false⟩,
     ⟨ascii "use_baudrate_for_download", false⟩, ⟨ascii "scopcm", true⟩, ⟨ascii "i2s", true⟩,
     ⟨ascii "no2bytes", false⟩, ⟨ascii "tosleep", true⟩]
  short c := c == 0x64
  distinct := by decide
  plain := by decide

/-- The parser that is called for what `getopt_long_only` returns, with its argument. -/
def option : Item → Opt
  | .long 0 optarg => .patchram (optarg.getD [])
  | .long 1 optarg => .baudrate (optarg.getD [])
  | .long 2 optarg => .bdAddr (optarg.getD [])
  | .long 3 _ => .enableLpm
  | .long 4 _ => .enableHci
  | .long 5 _ => .useBaudrateForDownload
  | .long 6 optarg => .scopcm (optarg.getD [])
  | .long 7 optarg => .i2s (optarg.getD [])
  | .long 8 _ => .no2bytes
  | .long 9 optarg => .tosleep (optarg.getD [])
  | .short _ => .d
  | _ => .unknown

/-- The options of a command line, and its operands. -/
def splitArgv (words : List Word) : List Opt × List Word :=
  let (items, operands) := getoptLongOnly longOptions words
  (items.map option, operands)

/-- `main(argc, argv)`. The first operand is the port, the others are not looked at. -/
def mainArgv (argv : List Word) : Host Unit :=
  let (options, operands) := splitArgv argv.tail
  main options operands.head?

/-! ### Correct command lines -/

/-- An option of the program is never taken for a mistake. -/
theorem option_known {words : List Word} {items : List Item} {operands : List Word}
    (h : Spelled longOptions words items operands) : .unknown ∉ items.map option := by
  have inTable {name : Word} {i : Nat} {optarg : Option Word}
      (habbreviates : longOptions.Abbreviates name i) :
      Opt.unknown ≠ option (.long i optarg) := by
    obtain ⟨o, ho, -⟩ := habbreviates
    have hlt : i < 10 := (List.getElem?_eq_some_iff.mp ho).1
    interval_cases i <;> simp [option]
  induction h with
  | nil => simp
  | terminator => simp
  | operand _ _ ih => exact ih
  | shorts _ _ _ _ ih =>
      rw [List.map_append, List.mem_append, not_or]
      exact ⟨by simp [option], ih⟩
  | flag abbreviates _ _ _ ih => exact List.not_mem_cons_of_ne_of_not_mem (inTable abbreviates) ih
  | attached abbreviates _ _ _ ih =>
      exact List.not_mem_cons_of_ne_of_not_mem (inTable abbreviates) ih
  | separate abbreviates _ _ _ ih =>
      exact List.not_mem_cons_of_ne_of_not_mem (inTable abbreviates) ih

theorem splitArgv_spelled {words : List Word} {items : List Item} {operands : List Word}
    (h : Spelled longOptions words items operands) :
    splitArgv words = (items.map option, operands) := by
  rw [splitArgv, h.scanned.1]

/-- No mistake is found in a command line if and only if it is correct: a sequence of operands,
of flags after a dash, and of options whose names can be told from the others by what is
written of them, each with an argument exactly if it has one. -/
theorem splitArgv_iff (words : List Word) (options : List Opt) (operands : List Word) :
    (splitArgv words = (options, operands) ∧ .unknown ∉ options) ↔
      ∃ items, Spelled longOptions words items operands ∧ options = items.map option := by
  constructor
  · rintro ⟨hline, hknown⟩
    rw [splitArgv, Prod.mk.injEq] at hline
    obtain ⟨rfl, rfl⟩ := hline
    refine ⟨_, spelled_iff.mpr ⟨rfl, fun hmem => hknown ?_⟩, rfl⟩
    exact List.mem_map_of_mem hmem
  · rintro ⟨items, hspelled, rfl⟩
    exact ⟨splitArgv_spelled hspelled, option_known hspelled⟩

/-! ### Documented command lines -/

/-- An option as the header of the program writes it. -/
def Opt.words : Opt → List Word
  | .patchram optarg => [ascii "--patchram", optarg]
  | .baudrate optarg => [ascii "--baudrate", optarg]
  | .bdAddr optarg => [ascii "--bd_addr", optarg]
  | .enableLpm => [ascii "--enable_lpm"]
  | .enableHci => [ascii "--enable_hci"]
  | .useBaudrateForDownload => [ascii "--use_baudrate_for_download"]
  | .scopcm optarg => [ascii "--scopcm=" ++ optarg]
  | .i2s optarg => [ascii "--i2s=" ++ optarg]
  | .no2bytes => [ascii "--no2bytes"]
  | .tosleep optarg => [ascii "--tosleep=" ++ optarg]
  | .d => [ascii "-d"]
  | .unknown => []

variable {words : List Word} {items : List Item} {operands : List Word}

/-- One more documented option in front of a correct command line. -/
theorem Opt.words_spelled {o : Opt} (ho : o ≠ .unknown)
    (h : Spelled longOptions words items operands) :
    ∃ item, option item = o ∧ Spelled longOptions (o.words ++ words) (item :: items) operands := by
  cases o with
  | patchram optarg => exact ⟨_, rfl, h.full_separate (i := 0) rfl (by decide) optarg⟩
  | baudrate optarg => exact ⟨_, rfl, h.full_separate (i := 1) rfl (by decide) optarg⟩
  | bdAddr optarg => exact ⟨_, rfl, h.full_separate (i := 2) rfl (by decide) optarg⟩
  | enableLpm => exact ⟨_, rfl, h.full_flag (i := 3) rfl (by decide)⟩
  | enableHci => exact ⟨_, rfl, h.full_flag (i := 4) rfl (by decide)⟩
  | useBaudrateForDownload => exact ⟨_, rfl, h.full_flag (i := 5) rfl (by decide)⟩
  | scopcm optarg =>
      have ho : longOptions.long[6]? = some ⟨ascii "scopcm", true⟩ := rfl
      exact ⟨_, rfl, h.full_attached ho optarg⟩
  | i2s optarg =>
      have ho : longOptions.long[7]? = some ⟨ascii "i2s", true⟩ := rfl
      exact ⟨_, rfl, h.full_attached ho optarg⟩
  | no2bytes => exact ⟨_, rfl, h.full_flag (i := 8) rfl (by decide)⟩
  | tosleep optarg =>
      have ho : longOptions.long[9]? = some ⟨ascii "tosleep", true⟩ := rfl
      exact ⟨_, rfl, h.full_attached ho optarg⟩
  | d => exact ⟨.short 0x64, rfl,
      .shorts (by decide) (List.forall_mem_singleton.mpr rfl) (.inl rfl) h⟩
  | unknown => exact absurd rfl ho

theorem spelled_documented {options : List Opt} (hknown : .unknown ∉ options)
    (h : Spelled longOptions words items operands) :
    ∃ more, more.map option = options ∧
      Spelled longOptions (options.flatMap Opt.words ++ words) (more ++ items) operands := by
  induction options with
  | nil => exact ⟨[], rfl, h⟩
  | cons o options ih =>
      rw [List.mem_cons, not_or] at hknown
      obtain ⟨more, hmore, hrest⟩ := ih hknown.2
      obtain ⟨item, hitem, hfirst⟩ := Opt.words_spelled (Ne.symm hknown.1) hrest
      refine ⟨item :: more, by rw [List.map_cons, hitem, hmore], ?_⟩
      rwa [List.flatMap_cons, List.append_assoc]

/-- A command line as it is documented does what its options say, in whatever order they are
given and wherever the port stands among them. -/
theorem mainArgv_documented (program port : Word) (before after : List Opt)
    (hbefore : .unknown ∉ before) (hafter : .unknown ∉ after) (hport : Operand port) :
    mainArgv (program :: before.flatMap Opt.words ++ port :: after.flatMap Opt.words) =
      main (before ++ after) (some port) := by
  obtain ⟨last, hlast, hend⟩ := spelled_documented hafter .nil
  obtain ⟨first, hfirst, hline⟩ := spelled_documented hbefore (.operand hport hend)
  rw [List.append_nil] at hline hend
  rw [mainArgv, List.cons_append, List.tail_cons, splitArgv_spelled hline, List.append_nil,
    List.map_append, hfirst, hlast]
  rfl

/-- The example in the header of the program. -/
theorem mainArgv_documented_header :
    mainArgv [ascii "brcm_patchram_plus", ascii "-d", ascii "--patchram",
      ascii "BCM2045B2_002.002.011.0348.0349.hcd", ascii "/dev/ttyHS0"] =
    main [.d, .patchram (ascii "BCM2045B2_002.002.011.0348.0349.hcd")]
      (some (ascii "/dev/ttyHS0")) :=
  mainArgv_documented (ascii "brcm_patchram_plus") (ascii "/dev/ttyHS0")
    [.d, .patchram (ascii "BCM2045B2_002.002.011.0348.0349.hcd")] [] (by decide) (by decide)
    (.inl (by decide))

/-! ### What a command line depends on -/

/-- What a parser asks of its argument. -/
def Opt.Acceptable : Opt → Prop
  | patchram optarg => ∃ p, extension optarg = some p ∧ p.map Scan.toLower = hcd
  | scopcm optarg => (params 10 optarg).isSome
  | i2s optarg => (params 4 optarg).isSome
  | tosleep optarg => 0 < Scan.atoi optarg
  | _ => True

/-- The next `n` files can be opened. -/
def Opens (n : Nat) (opens : List (Option (Nat × List UInt8))) : Prop :=
  ∀ i < n, ∃ file, opens[i]? = some (some file)

theorem opens_none {opens : List (Option (Nat × List UInt8))} : Opens 0 opens :=
  fun i hi => absurd hi (Nat.not_lt_zero i)

theorem parsePatchram_accepted {optarg : List UInt8} {w : World}
    (h : (Opt.patchram optarg).Acceptable) {file : Nat × List UInt8}
    {later : List (Option (Nat × List UInt8))} (hopens : w.opens = some file :: later) :
    (parsePatchram optarg w).1 = .ok 0 := by
  obtain ⟨p, hext, hhcd⟩ := h
  have hfd : ¬ (file.1 : Int) = -1 := by omega
  simp only [parsePatchram, hext]
  have hfile : w.opens.headD none = some file := by rw [hopens]; rfl
  rw [when_neg (not_not.mpr hhcd), pure_bind_apply, bind_ok (openFile_some optarg hfile)]
  simp [configure, when_neg hfd]

theorem parsePatchram_acceptable {optarg : List UInt8} {w : World}
    (h : (parsePatchram optarg w).1 = .ok 0) : (Opt.patchram optarg).Acceptable := by
  rw [parsePatchram] at h
  cases hext : extension optarg with
  | none => simp [hext] at h
  | some p =>
      refine ⟨p, hext, ?_⟩
      by_contra hhcd
      simp [hext, when_pos hhcd] at h

/-- An option is accepted if its argument is acceptable and its file can be opened, and it uses
up the file. -/
theorem parse_accepted (o : Opt) (w : World) :
    ((parse o w).1 = .ok 0 ↔ o.Acceptable ∧ Opens (if o.opensFile then 1 else 0) w.opens) ∧
      ((parse o w).1 = .ok 0 →
        (parse o w).2.opens = w.opens.drop (if o.opensFile then 1 else 0)) := by
  cases o with
  | patchram optarg =>
      refine ⟨⟨fun h => ⟨parsePatchram_acceptable h, fun i hi => ?_⟩, fun h => ?_⟩, fun h => ?_⟩
      · obtain ⟨file, later, hopens, -⟩ := parsePatchram_opens (Prod.ext h rfl)
        obtain rfl : i = 0 := by simpa using hi
        exact ⟨file, by rw [hopens]; rfl⟩
      · obtain ⟨file, hfile⟩ := h.2 0 Nat.one_pos
        rcases hopens : w.opens with _ | ⟨first, later⟩
        · simp [hopens] at hfile
        · obtain rfl : first = some file := by simpa [hopens] using hfile
          exact parsePatchram_accepted h.1 hopens
      · obtain ⟨file, later, hopens, ht⟩ := parsePatchram_opens (Prod.ext h rfl)
        rw [show (parse (.patchram optarg) w).2 = _ from ht]
        rfl
  | baudrate optarg =>
      have hrun := parseBaudrate_chosen optarg w
      refine ⟨⟨fun _ => ⟨trivial, opens_none⟩, fun _ => ?_⟩, fun _ => ?_⟩
      · exact congrArg Prod.fst hrun
      · rw [parse, hrun]
        rfl
  | scopcm optarg =>
      simp only [parse, parseScopcm, Opt.Acceptable, Opt.params]
      split <;> simp_all [configure, Opens]
  | i2s optarg =>
      simp only [parse, parseI2s, Opt.Acceptable, Opt.params]
      split <;> simp_all [configure, Opens]
  | tosleep optarg =>
      simp only [parse, parseTosleep, Opt.Acceptable]
      by_cases hle : Scan.atoi optarg ≤ 0
      · simp [configure, hle, Opens]
      · simp [configure, hle, Int.not_le.mp hle, Opens]
  | bdAddr optarg =>
      exact ⟨⟨fun _ => ⟨trivial, opens_none⟩, fun _ => rfl⟩, fun _ => rfl⟩
  | enableLpm | enableHci | useBaudrateForDownload | no2bytes | d | unknown =>
      exact ⟨⟨fun _ => ⟨trivial, opens_none⟩, fun _ => rfl⟩, fun _ => rfl⟩

theorem Opens.drop {m n : Nat} {opens : List (Option (Nat × List UInt8))} :
    Opens (m + n) opens ↔ Opens m opens ∧ Opens n (opens.drop m) := by
  constructor
  · refine fun h => ⟨fun i hi => h i (by omega), fun i hi => ?_⟩
    rw [List.getElem?_drop]
    exact h (m + i) (by omega)
  · rintro ⟨hfirst, hrest⟩ i hi
    by_cases hlt : i < m
    · exact hfirst i hlt
    · have h := hrest (i - m) (by omega)
      rwa [List.getElem?_drop, Nat.add_sub_cancel' (by omega)] at h

/-- The options are accepted if each is, and there are as many files as they need. -/
theorem parseOptions_accepted (options : List Opt) (w : World) :
    (parseOptions options w).1 = .ok 0 ↔
      (∀ o ∈ options, o.Acceptable) ∧ Opens (options.countP Opt.opensFile) w.opens := by
  induction options generalizing w with
  | nil => simp [parseOptions, Opens]
  | cons o options ih =>
      obtain ⟨hiff, hopens⟩ := parse_accepted o w
      rw [List.forall_mem_cons, List.countP_cons, Nat.add_comm, Opens.drop]
      rcases hparse : parse o w with ⟨stop | ret, t⟩
      · rw [hparse] at hiff
        rw [parseOptions, bind_error hparse]
        simp only [reduceCtorEq, false_iff] at hiff ⊢
        exact fun h => hiff ⟨h.1.1, h.2.1⟩
      rw [hparse] at hiff hopens
      rw [parseOptions, bind_ok hparse]
      by_cases hret : ret = 0
      · subst hret
        rw [if_neg (by simp), ih t, hopens rfl]
        have := hiff.mp rfl
        tauto
      · rw [if_pos hret]
        simp only [pure_apply, Except.ok.injEq, hret, false_iff] at hiff ⊢
        exact fun h => hiff ⟨h.1.1, h.2.1⟩

theorem SameByKind.accepted {a b : List Opt} (h : SameByKind a b) {w : World}
    (ha : (parseOptions a w).1 = .ok 0) : (parseOptions b w).1 = .ok 0 := by
  rw [parseOptions_accepted] at ha ⊢
  refine ⟨fun o ho => ha.1 o ((mem_iff_of_filter (h o.kind)).mpr ho), ?_⟩
  rw [← h.count]
  exact ha.2

/-- With the same options of each kind, however interleaved, the program runs alike. -/
theorem SameByKind.main {a b : List Opt} (h : SameByKind a b) {w : World}
    (hconfig : w.config = {}) (hformed : ∀ o ∈ a, o.Formed)
    (haccepted : (parseOptions a (readDefaultBdaddr w).2).1 = .ok 0) (port : Option (List UInt8)) :
    Patchram.main a port w = Patchram.main b port w := by
  have chosen {options : List Opt} (hformed : ∀ o ∈ options, o.Formed)
      (haccepted : (parseOptions options (readDefaultBdaddr w).2).1 = .ok 0) :
      parseOptions options (readDefaultBdaddr w).2 =
        (.ok 0, (readDefaultBdaddr w).2.chosen options) := by
    have hrun : parseOptions options (readDefaultBdaddr w).2 = (.ok 0, _) :=
      Prod.ext haccepted rfl
    rw [hrun, parseOptions_chosen (fun o ho => (hformed o ho).converts)
      (readDefaultBdaddr_templates hconfig) hrun]
  have ha := chosen hformed haccepted
  have hb := chosen (fun o ho => hformed o ((mem_iff_of_filter (h o.kind)).mpr ho))
    (h.accepted haccepted)
  rcases hdefault : readDefaultBdaddr w with ⟨stop | ⟨⟩, u⟩
  · rw [Patchram.main, Patchram.main, bind_error hdefault, bind_error hdefault]
  · rw [hdefault] at ha hb
    rw [Patchram.main, Patchram.main, bind_ok hdefault, bind_ok hdefault]
    refine bind_congr ?_
    rw [parseCmdLine, parseCmdLine, bind_ok ha, bind_ok hb, h.world]

/-! ### Mistakes -/

/-- The options of a command line without the mistakes. -/
def said (words : List Word) : List Opt := (splitArgv words).1.filter (· ≠ .unknown)

theorem parseOptions_said (options : List Opt) :
    parseOptions (options.filter (· ≠ .unknown)) = parseOptions options := by
  induction options with
  | nil => rfl
  | cons o options ih =>
      by_cases ho : o = .unknown
      · rw [List.filter_cons_of_neg (by simpa using ho), ih, ho]
        rfl
      · rw [List.filter_cons_of_pos (by simpa using ho), parseOptions, parseOptions, ih]

theorem main_said (words : List Word) (port : Option (List UInt8)) :
    main (said words) port = main (splitArgv words).1 port := by
  rw [main, main, parseCmdLine, parseCmdLine, said, parseOptions_said]

/-- What the program does depends on the options it is given of each kind, in their order, and
on the port it is given. The spelling of the options, the order of the kinds, mistakes,
the places of the operands, and operands behind the port make no difference. -/
theorem mainArgv_agree {w : World} (hconfig : w.config = {}) {argv argv' : List Word}
    (hformed : ∀ o ∈ said argv.tail, o.Formed)
    (haccepted : (parseOptions (said argv.tail) (readDefaultBdaddr w).2).1 = .ok 0)
    (hkinds : SameByKind (said argv.tail) (said argv'.tail))
    (hport : (splitArgv argv.tail).2.head? = (splitArgv argv'.tail).2.head?) :
    mainArgv argv w = mainArgv argv' w := by
  have h := hkinds.main hconfig hformed haccepted (splitArgv argv.tail).2.head?
  rw [main_said, main_said] at h
  rw [mainArgv, mainArgv]
  dsimp only
  rw [h, hport]

def tidyLine : List Word :=
  [ascii "brcm_patchram_plus", ascii "--patchram", ascii "a.hcd", ascii "--enable_lpm",
   ascii "/dev/ttyHS0"]

/-- The same in another order and abbreviated, with a mistake and a spare operand. -/
def untidyLine : List Word :=
  [ascii "brcm_patchram_plus", ascii "/dev/ttyHS0", ascii "-enable_l", ascii "--enable_lmp",
   ascii "-p=a.hcd", ascii "spare"]

theorem mainArgv_agree_untidy : mainArgv tidyLine twoFiles = mainArgv untidyLine twoFiles := by
  refine mainArgv_agree rfl ?_ (by decide +kernel) ?_ (by decide +kernel)
  · rw [show said tidyLine.tail = [.patchram (ascii "a.hcd"), .enableLpm] by decide +kernel]
    simp [Opt.Formed]
  · intro k
    cases k <;> decide +kernel

end Patchram
