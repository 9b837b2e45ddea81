import SystemBluetooth.Patchram.Dialogue

/-!
# The firmware download

An HCD file is a concatenation of records, each of them a block. The loop of
`proc_patchram` reads a record into the buffer behind a packet indicator and sends it,
and then an event overwrites the buffer; so the invariant of the loop says nothing about
the buffer and everything about how far the file and the stream have been read.
-/

namespace Patchram

open Effect Arrivals

/-- A record of the file as a command: the packet indicator and the record. -/
def commandOf (record : Block) : List UInt8 := 0x01 :: record.encode

/-- The commands of a download: the minidriver command is sent before these. -/
def downloadFrames (records : List Block) : List (List UInt8) :=
  records.map commandOf ++ [hciReset]

/-! ### Moving a record through the buffer -/

theorem readFile_ordinary {w : World} (hw : Ordinary w) (i len : Int) :
    readFile i len w = (.ok (w.file.take len.toNat).length,
      { w with
        file := w.file.drop len.toNat
        buffer := Memory.store w.buffer i (w.file.take len.toNat)
        io := w.io ++ [.readFile i len (.bytes (w.file.take len.toNat))] }) := by
  have htail : w.fileReads.tail = w.fileReads := by rw [hw.fileReads, List.tail_nil]
  have hanswer : fileAnswer w.fileReads w.file len.toNat =
      (.bytes (w.file.take len.toNat), w.file.drop len.toNat) := by
    simp [fileAnswer, hw.fileReads]
  rw [readFile, sys_quiet hw.signals, get_bind_apply]
  simp only [hanswer]
  rw [modify_bind_apply, htail]
  rfl

/-- Header, indicator and data stored one after the other are the command. -/
theorem slice_command (b : Int → UInt8) (record : Block) :
    Memory.slice
        (Memory.store
          (Memory.store (Memory.store b 1 [record.first, record.second, record.size]) 0 [0x01])
          4 record.payload)
        0 (record.payload.length + 4) = commandOf record := by
  let header := Memory.store b 1 [record.first, record.second, record.size]
  let front := Memory.store header 0 [0x01]
  have hdata : Memory.slice (Memory.store front 4 record.payload) 4 record.payload.length =
      record.payload := Memory.slice_store rfl
  have hfront : Memory.slice (Memory.store front 4 record.payload) 0 4 =
      Memory.slice front 0 4 := Memory.slice_store_of_disjoint (Or.inl (by omega))
  have hsplit : Memory.slice front 0 4 = Memory.slice front 0 1 ++ Memory.slice front 1 3 :=
    Memory.slice_add front 0 1 3
  have hone : Memory.slice front 0 1 = [0x01] := Memory.slice_store rfl
  have hthree : Memory.slice front 1 3 = Memory.slice header 1 3 :=
    Memory.slice_store_of_disjoint (Or.inr (by simp))
  have hheader : Memory.slice header 1 3 = [record.first, record.second, record.size] :=
    Memory.slice_store rfl
  calc Memory.slice (Memory.store front 4 record.payload) 0 (record.payload.length + 4)
      = Memory.slice (Memory.store front 4 record.payload) 0 4 ++
          Memory.slice (Memory.store front 4 record.payload) 4 record.payload.length := by
        rw [Nat.add_comm]
        exact Memory.slice_add _ 0 4 _
    _ = commandOf record := by
        rw [hdata, hfront, hsplit, hone, hthree, hheader]
        rfl

/-- The length byte is read back from where the header was stored. -/
theorem size_in_buffer (b : Int → UInt8) (first second size : UInt8) :
    Memory.store (Memory.store b 1 [first, second, size]) 0 [0x01] 3 = size := by
  rw [Memory.store_above (by simp)]
  exact Memory.store_inside b 1 [first, second, size] (k := 2) (by simp)

/-- What the loop has done to the program when it calls `hci_send_cmd`. -/
def loaded (w : World) (record : Block) (rest : List UInt8) : World :=
  { w with
    file := rest
    buffer := Memory.store
      (Memory.store (Memory.store w.buffer 1 [record.first, record.second, record.size]) 0 [0x01])
      4 record.payload
    io := w.io ++ [.readFile 1 3 (.bytes [record.first, record.second, record.size]),
      .readFile 4 record.payload.length (.bytes record.payload)] }

theorem After.loaded {w : World} (hw : Ordinary w) (record : Block) (rest : List UInt8) :
    After [] w (loaded w record rest) :=
  ⟨⟨hw.signals, hw.fileReads, hw.writes, hw.positive⟩, rfl, by simp [Patchram.loaded],
    ⟨_, rfl, .silent trivial (.silent trivial .nil)⟩, by simp [Patchram.loaded]⟩

/-- One turn of the loop on a file that begins with a record. -/
theorem downloadLoop_record {w : World} (hw : Ordinary w) (fuel : Nat) (record : Block)
    {rest : List UInt8} (hfile : w.file = record.encode ++ rest) :
    downloadLoop (fuel + 1) w =
      (exchange (commandOf record) >>= fun _ => downloadLoop fuel) (loaded w record rest) := by
  have htake : w.file.take 3 = [record.first, record.second, record.size] := by
    rw [hfile]
    rfl
  have hdrop : w.file.drop 3 = record.payload ++ rest := by
    rw [hfile]
    rfl
  have hheader := readFile_ordinary hw 1 3
  rw [show (3 : Int).toNat = 3 from rfl, htake, hdrop] at hheader
  let v : World :=
    { w with
      file := record.payload ++ rest
      buffer :=
        Memory.store (Memory.store w.buffer 1 [record.first, record.second, record.size]) 0 [0x01]
      io := w.io ++ [.readFile 1 3 (.bytes [record.first, record.second, record.size])] }
  have hv : Ordinary v := ⟨hw.signals, hw.fileReads, hw.writes, hw.positive⟩
  have hdata := readFile_ordinary hv 4 record.payload.length
  rw [show v.file = record.payload ++ rest from rfl, Int.toNat_natCast, List.take_left,
    List.drop_left] at hdata
  have hsize : (v.buffer 3).toNat = record.payload.length := by
    rw [← Block.toNat_size]
    exact congrArg _ (size_in_buffer w.buffer record.first record.second record.size)
  rw [downloadLoop, bind_ok hheader, when_pos (by simp), modify_bind_apply, gets_bind_apply]
  change (readFile 4 ((v.buffer 3).toNat : Int) >>= _) v = _
  rw [hsize, bind_ok hdata, gets_bind_apply]
  simp only [v, slice_command]
  simp [loaded]

/-- The loop leaves at the end of the file. -/
theorem downloadLoop_end {w : World} (hw : Ordinary w) (fuel : Nat) (hfile : w.file = []) :
    ∃ t, downloadLoop (fuel + 1) w = (.ok (), t) ∧ After [] w t := by
  have hheader := readFile_ordinary hw 1 3
  rw [hfile, List.take_nil, List.drop_nil] at hheader
  have hafter : After [] w
      { w with
        file := []
        buffer := Memory.store w.buffer 1 []
        io := w.io ++ [.readFile 1 3 (.bytes [])] } :=
    ⟨⟨hw.signals, hw.fileReads, hw.writes, hw.positive⟩, rfl, by simp,
      ⟨_, rfl, .silent trivial .nil⟩, by simp⟩
  refine ⟨_, ?_, hafter⟩
  rw [downloadLoop, bind_ok hheader]
  rfl

theorem downloadLoop_converses {w : World} (hw : Ordinary w) (records : List Block)
    (hfile : w.file = records.flatMap Block.encode) {fuel : Nat}
    (hfuel : records.length < fuel) (next : Host Unit) (fs : List (List UInt8))
    (hnext : ∀ t, Ordinary t → t.config = w.config →
      Converses next t (answers fs (stream t.uart)).1 (answers fs (stream t.uart)).2) :
    Converses (downloadLoop fuel >>= fun _ => next) w
      (answers (records.map commandOf ++ fs) (stream w.uart)).1
      (answers (records.map commandOf ++ fs) (stream w.uart)).2 := by
  induction records generalizing w fuel with
  | nil =>
      obtain ⟨fuel, rfl⟩ : ∃ k, fuel = k + 1 := ⟨fuel - 1, by simp at hfuel; omega⟩
      obtain ⟨t, hend, hafter⟩ := downloadLoop_end hw fuel hfile
      have htail := hnext t hafter.ordinary hafter.config
      rw [show stream t.uart = stream w.uart from hafter.stream.symm] at htail
      exact Converses.after (bind_ok hend) hafter htail
  | cons record records ih =>
      obtain ⟨fuel, rfl⟩ : ∃ k, fuel = k + 1 := ⟨fuel - 1, by simp at hfuel; omega⟩
      have hturn := downloadLoop_record hw fuel record hfile
      have hloaded := After.loaded hw record (records.flatMap Block.encode)
      have hrest := exchange_converses hloaded.ordinary (commandOf record)
        (downloadLoop fuel >>= fun _ => next) (records.map commandOf ++ fs)
        (fun t ht hconfig hfile => ih ht hfile (by simpa using hfuel)
          (fun t' ht' hconfig' => hnext t' ht' (hconfig'.trans hconfig)))
      refine Converses.after ?_ hloaded hrest
      rw [← bind_assoc, bind_apply, hturn]
      rfl

/-! ### The whole of `proc_patchram` -/

theorem sys_ordinary {α : Type} {call : Host α} {w : World} (hw : Ordinary w) :
    sys call w = call w :=
  sys_quiet hw.signals

theorem procReset_converses {w : World} (hw : Ordinary w) :
    Converses procReset w (answers [hciReset] (stream w.uart)).1
      (answers [hciReset] (stream w.uart)).2 := by
  obtain ⟨v, hsend, hafter, hfile⟩ := After.sends hw hciReset
  let armed : World := { v with pending := true, io := v.io ++ [.alarm 4] }
  have hv := hafter.ordinary
  have harmed : After [] v armed :=
    ⟨⟨hv.signals, hv.fileReads, hv.writes, hv.positive⟩, rfl, by simp [armed],
      ⟨_, rfl, .silent trivial .nil⟩, by simp [armed]⟩
  have halarm : sys (alarm 4) v = (.ok (), armed) := sys_ordinary hv
  have hdone : ∀ t, Ordinary t → t.config = w.config → t.file = armed.file →
      Converses (sys (alarm 0)) t (answers [] (stream t.uart)).1
        (answers [] (stream t.uart)).2 := by
    intro t ht _ _
    exact Converses.done (sys_ordinary ht)
      ⟨⟨ht.signals, ht.fileReads, ht.writes, ht.positive⟩, rfl, by simp,
        ⟨_, rfl, .silent trivial .nil⟩, by simp⟩
  refine command_converses ?_ (hafter.trans harmed) hdone
  rw [procReset, bind_ok hsend, bind_ok halarm]

/-- The bytes after the minidriver event, read in one call: both if no read boundary
falls between them, and only the first otherwise. -/
theorem confirmation_read {w : World} (hw : Ordinary w) {a b : UInt8} {rest : List UInt8}
    (hstream : stream w.uart = a :: b :: rest) :
    ∃ l t, readUart 0 2 w = (.ok l.length, t) ∧ After [.stray l] w t ∧ t.file = w.file ∧
      (Cut w.uart 1 → l = [a]) ∧ (¬ Cut w.uart 1 → l = [a, b]) := by
  have hne : w.uart ≠ [] := by
    intro h
    simp [h] at hstream
  obtain ⟨l, t, hread, htook, hl, hle, hshort, hwhole⟩ :=
    readUart_positive hw.signals hw.positive hne 0 (n := 2) (by omega)
  obtain ⟨reads, hio, hreads⟩ := htook.reads
  have hafter : After [.stray l] w t := by
    have hmessage := Took.after (m := .stray l) htook hw (.stray hreads .nil)
    rwa [List.append_nil, ← hio] at hmessage
  have hfront : l = (a :: b :: rest).take l.length := by
    rw [← hstream, htook.stream, List.take_left]
  have hpos : 0 < l.length := List.length_pos_iff.mpr hl
  refine ⟨l, t, hread, hafter, by rw [htook.state], ?_, ?_⟩
  · intro hcut
    have hone : l.length = 1 := by
      by_contra h
      exact hwhole 1 (by omega) (by omega) hcut
    rw [hfront, hone]
    rfl
  · intro hcut
    have htwo : l.length = 2 := by
      by_contra h
      have hone : l.length = 1 := by omega
      exact hcut (hone ▸ (hshort (by omega)).2)
    rw [hfront, htwo]
    rfl

/-- `proc_patchram` from the sleep before the download on. -/
def sleepAndDownload (config : Globals) : Host Unit := do
  when (config.tosleep ≠ 0) do
    sys (record (.usleep config.tosleep))
  download
  when config.useBaudrateForDownload do
    sys (setSpeed B115200)
  procReset

theorem procPatchram_eq (w : World) :
    procPatchram w = (exchange hciDownloadMinidriver >>= fun _ => gets World.config >>=
      fun config => when (!config.no2bytes) (readUart 0 2 >>= fun _ => pure ()) >>=
      fun _ => sleepAndDownload config) w := rfl

/-- A step that is silent on the UART, taken or not. -/
theorem when_silent {w : World} (hw : Ordinary w) (p : Prop) [Decidable p] {c : Host Unit}
    {v : World} (hc : c w = (.ok (), v)) (hv : After [] w v) (hfile : v.file = w.file) :
    ∃ t, when p c w = (.ok (), t) ∧ After [] w t ∧ t.file = w.file := by
  by_cases hp : p
  · exact ⟨v, by rw [when_pos hp, hc], hv, hfile⟩
  · exact ⟨w, by rw [when_neg hp]; rfl, ⟨hw, rfl, by simp, ⟨[], by simp, .nil⟩, by simp⟩, rfl⟩

theorem length_le_flatMap_encode (records : List Block) :
    records.length ≤ (records.flatMap Block.encode).length := by
  induction records with
  | nil => simp
  | cons record records ih =>
      rw [List.flatMap_cons, List.length_append, List.length_cons, Block.length_encode]
      omega

theorem sleepAndDownload_converses {w : World} (hw : Ordinary w) (config : Globals)
    (records : List Block) (hfile : w.file = records.flatMap Block.encode) :
    Converses (sleepAndDownload config) w
      (answers (downloadFrames records) (stream w.uart)).1
      (answers (downloadFrames records) (stream w.uart)).2 := by
  have hsleep : sys (record (.usleep config.tosleep)) w =
      (.ok (), { w with io := w.io ++ [.usleep config.tosleep] }) := sys_ordinary hw
  obtain ⟨u, hu, hafter, hufile⟩ := when_silent hw (config.tosleep ≠ 0) hsleep
    ⟨⟨hw.signals, hw.fileReads, hw.writes, hw.positive⟩, rfl, by simp,
      ⟨_, rfl, .silent trivial .nil⟩, by simp⟩ rfl
  have hfuel : records.length < u.file.length + u.fileReads.length + 1 := by
    have hle := length_le_flatMap_encode records
    rw [hufile, hfile]
    omega
  have hloop := downloadLoop_converses hafter.ordinary records (hufile.trans hfile) hfuel
    (when config.useBaudrateForDownload (sys (setSpeed B115200)) >>= fun _ => procReset)
    [hciReset] (by
      intro t ht _
      have hspeed : sys (setSpeed B115200) t = (.ok (), { t with
          termios := B115200, tty := B115200, io := t.io ++ [.tcsetattr B115200] }) :=
        sys_ordinary ht
      obtain ⟨v, hv, hafter', _⟩ := when_silent ht config.useBaudrateForDownload hspeed
        ⟨⟨ht.signals, ht.fileReads, ht.writes, ht.positive⟩, rfl, by simp,
          ⟨_, rfl, .silent trivial .nil⟩, by simp⟩ rfl
      have hreset := procReset_converses hafter'.ordinary
      rw [show stream v.uart = stream t.uart from hafter'.stream.symm] at hreset
      exact Converses.after (bind_ok hv) hafter' hreset)
  rw [show stream u.uart = stream w.uart from hafter.stream.symm] at hloop
  refine Converses.after ?_ hafter hloop
  rw [sleepAndDownload, bind_ok hu, download, bind_assoc, gets_bind_apply]

/-- Up to the sleep: the minidriver command, its event, and the confirmation bytes that
one read takes, which are all of them unless a read boundary divides them. -/
theorem procPatchram_confirmed {w : World} (hw : Ordinary w) (minidriver : Block)
    (confirmation tail : List UInt8)
    (hconfirm : confirmation.length = if w.config.no2bytes then 0 else 2)
    (hstream : stream w.uart = minidriver.encode ++ (confirmation ++ tail)) :
    ∃ v l, procPatchram w = sleepAndDownload w.config v ∧ v.file = w.file ∧
      After [.command hciDownloadMinidriver, .event minidriver.encode, .stray l] w v ∧
      (w.config.no2bytes ∨ ¬ Cut w.uart (minidriver.encode.length + 1) → l = confirmation) ∧
      (w.config.no2bytes = false → Cut w.uart (minidriver.encode.length + 1) →
        l = confirmation.take 1) := by
  obtain ⟨u, hex, hafter, htail, hufile⟩ := exchange_returns hw hciDownloadMinidriver hstream
  have hu := hafter.ordinary
  rw [procPatchram_eq, bind_ok hex, gets_bind_apply, hafter.config]
  cases hno : w.config.no2bytes with
  | true =>
      obtain rfl : confirmation = [] := List.length_eq_zero_iff.mp (by simpa [hno] using hconfirm)
      have hnone : After [.stray []] u u :=
        ⟨hu, rfl, by simp [Message.bytes], ⟨[], by simp, .stray .nil .nil⟩,
          by simp [Message.bytes]⟩
      refine ⟨u, [], ?_, hufile, hafter.trans hnone, fun _ => rfl, by simp⟩
      rw [when_neg (by simp), pure_bind_apply]
  | false =>
      obtain ⟨a, b, rfl⟩ : ∃ a b, confirmation = [a, b] :=
        List.length_eq_two.mp (by simpa [hno] using hconfirm)
      obtain ⟨l, v, hread, hstray, hvfile, hone, hboth⟩ := confirmation_read hu htail
      have hcut : Cut w.uart (minidriver.encode.length + 1) ↔ Cut u.uart 1 := by
        simpa [Message.bytes] using hafter.cut 1 (by omega)
      refine ⟨v, l, ?_, hvfile.trans hufile, hafter.trans hstray, ?_, ?_⟩
      · rw [when_pos (by simp), bind_assoc, bind_ok hread, pure_bind_apply]
      · intro h
        exact hboth (fun h' => h.elim (by simp) (fun h => h (hcut.mpr h')))
      · intro _ h
        exact hone (hcut.mp h)

/-- Firmware download fidelity. On a file of records, with a stream that holds one
event for each command and the confirmation bytes where they are awaited, the commands
written are the minidriver command, the records in order and unchanged, and the closing
reset; and each command is written only when the event before it has been read. -/
theorem procPatchram_downloads {w : World} (hw : Ordinary w) (records events : List Block)
    (minidriver reset : Block) (confirmation rest : List UInt8)
    (hfile : w.file = records.flatMap Block.encode) (hevents : events.length = records.length)
    (hconfirm : confirmation.length = if w.config.no2bytes then 0 else 2)
    (hstream : stream w.uart = minidriver.encode ++ (confirmation ++
      ((events ++ [reset]).flatMap Block.encode ++ rest)))
    (hcut : w.config.no2bytes ∨ ¬ Cut w.uart (minidriver.encode.length + 1)) :
    ∃ t new, procPatchram w = (.ok (), t) ∧ t.io = w.io ++ new ∧
      sent new = hciDownloadMinidriver ::
        (records.map (fun record => 0x01 :: record.encode) ++ [hciReset]) ∧
      Dialogue ([.command hciDownloadMinidriver, .event minidriver.encode,
          .stray confirmation] ++
        ((records.zip events).flatMap (fun p =>
          [.command (0x01 :: p.1.encode), .event p.2.encode]) ++
        [.command hciReset, .event reset.encode])) new ∧
      stream t.uart = rest := by
  obtain ⟨v, l, heq, hvfile, hafter, hall, _⟩ :=
    procPatchram_confirmed hw minidriver confirmation _ hconfirm hstream
  obtain rfl := hall hcut
  have htail : stream v.uart = (events ++ [reset]).flatMap Block.encode ++ rest := by
    have h := hafter.stream
    rw [hstream] at h
    simpa [Message.bytes] using h.symm
  have hdownload := sleepAndDownload_converses hafter.ordinary w.config records
    (hvfile.trans hfile)
  have hlen : (downloadFrames records).length = (events ++ [reset]).length := by
    simp [downloadFrames, hevents]
  have hmessages : ((downloadFrames records).zip (events ++ [reset])).flatMap
      (fun p => [Message.command p.1, .event p.2.encode]) =
      (records.zip events).flatMap (fun p =>
        [Message.command (0x01 :: p.1.encode), .event p.2.encode]) ++
        [.command hciReset, .event reset.encode] := by
    rw [downloadFrames, List.zip_append (by simp [hevents]), List.flatMap_append,
      List.zip_map_left, List.flatMap_map]
    rfl
  rw [htail, answers_encode _ _ _ hlen, hmessages] at hdownload
  obtain ⟨t, ht, hrest, hstream'⟩ := hdownload
  obtain ⟨new, hnew, hdial⟩ := (hafter.trans hrest).dialogue
  refine ⟨t, new, heq.trans ht, hnew, ?_, hdial, hstream'⟩
  have hframes := frames_zip _ _ hlen
  rw [hmessages] at hframes
  rw [hdial.sent, List.filterMap_append, hframes]
  rfl

/-- Two records and a pause, with arrivals that end inside the events; one ends behind the first
byte of the event that follows the confirmation. -/
def paused : World :=
  World.start { tosleep := 1000 }
    [.bytes [0x04, 0x0e, 0x01, 0x00], .bytes [0x55, 0xaa, 0x04], .bytes [0x0e, 0x01],
      .bytes [0x7e, 0x04, 0x0e, 0x02, 0x01], .bytes [0x02, 0x04, 0x0e, 0x00, 0x07]]
    [0x4c, 0xfc, 0x01, 0x7f, 0x4e, 0xfc, 0x03, 0x01, 0x02, 0x03]

def pausedRecords : List Block :=
  [⟨0x4c, 0xfc, [0x7f], by decide⟩, ⟨0x4e, 0xfc, [0x01, 0x02, 0x03], by decide⟩]

def pausedEvents : List Block :=
  [⟨0x04, 0x0e, [0x7e], by decide⟩, ⟨0x04, 0x0e, [0x01, 0x02], by decide⟩]

theorem procPatchram_downloads_two : ∃ t new, procPatchram paused = (.ok (), t) ∧
    t.io = [] ++ new ∧
    sent new = hciDownloadMinidriver ::
      (pausedRecords.map (fun record => 0x01 :: record.encode) ++ [hciReset]) ∧
    Dialogue ([.command hciDownloadMinidriver, .event [0x04, 0x0e, 0x01, 0x00],
        .stray [0x55, 0xaa]] ++
      ((pausedRecords.zip pausedEvents).flatMap (fun p =>
        [.command (0x01 :: p.1.encode), .event p.2.encode]) ++
      [.command hciReset, .event [0x04, 0x0e, 0x00]])) new ∧
    stream t.uart = [0x07] := by
  have hcut : ¬ Cut paused.uart (([0x04, 0x0e, 0x01, 0x00] : List UInt8).length + 1) := by
    rw [paused, World.start, cut_cons (by simp)]
    rintro ⟨j, hj, h⟩
    obtain rfl : j = 1 := by
      simp at hj
      omega
    obtain ⟨k, hk, -⟩ := (cut_cons (by simp)).mp h
    simp at hk
    omega
  exact procPatchram_downloads ⟨rfl, rfl, rfl, by simp [paused, World.start]⟩
    pausedRecords pausedEvents ⟨0x04, 0x0e, [0x00], by decide⟩ ⟨0x04, 0x0e, [], by decide⟩
    [0x55, 0xaa] [0x07] rfl rfl rfl rfl (.inr hcut)

end Patchram
