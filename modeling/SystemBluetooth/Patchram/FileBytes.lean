import SystemBluetooth.Patchram.Download
import SystemBluetooth.Patchram.Handler

/-!
# What the download takes from the file

The download loop does not look at what its file reads return, except that a header
read of nothing ends it. `OnlyFileBytes` is what one would want of it on any file:
complete records only, and nothing more once a read breaks off. It holds of every run
exactly if the reads deliver whole records up to the end (`Whole`); otherwise the loop
sends the bytes that an earlier record or an event has left in the buffer.
-/

namespace Patchram

open Effect Arrivals

/-- A file read that fails or stops inside a record. A header read of nothing does
neither. -/
def Io.BreaksOff : Io → Prop
  | .readFile _ _ .error => True
  | .readFile i len (.bytes l) => l.length < len ∧ ¬ (i = 1 ∧ l = [])
  | _ => False

/-- Every frame that the main flow sends is a record of the file behind a packet
indicator, and none is sent after a read that breaks off. -/
structure OnlyFileBytes (file : List UInt8) (io : List Io) : Prop where
  records : ∀ frame count, .write .main frame count ∈ io →
    ∃ record : Block, frame = 0x01 :: record.encode ∧ record.encode <:+: file
  stops : ∀ before e after, io = before ++ e :: after → e.BreaksOff →
    ∀ frame count, .write .main frame count ∉ after

/-- The file reads deliver whole records until a header read finds nothing. -/
inductive Whole : List FileRead → List UInt8 → Prop where
  | ended {reads file} (header : (fileAnswer reads file 3).1 = .bytes []) : Whole reads file
  | record {reads rest} (record : Block)
      (header : fileAnswer reads (record.encode ++ rest) 3 =
        (.bytes [record.first, record.second, record.size], record.payload ++ rest))
      (data : fileAnswer reads.tail (record.payload ++ rest) record.payload.length =
        (.bytes record.payload, rest))
      (more : Whole reads.tail.tail rest) : Whole reads (record.encode ++ rest)

/-- What a file read delivers is the front of the file. -/
theorem fileAnswer_bytes {reads : List FileRead} {file l rest : List UInt8} {n : Nat}
    (h : fileAnswer reads file n = (.bytes l, rest)) : file = l ++ rest ∧ l.length ≤ n := by
  unfold fileAnswer at h
  split at h
  · simp only [Prod.mk.injEq, Arrival.bytes.injEq] at h
    obtain ⟨rfl, rfl⟩ := h
    exact ⟨(List.take_append_drop n file).symm, List.length_take_le n file⟩
  · simp only [Prod.mk.injEq, Arrival.bytes.injEq] at h
    obtain ⟨rfl, rfl⟩ := h
    exact ⟨rfl, Nat.zero_le n⟩
  · simp at h

/-! ### One turn of the loop -/

/-- Neither a command of the main flow nor a read that breaks off. -/
def Io.Calm (e : Io) : Prop := ¬ e.BreaksOff ∧ ∀ frame count, e ≠ .write .main frame count

theorem Io.Listens.calm {e : Io} (h : e.Listens) : e.Calm := by
  constructor
  · cases e <;> first | exact id | exact h.elim
  · rintro frame count rfl
    exact h.elim

theorem readFile_handled (i len : Int) (w : World) :
    ∃ v, Handled w v ∧
      readFile i len w = (.ok (fileAnswer w.fileReads w.file len.toNat).1.count,
        { v with
          file := (fileAnswer w.fileReads w.file len.toNat).2
          fileReads := w.fileReads.tail
          buffer := Memory.store w.buffer i (fileAnswer w.fileReads w.file len.toNat).1.data
          io := v.io ++ [.readFile i len (fileAnswer w.fileReads w.file len.toNat).1] }) := by
  have hsys {call : Host Int} (h : readFile i len = sys call) :
      ∃ v, Handled w v ∧ readFile i len w = call v := by
    rw [h]
    exact sys_handled call w
  obtain ⟨v, hv, hcall⟩ := hsys rfl
  refine ⟨v, hv, hcall.trans ?_⟩
  rw [hv.state]
  rfl

/-- How a turn of the loop begins on the state `w`, up to the command it sends. -/
inductive Turn (fuel : Nat) (w : World) : Prop where
  | ended (t : World) (new : List Io) (run : downloadLoop (fuel + 1) w = (.ok (), t))
      (io : t.io = w.io ++ new) (calm : ∀ e ∈ new, e.Calm) (whole : Whole w.fileReads w.file)
  | breaksOff (v : World) (new : List Io) (frame : List UInt8)
      (run : downloadLoop (fuel + 1) w = (exchange frame >>= fun _ => downloadLoop fuel) v)
      (io : v.io = w.io ++ new) (broken : ∃ e ∈ new, e.BreaksOff)
      (whole : ¬ Whole w.fileReads w.file)
  | record (v : World) (new : List Io) (record : Block)
      (run : downloadLoop (fuel + 1) w =
        (exchange (0x01 :: record.encode) >>= fun _ => downloadLoop fuel) v)
      (io : v.io = w.io ++ new) (calm : ∀ e ∈ new, e.Calm)
      (file : w.file = record.encode ++ v.file) (uart : v.uart = w.uart)
      (quiet : w.signals = [] → v.signals = [])
      (whole : Whole w.fileReads w.file ↔ Whole v.fileReads v.file)

theorem whole_iff {reads : List FileRead} {file : List UInt8} :
    Whole reads file ↔ (fileAnswer reads file 3).1 = .bytes [] ∨
      ∃ record : Block, ∃ rest, file = record.encode ++ rest ∧
        fileAnswer reads file 3 =
          (.bytes [record.first, record.second, record.size], record.payload ++ rest) ∧
        fileAnswer reads.tail (record.payload ++ rest) record.payload.length =
          (.bytes record.payload, rest) ∧ Whole reads.tail.tail rest := by
  constructor
  · intro h
    cases h with
    | ended header => exact Or.inl header
    | record record header data more => exact Or.inr ⟨record, _, rfl, header, data, more⟩
  · rintro (header | ⟨record, rest, rfl, header, data, more⟩)
    · exact .ended header
    · exact .record record header data more

/-- What remains of the file and of the reads behind a record decides. -/
theorem Whole.record_iff {reads : List FileRead} {record : Block} {rest : List UInt8}
    (header : fileAnswer reads (record.encode ++ rest) 3 =
      (.bytes [record.first, record.second, record.size], record.payload ++ rest))
    (data : fileAnswer reads.tail (record.payload ++ rest) record.payload.length =
      (.bytes record.payload, rest)) :
    Whole reads (record.encode ++ rest) ↔ Whole reads.tail.tail rest := by
  refine ⟨fun h => ?_, .record record header data⟩
  obtain hnone | ⟨record', rest', hfile, _, _, more⟩ := whole_iff.mp h
  · rw [header] at hnone
    simp at hnone
  · have hdecode := Block.decode_encode record rest
    rw [hfile, Block.decode_encode] at hdecode
    obtain ⟨rfl, rfl⟩ : record' = record ∧ rest' = rest := by simpa using hdecode
    exact more

/-- A read that does not break off delivers all it was asked for. -/
theorem full_of_not_breaksOff {i : Int} {n : Nat} {result : Arrival UInt8}
    (h : ¬ (Io.readFile i n result).BreaksOff) (hi : i = 1 → result ≠ .bytes []) :
    ∃ l, result = .bytes l ∧ n ≤ l.length := by
  cases result with
  | error => exact absurd trivial h
  | bytes l =>
      refine ⟨l, rfl, ?_⟩
      by_contra hlt
      exact h ⟨by omega, fun hnone => hi hnone.1 (congrArg _ hnone.2)⟩

theorem Io.ByHandler.calm {e : Io} (h : e.ByHandler) : e.Calm := h.listens.calm

/-- A header read that finds something is followed by a data read, whose length is the
byte then in the buffer, and by a command, whatever the two reads return. -/
theorem downloadLoop_sends (fuel : Nat) {w : World} {header : Arrival UInt8} {rest : List UInt8}
    (hheader : fileAnswer w.fileReads w.file 3 = (header, rest)) (hne : header ≠ .bytes []) :
    ∃ b n data v n₁ n₂, b = Memory.store (Memory.store w.buffer 1 header.data) 0 [0x01] ∧
      n = (b 3).toNat ∧ data = fileAnswer w.fileReads.tail rest n ∧
      downloadLoop (fuel + 1) w =
        (exchange (Memory.slice (Memory.store b 4 data.1.data) 0 (n + 4)) >>=
          fun _ => downloadLoop fuel) v ∧
      v.io = w.io ++ (n₁ ++ .readFile 1 3 header :: (n₂ ++ [.readFile 4 n data.1])) ∧
      (∀ e ∈ n₁, e.ByHandler) ∧ (∀ e ∈ n₂, e.ByHandler) ∧
      v.file = data.2 ∧ v.fileReads = w.fileReads.tail.tail ∧ v.uart = w.uart ∧
      v.config = w.config ∧ v.openedPaths = w.openedPaths ∧
      (w.signals = [] → v.signals = []) := by
  obtain ⟨v₁, hv₁, hread₁⟩ := readFile_handled 1 3 w
  obtain ⟨n₁, hn₁, hcalm₁⟩ := hv₁.handler
  rw [show fileAnswer w.fileReads w.file (3 : Int).toNat = (header, rest) from hheader] at hread₁
  let u : World :=
    { v₁ with
      file := rest
      fileReads := w.fileReads.tail
      buffer := Memory.store (Memory.store w.buffer 1 header.data) 0 [0x01]
      io := v₁.io ++ [.readFile 1 3 header] }
  obtain ⟨v₂, hv₂, hread₂⟩ := readFile_handled 4 (u.buffer 3).toNat u
  obtain ⟨n₂, hn₂, hcalm₂⟩ := hv₂.handler
  have hcount : header.count ≠ 0 := by
    cases header with
    | error => simp
    | bytes l => simpa using hne
  let data := fileAnswer w.fileReads.tail rest (u.buffer 3).toNat
  let v : World :=
    { v₂ with
      file := data.2
      fileReads := w.fileReads.tail.tail
      buffer := Memory.store u.buffer 4 data.1.data
      io := v₂.io ++ [.readFile 4 (u.buffer 3).toNat data.1] }
  refine ⟨u.buffer, (u.buffer 3).toNat, data, v, n₁, n₂, rfl, rfl, rfl, ?_, ?_, hcalm₁, hcalm₂,
    rfl, rfl, ?_, ?_, ?_, fun h => hv₂.quiet (hv₁.quiet h)⟩
  · rw [downloadLoop, bind_ok hread₁, when_pos hcount, modify_bind_apply, gets_bind_apply]
    change (readFile 4 ((u.buffer 3).toNat : Int) >>= _) u = _
    rw [bind_ok hread₂, gets_bind_apply]
    rfl
  · simp [v, hn₂, hn₁, u]
  · change v₂.uart = w.uart
    rw [hv₂.state]
    change v₁.uart = w.uart
    rw [hv₁.state]
  · change v₂.config = w.config
    rw [hv₂.state]
    change v₁.config = w.config
    rw [hv₁.state]
  · change v₂.openedPaths = w.openedPaths
    rw [hv₂.state]
    change v₁.openedPaths = w.openedPaths
    rw [hv₁.state]

/-- A file whose header read breaks off is not whole. -/
theorem not_whole_of_header {reads : List FileRead} {file rest : List UInt8}
    {header : Arrival UInt8} (hheader : fileAnswer reads file 3 = (header, rest))
    (hne : header ≠ .bytes []) (hbroken : (Io.readFile 1 3 header).BreaksOff) :
    ¬ Whole reads file := by
  intro hwhole
  obtain hnone | ⟨record, rest', _, hthree, _, _⟩ := whole_iff.mp hwhole
  · rw [hheader] at hnone
    exact hne hnone
  · obtain ⟨rfl, rfl⟩ := Prod.mk.inj (hheader.symm.trans hthree)
    exact absurd hbroken.1 (by simp)

/-- Nor is one whose data read breaks off. -/
theorem not_whole_of_data {reads : List FileRead} {file rest : List UInt8} {x y z : UInt8}
    (hheader : fileAnswer reads file 3 = (.bytes [x, y, z], rest))
    (hbroken : (Io.readFile 4 z.toNat (fileAnswer reads.tail rest z.toNat).1).BreaksOff) :
    ¬ Whole reads file := by
  intro hwhole
  obtain hnone | ⟨record, rest', _, hthree, hall, _⟩ := whole_iff.mp hwhole
  · rw [hheader] at hnone
    simp at hnone
  · have hsame := hheader.symm.trans hthree
    simp only [Prod.mk.injEq, Arrival.bytes.injEq, List.cons.injEq] at hsame
    obtain ⟨⟨rfl, rfl, rfl, _⟩, rfl⟩ := hsame
    rw [Block.toNat_size, hall] at hbroken
    exact absurd hbroken.1 (by simp)

/-- Three bytes and as many more as the third says are a record at the front of the file. -/
theorem record_of_reads {reads : List FileRead} {file rest rest' d : List UInt8}
    {x y z : UInt8} (hheader : fileAnswer reads file 3 = (.bytes [x, y, z], rest))
    (hdata : fileAnswer reads.tail rest z.toNat = (.bytes d, rest')) (hfull : z.toNat ≤ d.length) :
    ∃ record : Block, record.first = x ∧ record.second = y ∧ record.size = z ∧
      record.payload = d ∧ file = record.encode ++ rest' := by
  obtain ⟨hfront, _⟩ := fileAnswer_bytes hheader
  obtain ⟨hrest, hle⟩ := fileAnswer_bytes hdata
  have hlen : d.length = z.toNat := by omega
  have hsize : UInt8.ofNat d.length = z := by rw [hlen, UInt8.ofNat_toNat]
  refine ⟨⟨x, y, d, by have := z.toNat_lt; omega⟩, rfl, rfl, hsize, rfl, ?_⟩
  rw [hfront, hrest, Block.encode, Block.size, hsize]
  rfl

/-- A header read that finds nothing ends the loop. -/
theorem downloadLoop_ended (fuel : Nat) {w : World} {rest : List UInt8}
    (hheader : fileAnswer w.fileReads w.file 3 = (.bytes [], rest)) : Turn fuel w := by
  obtain ⟨v, hv, hread⟩ := readFile_handled 1 3 w
  obtain ⟨new, hnew, hcalm⟩ := hv.handler
  rw [show fileAnswer w.fileReads w.file (3 : Int).toNat = _ from hheader] at hread
  refine .ended _ (new ++ [.readFile 1 3 (.bytes [])]) ((bind_ok hread).trans rfl) ?_ ?_
    (.ended (congrArg Prod.fst hheader))
  · simp only [hnew, List.append_assoc]
  · intro e he
    cases List.mem_append.mp he with
    | inl he => exact (hcalm e he).calm
    | inr he =>
        obtain rfl := List.mem_singleton.mp he
        exact ⟨fun h => h.2 ⟨rfl, rfl⟩, by simp⟩

theorem downloadLoop_turn (fuel : Nat) (w : World) : Turn fuel w := by
  rcases hheader : fileAnswer w.fileReads w.file 3 with ⟨header, rest⟩
  by_cases hend : header = .bytes []
  · subst hend
    exact downloadLoop_ended fuel hheader
  obtain ⟨b, n, data, v, n₁, n₂, hb, hn, hdata, hrun, hio, hcalm₁, hcalm₂, hfile, hreads,
    huart, -, -, hquiet⟩ := downloadLoop_sends fuel hheader hend
  by_cases hbroken : (Io.readFile 1 3 header).BreaksOff
  · exact .breaksOff v _ _ hrun hio ⟨_, by simp, hbroken⟩
      (not_whole_of_header hheader hend hbroken)
  obtain ⟨l, rfl, hfull⟩ := full_of_not_breaksOff (n := 3) hbroken fun _ => hend
  obtain ⟨_, hle⟩ := fileAnswer_bytes hheader
  obtain ⟨x, y, z, rfl⟩ : ∃ x y z, l = [x, y, z] := List.length_eq_three.mp (by omega)
  obtain rfl : n = z.toNat := by
    rw [hn, hb]
    exact congrArg _ (size_in_buffer w.buffer x y z)
  by_cases hbroken' : (Io.readFile 4 z.toNat data.1).BreaksOff
  · refine .breaksOff v _ _ hrun hio ⟨_, by simp, hbroken'⟩ (not_whole_of_data hheader ?_)
    rwa [← hdata]
  obtain ⟨d, hd, hfull'⟩ := full_of_not_breaksOff hbroken' (by simp)
  have hall : fileAnswer w.fileReads.tail rest z.toNat = (.bytes d, v.file) := by
    rw [← hdata, hfile, ← hd]
  obtain ⟨record, rfl, rfl, rfl, rfl, hfront⟩ := record_of_reads hheader hall hfull'
  rw [Block.toNat_size] at hall hrun
  refine .record v _ record ?_ hio ?_ hfront huart hquiet ?_
  · rw [hrun, hb, hd]
    exact congrArg (fun frame => (exchange frame >>= fun _ => downloadLoop fuel) v)
      (slice_command w.buffer record)
  · intro e he
    simp only [List.mem_append, List.mem_cons, List.not_mem_nil, or_false] at he
    obtain he | rfl | he | rfl := he
    · exact (hcalm₁ e he).calm
    · exact ⟨hbroken, by simp⟩
    · exact (hcalm₂ e he).calm
    · exact ⟨hbroken', by simp⟩
  · obtain ⟨hrest, _⟩ := fileAnswer_bytes hall
    rw [hrest] at hheader hall
    rw [hfront] at hheader ⊢
    rw [hreads]
    exact Whole.record_iff hheader hall

/-! ### The command and its event -/

/-- `t` is `w` after the command `frame`, with reads for its event and the handler. -/
structure Exchanged (frame : List UInt8) (w t : World) : Prop where
  file : t.file = w.file
  fileReads : t.fileReads = w.fileReads
  calls : ∃ before count after, t.io = w.io ++ (before ++ .write .main frame count :: after) ∧
    ∀ e ∈ before ++ after, e.Listens

/-- The command is written whatever happens to its event. -/
theorem exchange_exchanged (frame : List UInt8) (w : World) :
    wp (exchange frame) (fun _ t => Exchanged frame w t) (fun _ t => Exchanged frame w t) w := by
  obtain ⟨v, hv, hsend⟩ := sys_handled (hciSendCmd .main frame) w
  obtain ⟨before, hbefore, hcalm⟩ := hv.handler
  have hread : ∀ t, Listened (hciSendCmd .main frame v).2 t → Exchanged frame w t := by
    intro t ht
    obtain ⟨after, hafter, hlistens⟩ := ht.listens
    refine ⟨?_, ?_, before, v.writes.headD frame.length, after, ?_, ?_⟩
    · rw [ht.file, hciSendCmd, modify_apply, hv.state]
    · rw [ht.fileReads, hciSendCmd, modify_apply, hv.state]
    · rw [hafter, hciSendCmd, modify_apply, hbefore]
      simp
    · intro e he
      exact (List.mem_append.mp he).elim (fun h => (hcalm e h).listens) (hlistens e)
  rw [wp, exchange, bind_ok (hsend.trans rfl : sys (hciSendCmd .main frame) w = (.ok (), _))]
  exact wp_mono (readEvent_listens _) (fun _ t => hread t) (fun _ t => hread t)

/-- With an event at the front of the stream and no signal, the exchange returns. -/
theorem exchange_answered (frame : List UInt8) {w : World} (hsig : w.signals = [])
    (hpos : Positive w.uart) {e : Block} {rest : List UInt8}
    (hstream : stream w.uart = e.encode ++ rest) :
    ∃ t, exchange frame w = (.ok (), t) ∧ t.signals = [] ∧ Positive t.uart ∧
      stream t.uart = rest := by
  have hsend : sys (hciSendCmd .main frame) w = hciSendCmd .main frame w := sys_quiet hsig
  obtain ⟨t, hread, htook, hrest⟩ :=
    readEvent_returns (w := (hciSendCmd .main frame w).2) hsig hpos hstream
  refine ⟨_, (bind_ok (hsend.trans rfl)).trans hread, htook.signals.trans hsig, htook.positive,
    hrest⟩

/-! ### The whole download -/

/-- Not a read that breaks off, and if it is a command then a record of the file. -/
def Io.Faithful (file : List UInt8) (e : Io) : Prop :=
  ¬ e.BreaksOff ∧ ∀ frame count, e = .write .main frame count →
    ∃ record : Block, frame = 0x01 :: record.encode ∧ record.encode <:+: file

theorem Io.Calm.faithful {e : Io} (h : e.Calm) (file : List UInt8) : e.Faithful file :=
  ⟨h.1, fun frame count he => absurd he (h.2 frame count)⟩

theorem Io.Faithful.append {e : Io} {rest : List UInt8} (h : e.Faithful rest)
    (front : List UInt8) : e.Faithful (front ++ rest) := by
  refine ⟨h.1, fun frame count he => ?_⟩
  obtain ⟨record, hframe, hinfix⟩ := h.2 frame count he
  exact ⟨record, hframe, hinfix.trans (List.suffix_append front rest).isInfix⟩

theorem OnlyFileBytes.of_faithful {file : List UInt8} {io : List Io}
    (h : ∀ e ∈ io, e.Faithful file) : OnlyFileBytes file io where
  records frame count hmem := (h _ hmem).2 frame count rfl
  stops before e after hio hbreak := by
    subst hio
    exact absurd hbreak (h e (by simp)).1

/-- A turn that sends a command ends with it, or goes on from there. -/
theorem Exchanged.of_turn {fuel : Nat} {w v : World} {frame : List UInt8}
    (run : downloadLoop (fuel + 1) w = (exchange frame >>= fun _ => downloadLoop fuel) v) :
    ∃ t, Exchanged frame v t ∧ ((downloadLoop (fuel + 1) w).2 = t ∨
      downloadLoop (fuel + 1) w = downloadLoop fuel t) := by
  have hturn := exchange_exchanged frame v
  rcases hex : exchange frame v with ⟨_ | _, t⟩
  · exact ⟨t, by simpa only [wp, hex] using hturn, Or.inl (by rw [run, bind_error hex])⟩
  · exact ⟨t, by simpa only [wp, hex] using hturn, Or.inr (by rw [run, bind_ok hex])⟩

theorem downloadLoop_appends (fuel : Nat) (w : World) :
    ∃ new, (downloadLoop fuel w).2.io = w.io ++ new := by
  induction fuel generalizing w with
  | zero => exact ⟨[], by simp [downloadLoop]⟩
  | succ fuel ih =>
      have hsends : ∀ {v new frame}, v.io = w.io ++ new → downloadLoop (fuel + 1) w =
          (exchange frame >>= fun _ => downloadLoop fuel) v →
          ∃ new, (downloadLoop (fuel + 1) w).2.io = w.io ++ new := by
        intro v new frame io run
        obtain ⟨t, ht, hend⟩ := Exchanged.of_turn run
        obtain ⟨before, count, after, hio, _⟩ := ht.calls
        cases hend with
        | inl hend => exact ⟨_, hend ▸ io_trans io hio⟩
        | inr hend =>
            obtain ⟨later, hlater⟩ := ih t
            exact ⟨_, hend ▸ io_trans (io_trans io hio) hlater⟩
      cases downloadLoop_turn fuel w with
      | ended t new run io _ _ => exact ⟨new, by rw [run, io]⟩
      | breaksOff v new frame run io _ _ => exact hsends io run
      | record v new record run io => exact hsends io run

/-- Whole reads: a turn sends the record it has read, and leaves whole reads. -/
theorem downloadLoop_faithful (fuel : Nat) {w : World} (hwhole : Whole w.fileReads w.file) :
    ∃ new, (downloadLoop fuel w).2.io = w.io ++ new ∧ ∀ e ∈ new, e.Faithful w.file := by
  induction fuel generalizing w with
  | zero => exact ⟨[], by simp [downloadLoop], by simp⟩
  | succ fuel ih =>
      cases downloadLoop_turn fuel w with
      | ended t new run io calm _ =>
          exact ⟨new, by rw [run, io], fun e he => (calm e he).faithful w.file⟩
      | breaksOff v new frame run io broken whole => exact absurd hwhole whole
      | record v new record run io calm file uart quiet whole =>
          obtain ⟨t, ht, hend⟩ := Exchanged.of_turn run
          obtain ⟨before, count, after, hio, hlistens⟩ := ht.calls
          have hsent : ∀ e ∈ new ++ (before ++ .write .main (0x01 :: record.encode) count :: after),
              e.Faithful w.file := by
            intro e he
            simp only [List.mem_append, List.mem_cons] at he hlistens
            obtain he | he | rfl | he := he
            · exact (calm e he).faithful w.file
            · exact (hlistens e (Or.inl he)).calm.faithful w.file
            · refine ⟨id, ?_⟩
              rintro _ _ ⟨⟩
              exact ⟨record, rfl, file ▸ (List.prefix_append _ _).isInfix⟩
            · exact (hlistens e (Or.inr he)).calm.faithful w.file
          have hsentio := io_trans io hio
          cases hend with
          | inl hend => exact ⟨_, hend ▸ hsentio, hsent⟩
          | inr hend =>
              obtain ⟨later, hlater, hrest⟩ := ih (w := t)
                (by rw [ht.file, ht.fileReads]; exact whole.mp hwhole)
              refine ⟨_, hend ▸ io_trans hsentio hlater, ?_⟩
              intro e he
              refine (List.mem_append.mp he).elim (hsent e) (fun h => ?_)
              rw [file, ← ht.file]
              exact (hrest e h).append _

/-- A command after a read that breaks off. -/
def SendsAfterBreak (io : List Io) : Prop :=
  ∃ before e after frame count, io = before ++ e :: after ∧ e.BreaksOff ∧
    .write .main frame count ∈ after

theorem SendsAfterBreak.append_left {io : List Io} (h : SendsAfterBreak io) (front : List Io) :
    SendsAfterBreak (front ++ io) := by
  obtain ⟨before, e, after, frame, count, rfl, hbreak, hmem⟩ := h
  exact ⟨front ++ before, e, after, frame, count, (List.append_assoc ..).symm, hbreak, hmem⟩

theorem SendsAfterBreak.append_right {io : List Io} (h : SendsAfterBreak io) (back : List Io) :
    SendsAfterBreak (io ++ back) := by
  obtain ⟨before, e, after, frame, count, rfl, hbreak, hmem⟩ := h
  exact ⟨before, e, after ++ back, frame, count, List.append_assoc .., hbreak,
    List.mem_append_left _ hmem⟩

/-- An event with nothing in it, for runs that only need some event. -/
def emptyEvent : Block := ⟨0x0e, 0x00, [], by decide⟩

/-- Reads that break off: with events to go on, some turn sends what it did not read. -/
theorem downloadLoop_sendsAfterBreak (fuel : Nat) {w : World}
    (hwhole : ¬ Whole w.fileReads w.file) (hfuel : w.file.length < fuel) (hsig : w.signals = [])
    (hpos : Positive w.uart)
    (hstream : stream w.uart = (List.replicate fuel emptyEvent).flatMap Block.encode) :
    ∃ new, (downloadLoop fuel w).2.io = w.io ++ new ∧ SendsAfterBreak new := by
  induction fuel generalizing w with
  | zero => omega
  | succ fuel ih =>
      cases downloadLoop_turn fuel w with
      | ended t new run io _ whole => exact absurd whole hwhole
      | breaksOff v new frame run io broken _ =>
          obtain ⟨t, ht, hend⟩ := Exchanged.of_turn run
          obtain ⟨before, count, after, hio, _⟩ := ht.calls
          obtain ⟨e, hmem, hbreak⟩ := broken
          obtain ⟨as, bs, rfl⟩ := List.append_of_mem hmem
          have hsends : SendsAfterBreak
              ((as ++ e :: bs) ++ (before ++ .write .main frame count :: after)) :=
            ⟨as, e, bs ++ (before ++ .write .main frame count :: after), frame, count, by simp,
              hbreak, by simp⟩
          have hsentio := io_trans io hio
          cases hend with
          | inl hend => exact ⟨_, hend ▸ hsentio, hsends⟩
          | inr hend =>
              obtain ⟨later, hlater⟩ := downloadLoop_appends fuel t
              exact ⟨_, hend ▸ io_trans hsentio hlater, hsends.append_right later⟩
      | record v new record run io calm file uart quiet whole =>
          have hhead : stream v.uart = emptyEvent.encode ++
              (List.replicate fuel emptyEvent).flatMap Block.encode := by
            rw [uart, hstream]
            rfl
          obtain ⟨t, hex, hsig', hpos', hrest⟩ := exchange_answered (0x01 :: record.encode)
            (quiet hsig) (uart ▸ hpos) hhead
          have ht : Exchanged (0x01 :: record.encode) v t := by
            simpa only [wp, hex] using exchange_exchanged (0x01 :: record.encode) v
          have hshorter : v.file.length < fuel := by
            have := congrArg List.length file
            rw [List.length_append, Block.length_encode] at this
            omega
          obtain ⟨later, hlater, hsends⟩ := ih (w := t)
            (by rw [ht.file, ht.fileReads]; exact fun h => hwhole (whole.mpr h))
            (by rw [ht.file]; exact hshorter) hsig' hpos' hrest
          obtain ⟨before, count, after, hio, _⟩ := ht.calls
          have hsentio := io_trans io hio
          have hend := run.trans (bind_ok hex)
          exact ⟨_, hend ▸ io_trans hsentio hlater, hsends.append_left _⟩

/-- Only file bytes are downloaded exactly if the reads deliver whole records until a
header read finds nothing, whatever the controller, the handler and the buffer do. -/
theorem download_onlyFileBytes (reads : List FileRead) (file : List UInt8) :
    (∀ w new, w.fileReads = reads → w.file = file → (download w).2.io = w.io ++ new →
      OnlyFileBytes file new) ↔ Whole reads file := by
  constructor
  · intro h
    by_contra hwhole
    let w : World :=
      { World.start {} (List.replicate (file.length + reads.length + 1)
          (.bytes emptyEvent.encode)) file with fileReads := reads }
    obtain ⟨new, hnew, hsends⟩ := downloadLoop_sendsAfterBreak
      (file.length + reads.length + 1) (w := w) hwhole
      (show file.length < file.length + reads.length + 1 by omega) rfl
      (by simp [w, World.start, Positive, emptyEvent, Block.encode])
      (by simp [w, World.start, stream, List.flatMap_replicate])
    obtain ⟨before, e, after, frame, count, hio, hbreak, hmem⟩ := hsends
    exact (h w new rfl rfl hnew).stops before e after hio hbreak frame count hmem
  · rintro hwhole w new rfl rfl hnew
    obtain ⟨new', hnew', hfaithful⟩ :=
      downloadLoop_faithful (w.file.length + w.fileReads.length + 1) hwhole
    have hsame : new = new' := List.append_cancel_left (hnew.symm.trans hnew')
    exact hsame ▸ .of_faithful hfaithful

/-- A file that ends inside its second record. -/
def truncated : List UInt8 := [0x4c, 0xfc, 0x02, 0xaa, 0xbb, 0x4c, 0xfc, 0x02, 0xcc]

/-- The second command ends with a data byte of the first record. -/
theorem download_truncated :
    ¬ OnlyFileBytes truncated
      (download (World.start {} [.bytes emptyEvent.encode] truncated)).2.io := by
  intro h
  obtain ⟨record, hframe, hinfix⟩ :=
    h.records [0x01, 0x4c, 0xfc, 0x02, 0xcc, 0xbb] 6 (by decide)
  have hrecord : record.encode = [0x4c, 0xfc, 0x02, 0xcc, 0xbb] := (List.cons.inj hframe).2.symm
  rw [hrecord] at hinfix
  revert hinfix
  decide

end Patchram
