import SystemBluetooth.Brfpatch.Payload

/-!
# Whole records

A record is written in one go, once its line has been read to the end, so the output is a
concatenation of packets wherever the program stops. `Records` relates the lines that have
been processed to their packets: a line whose first character behind white space is an `S`
has one, and no other line has any. `StopsAt` says which line is the first that is not
processed: the one that fails where the lines before it have led.
-/

namespace Brfpatch

open Effect

/-! ### One line -/

/-- What follows the white space at the start of a line begins with an `S`. -/
def Line.Sends (line : Line) : Prop := (line.bytes.dropWhile Scan.isSpace).head? = some 0x53

instance (line : Line) : Decidable line.Sends := inferInstanceAs (Decidable (_ = _))

/-- The white space of a line ends in the line, or at the NUL behind it. -/
theorem Buffer.load_start (buffer : Buffer) (line : Line) :
    (buffer.load line).start = line.bytes.dropWhile Scan.isSpace ++
      0 :: buffer.bytes.drop (line.bytes.length + 1) := by
  rw [Buffer.start, Buffer.load, List.dropWhile_append]
  cases h : line.bytes.dropWhile Scan.isSpace with
  | nil => rfl
  | cons c s => rfl

theorem Buffer.load_sends (buffer : Buffer) (line : Line) :
    (buffer.load line).start.head? = some 0x53 ↔ line.Sends := by
  rw [Buffer.load_start, Line.Sends]
  cases h : line.bytes.dropWhile Scan.isSpace with
  | nil => simp
  | cons c s => simp

/-- A record is a packet, however many bytes there are: those behind the length byte are as
many as it says. -/
theorem record_block (opcode : UInt32) (bytes : List UInt8) :
    ∃ packet : Block, record opcode bytes = 0x01 :: packet.encode := by
  have hlen : (bytes.take (UInt8.ofNat bytes.length).toNat).length =
      (UInt8.ofNat bytes.length).toNat := by
    rw [List.length_take]
    exact Nat.min_eq_left (Nat.mod_le _ _)
  have hshort : (bytes.take (UInt8.ofNat bytes.length).toNat).length < 256 := by
    rw [hlen]
    exact (UInt8.ofNat bytes.length).toNat_lt
  refine ⟨⟨UInt8.ofNat opcode.toUInt16.toNat, UInt8.ofNat (opcode.toUInt16.toNat / 256), _,
    hshort⟩, ?_⟩
  rw [record, Block.encode, Block.size, hlen, UInt8.ofNat_toNat]
  rfl

/-- What the loop does with a line that is in the buffer. -/
inductive Dispatched (buffer : Buffer) (w : State) : Except Halt Unit × State → Prop where
  | ignored (other : buffer.start.head? ∈ [some 0x57, some 0x23, some 0x00]) :
      Dispatched buffer w (.ok (), w)
  | sent {opcode bytes} (command : buffer.start.head? = some 0x53)
      (denotes : Denotes buffer.start opcode bytes) :
      Dispatched buffer w (.ok (),
        { w with stack := fun n => w.stack (n + 1), out := w.out ++ record opcode bytes })
  | stopped {halt t} (out : t.out = w.out) : Dispatched buffer w (.error halt, t)

theorem dispatch_cases (buffer : Buffer) (w : State) :
    Dispatched buffer w (dispatch buffer.bytes w) := by
  generalize hdispatch : dispatch buffer.bytes = run
  rw [dispatch] at hdispatch
  split at hdispatch
  · subst hdispatch
    exact .stopped rfl
  · rename_i buf hstart
    have hS : buffer.start.head? = some 0x53 := by
      rw [Buffer.start, hstart]
      rfl
    rw [← hstart] at hdispatch
    subst hdispatch
    change Dispatched buffer w (processLine buffer.start buffer.bytes w)
    rcases hrun : processLine buffer.start buffer.bytes w with ⟨halt | _, t⟩
    · refine .stopped ?_
      rw [processLine_apply] at hrun
      cases hparse : parseLine (w.stack 0) buffer.start buffer.bytes with
      | error halt' =>
          simp only [hparse] at hrun
          rw [← (Prod.mk.inj hrun).2]
      | ok parsed => simp [hparse, dumpRecord] at hrun
    · obtain ⟨opcode, bytes, hdenotes, rfl⟩ := (processLine_eq_ok buffer.start_length).mp hrun
      exact .sent hS hdenotes
  · rename_i hstart
    subst hdispatch
    exact .ignored (by simp [Buffer.start, hstart])
  · rename_i hstart
    subst hdispatch
    exact .ignored (by simp [Buffer.start, hstart])
  · rename_i hstart
    subst hdispatch
    exact .ignored (by simp [Buffer.start, hstart])
  · subst hdispatch
    exact .stopped rfl

/-! ### All lines -/

/-- The packets of lines that are processed from a buffer, one after the other. -/
inductive Records : Buffer → List Line → List Block → Prop where
  | nil {buffer} : Records buffer [] []
  | ignored {buffer line lines packets}
      (other : (buffer.load line).start.head? ∈ [some 0x57, some 0x23, some 0x00])
      (later : Records (buffer.load line) lines packets) : Records buffer (line :: lines) packets
  | sent {buffer line lines packets opcode bytes packet} (command : line.Sends)
      (denotes : Denotes (buffer.load line).start opcode bytes)
      (whole : record opcode bytes = 0x01 :: (packet : Block).encode)
      (later : Records (buffer.load line) lines packets) :
      Records buffer (line :: lines) (packet :: packets)

/-- One packet for each line that sends a command. -/
theorem Records.length {buffer : Buffer} {lines : List Line} {packets : List Block}
    (h : Records buffer lines packets) :
    packets.length = (lines.filter fun line => line.Sends).length := by
  induction h with
  | nil => rfl
  | @ignored buffer line lines packets other _ ih =>
      have hother : ¬ line.Sends := by
        rw [← buffer.load_sends line]
        intro hS
        rw [hS] at other
        exact absurd other (by decide)
      rw [List.filter_cons_of_neg (by simpa using hother), ih]
  | sent command _ _ _ ih =>
      rw [List.filter_cons_of_pos (by simpa using command), List.length_cons, List.length_cons, ih]

/-- The loop stops at a line: those before it are processed, and from there on it fails. -/
def StopsAt (w : State) (processed : List Line) (line : Line) (halt : Halt) : Prop :=
  ∃ t, processLines processed w = (.ok (), t) ∧
    (dispatch (t.buffer.load line).bytes { t with buffer := t.buffer.load line }).1 = .error halt

/-- What a run of the loop leaves: the packets of the lines it has processed, all of them or
those before the line where it stopped. -/
structure Recorded (w : State) (processed rest : List Line) (packets : List Block)
    (result : Except Halt Unit × State) : Prop where
  records : Records w.buffer processed packets
  out : result.2.out = w.out ++ Block.encodeAll 0x01 packets
  complete : result.1 = .ok () ↔ rest = []
  stopped : ∀ line ∈ rest.head?, ∃ halt, result.1 = .error halt ∧ StopsAt w processed line halt

/-- A line that is processed goes in front of those that the loop processes from there. -/
theorem Recorded.cons {w u : State} {line : Line} {processed rest : List Line}
    {packets packets' : List Block} {result : Except Halt Unit × State}
    (hturn : dispatch (w.buffer.load line).bytes { w with buffer := w.buffer.load line } =
      (.ok (), u))
    (h : Recorded u processed rest packets result)
    (hrecords : Records w.buffer (line :: processed) packets')
    (hout : u.out ++ Block.encodeAll 0x01 packets = w.out ++ Block.encodeAll 0x01 packets') :
    Recorded w (line :: processed) rest packets' result := by
  refine ⟨hrecords, h.out.trans hout, h.complete, fun stop hstop => ?_⟩
  obtain ⟨halt, hresult, t, hprocessed, hfails⟩ := h.stopped stop hstop
  refine ⟨halt, hresult, t, ?_, hfails⟩
  have hrun : processLines (line :: processed) w =
      (dispatch (w.buffer.load line).bytes >>= fun _ => processLines processed)
        { w with buffer := w.buffer.load line } := rfl
  rw [hrun, bind_ok hturn, hprocessed]

/-- Every line that is processed adds its packet, and the line that stops the program none. -/
theorem processLines_recorded (lines : List Line) (w : State) : ∃ processed rest packets,
    lines = processed ++ rest ∧ Recorded w processed rest packets (processLines lines w) := by
  induction lines generalizing w with
  | nil =>
      exact ⟨[], [], [], rfl, .nil, by simp [processLines, Block.encodeAll], by simp [processLines],
        by simp⟩
  | cons line lines ih =>
      let u : State := { w with buffer := w.buffer.load line }
      have hturn : processLines (line :: lines) w =
          (dispatch u.buffer.bytes >>= fun _ => processLines lines) u := rfl
      have hcases := dispatch_cases u.buffer u
      rw [hturn]
      generalize hrun : dispatch u.buffer.bytes u = result at hcases
      cases hcases with
      | ignored other =>
          rw [bind_ok hrun]
          obtain ⟨processed, rest, packets, hlines, h⟩ := ih u
          exact ⟨line :: processed, rest, packets, by rw [hlines, List.cons_append],
            h.cons hrun (.ignored other h.records) rfl⟩
      | @sent opcode bytes command denotes =>
          rw [bind_ok hrun]
          obtain ⟨processed, rest, packets, hlines, h⟩ :=
            ih { u with stack := fun n => u.stack (n + 1), out := u.out ++ record opcode bytes }
          obtain ⟨packet, hpacket⟩ := record_block opcode bytes
          have hsends := (w.buffer.load_sends line).mp command
          refine ⟨line :: processed, rest, packet :: packets, by rw [hlines, List.cons_append],
            h.cons hrun (.sent hsends denotes hpacket h.records) ?_⟩
          rw [hpacket, List.append_assoc]
          rfl
      | @stopped halt t out =>
          rw [bind_error hrun]
          refine ⟨[], line :: lines, [], rfl, .nil, ?_, by simp, fun stop hstop => ?_⟩
          · simp [out, u, Block.encodeAll]
          · obtain rfl : line = stop := by simpa using hstop
            exact ⟨halt, rfl, w, rfl, congrArg Prod.fst hrun⟩

/-- However a run ends, the output consists of whole packets: one for each line that sends a
command, in order, of those before the line that stops the program, if there is one. -/
theorem main_records (program input output content : List UInt8) (w : State) :
    ∃ processed rest packets, fgets ⟨[], by decide⟩ content = processed ++ rest ∧
      (main [program, input, output] ⟨.ok content, .ok ()⟩ w).2.out =
        Block.encodeAll 0x01 packets ∧
      Records w.buffer processed packets ∧
      packets.length = (processed.filter fun line => line.Sends).length ∧
      ((main [program, input, output] ⟨.ok content, .ok ()⟩ w).1 = .ok () ↔ rest = []) ∧
      ∀ line ∈ rest.head?, ∃ halt,
        (main [program, input, output] ⟨.ok content, .ok ()⟩ w).1 = .error halt ∧
          StopsAt { w with out := [] } processed line halt := by
  obtain ⟨processed, rest, packets, hlines, h⟩ :=
    processLines_recorded (fgets ⟨[], by decide⟩ content) { w with out := [] }
  exact ⟨processed, rest, packets, hlines, h.out, h.records, h.records.length, h.complete,
    h.stopped⟩

end Brfpatch
