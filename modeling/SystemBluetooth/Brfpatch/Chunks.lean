import SystemBluetooth.Brfpatch.Extension
import SystemBluetooth.Brfpatch.Records

/-!
# Lines and the pieces they are read in

A line is delivered in pieces of 1023 characters, and every piece is processed as if it
were a line. `Linewise` is what the output should be: the packets of the lines themselves. A
run that succeeds writes exactly these if in every line the only piece that is taken for a
command is the first with anything in it, and that piece tells all that the line tells
(`Gathered`).
-/

namespace Brfpatch

open Effect

/-! ### Lines of a text -/

/-- The lines of a text with their newlines; the last one may have none. -/
def textLines : List UInt8 → List (List UInt8)
  | [] => []
  | c :: s =>
      if c = 0x0a then [c] :: textLines s
      else match textLines s with
        | [] => [[c]]
        | line :: lines => (c :: line) :: lines

theorem nil_fits : ([] : List UInt8).length < 1023 := by decide

/-- What `fgets` delivers of a line. -/
def pieces (line : List UInt8) : List Line := fgets ⟨[], nil_fits⟩ line

/-- Behind the white space at the start. -/
def unindented (line : List UInt8) : List UInt8 := line.dropWhile Scan.isSpace

/-- A text sends the command of the packet. -/
def Tells (text : List UInt8) (packet : Block) : Prop :=
  ∃ opcode, Denotes text opcode packet.payload ∧
    [packet.first, packet.second] = LittleEndian.encode 2 opcode.toUInt16.toNat

/-- The packets of one line. -/
inductive LineRecord (line : List UInt8) : List Block → Prop where
  | silent (first : (unindented line).head? ∈ [none, some 0x57, some 0x23]) : LineRecord line []
  | sends {packet} (tells : Tells (unindented line ++ [0]) packet) : LineRecord line [packet]

/-- The packets of all lines. -/
inductive Linewise : List (List UInt8) → List Block → Prop where
  | nil : Linewise [] []
  | cons {line lines ps qs} (first : LineRecord line ps) (later : Linewise lines qs) :
      Linewise (line :: lines) (ps ++ qs)

/-- A piece that is taken for a command is the first that is not blank, and tells, within its
own characters and with at most 255 bytes of data, what the line tells. -/
def Gathered (line : List UInt8) : Prop :=
  ∀ before piece after, pieces line = before ++ piece :: after → piece.Sends →
    (∀ p ∈ before, unindented p.bytes = []) ∧
      ∃ packet, Tells (unindented piece.bytes ++ [0]) packet ∧ Tells (unindented line ++ [0]) packet

/-! ### Pieces -/

theorem fgets_bytes (text : List UInt8) (cur : {cur : List UInt8 // cur.length < 1023}) :
    (fgets cur text).flatMap Line.bytes = cur.1 ++ text := by
  induction text generalizing cur with
  | nil =>
      obtain ⟨cur, hcur⟩ := cur
      by_cases hnil : cur = []
      · simp [fgets, hnil]
      · simp [fgets, hnil]
  | cons c text ih =>
      obtain ⟨cur, hcur⟩ := cur
      rw [fgets]
      split
      · rw [ih]
        simp
      · rw [List.flatMap_cons, ih]
        simp

theorem pieces_bytes (line : List UInt8) : (pieces line).flatMap Line.bytes = line :=
  fgets_bytes line _

theorem textLines_ne_nil {c : UInt8} {s : List UInt8} : textLines (c :: s) ≠ [] := by
  rw [textLines]
  split
  · exact List.cons_ne_nil _ _
  · split <;> exact List.cons_ne_nil _ _

/-- No call of `fgets` goes beyond a newline. -/
theorem fgets_textLines (content : List UInt8) (cur : {cur : List UInt8 // cur.length < 1023}) :
    fgets cur content = match textLines content with
      | [] => fgets cur []
      | line :: lines => fgets cur line ++ lines.flatMap pieces := by
  induction content generalizing cur with
  | nil => rfl
  | cons c s ih =>
      obtain ⟨cur, hcur⟩ := cur
      have hfresh : fgets ⟨[], by decide⟩ s = (textLines s).flatMap pieces := by
        rw [ih]
        cases textLines s with
        | nil => rfl
        | cons line lines => rfl
      by_cases hc : c = 0x0a
      · subst hc
        simp only [textLines, if_true]
        rw [fgets, dif_neg (by simp), fgets, dif_neg (by simp), hfresh]
        rfl
      · rw [textLines, if_neg hc]
        cases hlines : textLines s with
        | nil =>
            have hs : s = [] := by
              cases s with
              | nil => rfl
              | cons d s => exact absurd hlines textLines_ne_nil
            subst hs
            simp
        | cons line lines =>
            simp only [hlines] at ih hfresh
            dsimp only
            rw [fgets, fgets]
            split
            · exact ih _
            · rw [hfresh, List.cons_append, List.flatMap_cons]
              rfl

theorem fgets_pieces (content : List UInt8) :
    fgets ⟨[], by decide⟩ content = (textLines content).flatMap pieces := by
  rw [fgets_textLines]
  cases textLines content with
  | nil => rfl
  | cons line lines => rfl

/-- A newline is at the end of a line. -/
theorem textLines_newline {content line : List UInt8} (h : line ∈ textLines content) :
    0x0a ∉ line.dropLast := by
  induction content generalizing line with
  | nil => cases h
  | cons c s ih =>
      rw [textLines] at h
      split at h
      · obtain rfl | h := List.mem_cons.mp h
        · simp
        · exact ih h
      · rename_i hc
        split at h
        · obtain rfl := List.mem_singleton.mp h
          simp
        · rename_i first lines hlines
          obtain rfl | h := List.mem_cons.mp h
          · have hfirst := ih (hlines ▸ List.mem_cons_self)
            cases first with
            | nil => simp
            | cons d first =>
                rw [List.dropLast_cons_cons]
                exact List.not_mem_cons_of_ne_of_not_mem (Ne.symm hc) hfirst
          · exact ih (hlines ▸ List.mem_cons_of_mem _ h)

theorem mem_textLines {content line : List UInt8} {c : UInt8} (h : line ∈ textLines content)
    (hc : c ∈ line) : c ∈ content := by
  induction content generalizing line with
  | nil => cases h
  | cons d s ih =>
      rw [textLines] at h
      split at h
      · obtain rfl | h := List.mem_cons.mp h
        · exact List.mem_singleton.mp hc ▸ List.mem_cons_self
        · exact List.mem_cons_of_mem d (ih h hc)
      · split at h
        · obtain rfl := List.mem_singleton.mp h
          exact List.mem_singleton.mp hc ▸ List.mem_cons_self
        · rename_i first lines hlines
          obtain rfl | h := List.mem_cons.mp h
          · obtain rfl | hc := List.mem_cons.mp hc
            · exact List.mem_cons_self
            · exact List.mem_cons_of_mem d (ih (hlines ▸ List.mem_cons_self) hc)
          · exact List.mem_cons_of_mem d (ih (hlines ▸ List.mem_cons_of_mem _ h) hc)

/-- Every piece but the last fills the buffer. -/
theorem fgets_full {text : List UInt8} {cur : {cur : List UInt8 // cur.length < 1023}}
    (hline : 0x0a ∉ text.dropLast) {before after : List Line} {piece : Line}
    (h : fgets cur text = before ++ piece :: after) (hafter : after ≠ []) :
    piece.bytes.length = 1023 := by
  induction text generalizing cur before with
  | nil =>
      obtain ⟨cur, hcur⟩ := cur
      rw [fgets] at h
      split at h
      · simp at h
      · cases before with
        | nil => exact absurd (List.cons.inj h).2.symm hafter
        | cons b before => simp at h
  | cons c text ih =>
      obtain ⟨cur, hcur⟩ := cur
      have hrest : 0x0a ∉ text.dropLast := by
        cases text with
        | nil => simp
        | cons d text =>
            rw [List.dropLast_cons_cons] at hline
            exact fun hmem => hline (List.mem_cons_of_mem c hmem)
      rw [fgets] at h
      split at h
      · exact ih hrest h
      · rename_i hfull
        cases before with
        | cons b before => exact ih hrest (List.cons.inj h).2
        | nil =>
            obtain ⟨hpiece, htail⟩ := List.cons.inj h
            have hc : c ≠ 0x0a := by
              rintro rfl
              cases text with
              | nil => exact hafter (htail.symm.trans (by simp [fgets]))
              | cons d text => exact hline (by simp)
            have hlength : ¬ (cur ++ [c]).length < 1023 := fun hlt => hfull ⟨hc, hlt⟩
            rw [← hpiece]
            simp only [List.length_append, List.length_singleton] at hlength ⊢
            omega

/-! ### The first piece with anything in it -/

theorem unindented_blank {before : List Line} (h : ∀ p ∈ before, unindented p.bytes = [])
    (s : List UInt8) : unindented (before.flatMap Line.bytes ++ s) = unindented s := by
  induction before with
  | nil => rfl
  | cons p before ih =>
      have hp : ∀ c ∈ p.bytes, Scan.isSpace c = true :=
        List.dropWhile_eq_nil_iff.mp (h p List.mem_cons_self)
      rw [List.flatMap_cons, List.append_assoc, unindented, List.dropWhile_append_of_pos hp]
      exact ih fun q hq => h q (List.mem_cons_of_mem p hq)

/-- A piece with anything in it begins as the line does. -/
theorem unindented_pieces {line : List UInt8} {before after : List Line} {piece : Line}
    (hsplit : pieces line = before ++ piece :: after)
    (hbefore : ∀ p ∈ before, unindented p.bytes = []) (hpiece : unindented piece.bytes ≠ []) :
    unindented line = unindented piece.bytes ++ after.flatMap Line.bytes := by
  have hline := pieces_bytes line
  rw [hsplit, List.flatMap_append, List.flatMap_cons] at hline
  rw [← hline, unindented_blank hbefore, unindented, List.dropWhile_append, if_neg]
  · rfl
  · exact fun hempty => hpiece (List.isEmpty_iff.mp hempty)

theorem first_piece (lines : List Line) : (∀ p ∈ lines, unindented p.bytes = []) ∨
    ∃ before piece after, lines = before ++ piece :: after ∧
      (∀ p ∈ before, unindented p.bytes = []) ∧ unindented piece.bytes ≠ [] := by
  induction lines with
  | nil => exact Or.inl (by simp)
  | cons p lines ih =>
      by_cases hp : unindented p.bytes = []
      · obtain hall | ⟨before, piece, after, rfl, hbefore, hpiece⟩ := ih
        · exact Or.inl (List.forall_mem_cons.mpr ⟨hp, hall⟩)
        · exact Or.inr ⟨p :: before, piece, after, rfl,
            List.forall_mem_cons.mpr ⟨hp, hbefore⟩, hpiece⟩
      · exact Or.inr ⟨[], p, lines, rfl, by simp, hp⟩

theorem Line.Sends.not_blank {piece : Line} (h : piece.Sends) : unindented piece.bytes ≠ [] := by
  intro hblank
  rw [Line.Sends, ← unindented, hblank] at h
  cases h

/-- A line that begins with an `S` has a piece that does, behind blank ones. -/
theorem sending_piece {line : List UInt8} (h : (unindented line).head? = some 0x53) :
    ∃ before piece after, pieces line = before ++ piece :: after ∧
      (∀ p ∈ before, unindented p.bytes = []) ∧ piece.Sends := by
  obtain hall | ⟨before, piece, after, hsplit, hbefore, hpiece⟩ := first_piece (pieces line)
  · have hline := unindented_blank hall []
    rw [List.append_nil, pieces_bytes] at hline
    rw [hline] at h
    cases h
  · refine ⟨before, piece, after, hsplit, hbefore, ?_⟩
    rw [unindented_pieces hsplit hbefore hpiece] at h
    obtain ⟨c, s, hc⟩ := List.exists_cons_of_ne_nil hpiece
    rw [hc] at h
    rw [Line.Sends, ← unindented, hc]
    exact h

/-! ### What the pieces write -/

namespace Records

variable {buffer : Buffer} {packets : List Block}

theorem split {as bs : List Line} (h : Records buffer (as ++ bs) packets) :
    ∃ ps qs buffer', packets = ps ++ qs ∧ Records buffer as ps ∧ Records buffer' bs qs := by
  induction as generalizing buffer packets with
  | nil => exact ⟨[], packets, buffer, rfl, .nil, h⟩
  | cons a as ih =>
      cases h with
      | ignored other later =>
          obtain ⟨ps, qs, buffer', rfl, hps, hqs⟩ := ih later
          exact ⟨ps, qs, buffer', rfl, .ignored other hps, hqs⟩
      | @sent _ _ _ _ _ _ packet command denotes whole later =>
          obtain ⟨ps, qs, buffer', rfl, hps, hqs⟩ := ih later
          exact ⟨packet :: ps, qs, buffer', rfl, .sent command denotes whole hps, hqs⟩

theorem none {lines : List Line} (h : Records buffer lines packets)
    (hnone : ∀ line ∈ lines, ¬ line.Sends) : packets = [] := by
  have hlength := h.length
  rw [List.filter_eq_nil_iff.mpr (by simpa using hnone)] at hlength
  exact List.length_eq_zero_iff.mp hlength

/-- The piece that sends, and its packet. -/
theorem single {before after : List Line} {piece : Line}
    (h : Records buffer (before ++ piece :: after) packets)
    (hbefore : ∀ p ∈ before, ¬ p.Sends) (hpiece : piece.Sends) (hafter : ∀ p ∈ after, ¬ p.Sends) :
    ∃ buffer' opcode bytes packet, packets = [packet] ∧
      Denotes ((buffer' : Buffer).load piece).start opcode bytes ∧
      record opcode bytes = 0x01 :: (packet : Block).encode := by
  obtain ⟨ps, qs, buffer', rfl, hps, hqs⟩ := h.split
  obtain rfl := hps.none hbefore
  cases hqs with
  | ignored other later =>
      rw [(buffer'.load_sends piece).mpr hpiece] at other
      exact absurd other (by decide)
  | @sent _ _ _ _ opcode bytes packet command denotes whole later =>
      obtain rfl := later.none hafter
      exact ⟨buffer', opcode, bytes, packet, rfl, denotes, whole⟩

/-- What a piece that is ignored begins with. -/
theorem other {lines : List Line} (h : Records buffer lines packets) {piece : Line}
    (hmem : piece ∈ lines) (hpiece : ¬ piece.Sends) :
    ∃ buffer', (Buffer.load buffer' piece).start.head? ∈ [some 0x57, some 0x23, some 0x00] := by
  induction h with
  | nil => cases hmem
  | @ignored buffer line lines packets other _ ih =>
      obtain rfl | hmem := List.mem_cons.mp hmem
      · exact ⟨buffer, other⟩
      · exact ih hmem
  | sent command _ _ _ ih =>
      obtain rfl | hmem := List.mem_cons.mp hmem
      · exact absurd command hpiece
      · exact ih hmem

end Records

/-! ### What a text tells -/

/-- A text denotes one opcode and one sequence of bytes. -/
theorem Denotes.unique {buf bytes bytes' : List UInt8} {opcode opcode' : UInt32}
    (h : Denotes buf opcode bytes) (h' : Denotes buf opcode' bytes')
    (hsize : buf.length ≤ dataSize) : opcode = opcode' ∧ bytes = bytes' := by
  obtain ⟨data, hrun, hholds⟩ :
      ∃ data, parseLine (fun _ => 0) buf [] = .ok (opcode, data) ∧ data.Holds bytes :=
    h.runs hsize _
  obtain ⟨data', hrun', hholds'⟩ :
      ∃ data, parseLine (fun _ => 0) buf [] = .ok (opcode', data) ∧ data.Holds bytes' :=
    h'.runs hsize _
  obtain ⟨rfl, rfl⟩ : opcode = opcode' ∧ data = data' := by simpa using hrun.symm.trans hrun'
  refine ⟨rfl, ?_⟩
  rw [← hholds.front, ← hholds'.front, ← hholds.dp, ← hholds'.dp]

theorem Tells.record {text : List UInt8} {packet : Block} (h : Tells text packet) :
    ∃ opcode, Denotes text opcode packet.payload ∧
      record opcode packet.payload = 0x01 :: packet.encode := by
  obtain ⟨opcode, hdenotes, hopcode⟩ := h
  refine ⟨opcode, hdenotes, ?_⟩
  have hlen : (UInt8.ofNat packet.payload.length).toNat = packet.payload.length :=
    UInt8.toNat_ofNat_of_lt' packet.short
  rw [Brfpatch.record, hlen, List.take_length, ← hopcode]
  rfl

theorem encode_injective {p q : Block} (h : p.encode = q.encode) : p = q := by
  have hdecode := Block.decode_encode p []
  rw [h, Block.decode_encode] at hdecode
  exact (Prod.mk.inj (Option.some.inj hdecode)).1.symm

/-- A record of up to 255 bytes is what its text tells. -/
theorem tells_of_record {text bytes : List UInt8} {opcode : UInt32} {packet : Block}
    (hdenotes : Denotes text opcode bytes)
    (hrecord : Brfpatch.record opcode bytes = 0x01 :: packet.encode)
    (hshort : bytes.length ≤ 255) : Tells text packet := by
  have hlen : (UInt8.ofNat bytes.length).toNat = bytes.length :=
    UInt8.toNat_ofNat_of_lt' (Nat.lt_succ_of_le hshort)
  rw [Brfpatch.record, hlen, List.take_length] at hrecord
  obtain ⟨hfirst, hsecond, _, hpayload⟩ : UInt8.ofNat opcode.toUInt16.toNat = packet.first ∧
      UInt8.ofNat (opcode.toUInt16.toNat / 256) = packet.second ∧
      UInt8.ofNat bytes.length = packet.size ∧ bytes = packet.payload := by
    simpa [Block.encode, LittleEndian.encode] using hrecord
  refine ⟨opcode, hpayload ▸ hdenotes, ?_⟩
  rw [← hfirst, ← hsecond]
  rfl

/-! ### One line -/

section OneLine

variable {line : List UInt8} {buffer : Buffer} {packets : List Block}

/-- The pieces of a line write its packet, if the piece that is taken for a command tells what
the line tells. -/
theorem Gathered.lineRecord (h : Gathered line) (hnul : 0 ∉ line)
    (hrecords : Records buffer (pieces line) packets) : LineRecord line packets := by
  by_cases hsends : ∃ piece ∈ pieces line, piece.Sends
  · obtain ⟨piece, hmem, hpiece⟩ := hsends
    obtain ⟨before, after, hsplit⟩ := List.append_of_mem hmem
    obtain ⟨hbefore, packet, htells, hline⟩ := h before piece after hsplit hpiece
    have hnone : (∀ p ∈ before, ¬ p.Sends) ∧ ∀ p ∈ after, ¬ p.Sends := by
      refine ⟨fun p hp hsends => hsends.not_blank (hbefore p hp), fun p hp hsends => ?_⟩
      obtain ⟨front, back, rfl⟩ := List.append_of_mem hp
      have hblank := (h (before ++ piece :: front) p back (by simp [hsplit]) hsends).1
      exact hpiece.not_blank (hblank piece (by simp))
    rw [hsplit] at hrecords
    obtain ⟨buffer', opcode, bytes, packet', rfl, hdenotes, hrecord⟩ :=
      hrecords.single hnone.1 hpiece hnone.2
    obtain ⟨opcode', hdenotes', hrecord'⟩ := htells.record
    have hload := hdenotes'.append (buffer'.bytes.drop (piece.bytes.length + 1))
    rw [unindented, List.append_assoc, List.singleton_append, ← Buffer.load_start] at hload
    obtain ⟨rfl, rfl⟩ := hload.unique hdenotes (buffer'.load piece).start_length
    obtain rfl : packet = packet' :=
      encode_injective (List.cons.inj (hrecord'.symm.trans hrecord)).2
    exact .sends hline
  · have hnone : ∀ p ∈ pieces line, ¬ p.Sends := fun p hp hsend => hsends ⟨p, hp, hsend⟩
    obtain rfl := hrecords.none hnone
    obtain hall | ⟨before, piece, after, hsplit, hbefore, hpiece⟩ := first_piece (pieces line)
    · have hline := unindented_blank hall []
      rw [List.append_nil, pieces_bytes] at hline
      exact .silent (by rw [hline]; decide)
    · have hmem : piece ∈ pieces line := by simp [hsplit]
      obtain ⟨buffer', hother⟩ := hrecords.other hmem (hnone piece hmem)
      have hline := unindented_pieces hsplit hbefore hpiece
      obtain ⟨c, s, hc⟩ := List.exists_cons_of_ne_nil hpiece
      have hc0 : c ≠ 0 := by
        rintro rfl
        have hmem0 : 0 ∈ unindented line := by simp [hline, hc]
        exact hnul ((List.dropWhile_sublist _).subset hmem0)
      rw [Buffer.load_start, ← unindented, hc] at hother
      refine .silent ?_
      rw [hline, hc]
      simpa [hc0] using hother

theorem Tells.head {packet : Block} (h : Tells (unindented line ++ [0]) packet) :
    (unindented line).head? = some 0x53 := by
  obtain ⟨opcode, hdenotes, _⟩ := h
  have htake := hdenotes.sends
  cases hline : unindented line with
  | nil => simp [hline] at htake
  | cons c s =>
      rw [hline] at htake
      exact congrArg some (List.cons.inj htake).1

/-- The pieces of a line write at least its packets. -/
theorem LineRecord.length_le {packets' : List Block} (h : LineRecord line packets')
    (hrecords : Records buffer (pieces line) packets) : packets'.length ≤ packets.length := by
  cases h with
  | silent _ => exact Nat.zero_le _
  | sends tells =>
      obtain ⟨before, piece, after, hsplit, _, hpiece⟩ := sending_piece tells.head
      rw [hrecords.length]
      refine List.length_pos_of_mem (List.mem_filter.mpr ⟨?_, decide_eq_true hpiece⟩)
      simp [hsplit]

/-- No piece but one is taken for a command if there is one packet. -/
theorem Records.alone {before after : List Line} {piece : Line} {packet : Block}
    (h : Records buffer (before ++ piece :: after) [packet]) (hpiece : piece.Sends) :
    (∀ p ∈ before, ¬ p.Sends) ∧ ∀ p ∈ after, ¬ p.Sends := by
  have hlength := h.length
  rw [List.filter_append, List.filter_cons_of_pos (by simpa using hpiece)] at hlength
  simp only [List.length_append, List.length_cons, List.length_nil] at hlength
  have hbefore : (before.filter fun p => p.Sends).length = 0 := by omega
  have hafter : (after.filter fun p => p.Sends).length = 0 := by omega
  rw [List.length_eq_zero_iff, List.filter_eq_nil_iff] at hbefore hafter
  exact ⟨by simpa using hbefore, by simpa using hafter⟩

/-- Nothing stands before the only piece that is taken for a command. -/
theorem blank_before {before after : List Line} {piece : Line}
    (hsplit : pieces line = before ++ piece :: after)
    (hline : (unindented line).head? = some 0x53) (hbefore : ∀ p ∈ before, ¬ p.Sends) :
    ∀ p ∈ before, unindented p.bytes = [] := by
  obtain hall | ⟨front, p, back, rfl, hfront, hp⟩ := first_piece before
  · exact hall
  · rw [List.append_assoc, List.cons_append] at hsplit
    obtain ⟨c, s, hc⟩ := List.exists_cons_of_ne_nil hp
    rw [unindented_pieces hsplit hfront hp, hc] at hline
    have hsends : p.Sends := by
      rw [Line.Sends, ← unindented, hc]
      exact hline
    exact absurd hsends (hbefore p (by simp))

/-- What a piece that is followed by others leaves in the buffer. -/
theorem Buffer.load_full (buffer : Buffer) {piece : Line} (hfull : piece.bytes.length = 1023) :
    (buffer.load piece).start = unindented piece.bytes ++ [0] := by
  rw [Buffer.load_start, List.drop_eq_nil_of_le (by rw [buffer.size, hfull])]
  rfl

/-- If the pieces of a line write its packet, the piece that is taken for a command tells what
the line tells. -/
theorem LineRecord.gathered (h : LineRecord line packets) (hline : 0x0a ∉ line.dropLast)
    (hrecords : Records buffer (pieces line) packets) : Gathered line := by
  intro before piece after hsplit hpiece
  rw [hsplit] at hrecords
  cases h with
  | silent _ =>
      have hmem : piece ∈ (before ++ piece :: after).filter fun p => p.Sends :=
        List.mem_filter.mpr ⟨by simp, decide_eq_true hpiece⟩
      rw [List.length_eq_zero_iff.mp hrecords.length.symm] at hmem
      cases hmem
  | @sends packet tells =>
      obtain ⟨hnone, hnone'⟩ := hrecords.alone hpiece
      have hbefore := blank_before hsplit tells.head hnone
      refine ⟨hbefore, packet, ?_, tells⟩
      have hwhole := unindented_pieces hsplit hbefore hpiece.not_blank
      by_cases hafter : after = []
      · rw [hafter, List.flatMap_nil, List.append_nil] at hwhole
        rw [← hwhole]
        exact tells
      · -- The piece has no room behind its NUL, and reads no more bytes than the line.
        obtain ⟨buffer', opcode, bytes, packet', hpacket, hdenotes, hrecord⟩ :=
          hrecords.single hnone hpiece hnone'
        obtain rfl := List.singleton_inj.mp hpacket
        rw [buffer'.load_full (fgets_full hline hsplit hafter)] at hdenotes
        obtain ⟨opcode', hdenotes', _⟩ := tells
        rw [hwhole, List.append_assoc] at hdenotes'
        have hle := hdenotes.length_le hdenotes'
        exact tells_of_record hdenotes hrecord (Nat.le_of_lt_succ (hle.trans_lt packet.short))

end OneLine

/-! ### All lines -/

theorem Gathered.linewise {lines : List (List UInt8)} {buffer : Buffer} {packets : List Block}
    (h : ∀ line ∈ lines, Gathered line) (hnul : ∀ line ∈ lines, 0 ∉ line)
    (hrecords : Records buffer (lines.flatMap pieces) packets) : Linewise lines packets := by
  induction lines generalizing buffer packets with
  | nil =>
      cases hrecords
      exact .nil
  | cons line lines ih =>
      rw [List.forall_mem_cons] at h hnul
      rw [List.flatMap_cons] at hrecords
      obtain ⟨ps, qs, buffer', rfl, hfirst, hlater⟩ := hrecords.split
      exact .cons (h.1.lineRecord hnul.1 hfirst) (ih h.2 hnul.2 hlater)

/-- The pieces of all lines write at least the packets of the lines, and these alone only if
every line is told by one piece. -/
theorem Linewise.gathered {lines : List (List UInt8)} {buffer : Buffer} {packets qs : List Block}
    (h : Linewise lines qs) (hlines : ∀ line ∈ lines, 0x0a ∉ line.dropLast)
    (hrecords : Records buffer (lines.flatMap pieces) packets) :
    qs.length ≤ packets.length ∧ (qs = packets → ∀ line ∈ lines, Gathered line) := by
  induction h generalizing buffer packets with
  | nil => exact ⟨Nat.zero_le _, fun _ _ hmem => absurd hmem List.not_mem_nil⟩
  | @cons line lines ps qs first _ ih =>
      rw [List.forall_mem_cons] at hlines
      rw [List.flatMap_cons] at hrecords
      obtain ⟨ps', qs', buffer', rfl, hfirst, hlater⟩ := hrecords.split
      have hps := first.length_le hfirst
      obtain ⟨hqs, hall⟩ := ih hlines.2 hlater
      rw [List.length_append, List.length_append]
      refine ⟨Nat.add_le_add hps hqs, fun heq => ?_⟩
      have hlength := congrArg List.length heq
      rw [List.length_append, List.length_append] at hlength
      obtain ⟨rfl, rfl⟩ := List.append_inj heq (by omega)
      exact List.forall_mem_cons.mpr ⟨first.gathered hlines.1 hfirst, hall rfl⟩

/-- The output consists of the packets of the lines, one line at a time. -/
def ByLines (content out : List UInt8) : Prop :=
  ∃ packets, out = Block.encodeAll 0x01 packets ∧ Linewise (textLines content) packets

/-- A run that succeeds works line by line exactly if in every line the only piece that is taken
for a command is the first with anything in it, and tells what the line tells. -/
theorem main_byLines {program input output content : List UInt8} {w : State} (hnul : 0 ∉ content)
    (hrun : (main [program, input, output] ⟨.ok content, .ok ()⟩ w).1 = .ok ()) :
    ByLines content (main [program, input, output] ⟨.ok content, .ok ()⟩ w).2.out ↔
      ∀ line ∈ textLines content, Gathered line := by
  obtain ⟨processed, rest, packets, hlines, hrecords, hout, hcomplete, -⟩ :=
    processLines_recorded (fgets ⟨[], by decide⟩ content) { w with out := [] }
  change (main [program, input, output] ⟨.ok content, .ok ()⟩ w).2.out = _ at hout
  obtain rfl := hcomplete.mp hrun
  rw [List.append_nil, fgets_pieces] at hlines
  rw [List.nil_append] at hout
  rw [← hlines] at hrecords
  constructor
  · rintro ⟨qs, hqs, hlinewise⟩
    have hsame := congrArg (Block.decodeAll 0x01) (hqs.symm.trans hout)
    rw [Block.decodeAll_encodeAll, Block.decodeAll_encodeAll] at hsame
    exact (hlinewise.gathered (fun line => textLines_newline) hrecords).2 (Option.some.inj hsame)
  · intro hgathered
    exact ⟨packets, hout, Gathered.linewise hgathered
      (fun line hline hmem => hnul (mem_textLines hline hmem)) hrecords⟩

theorem zeros_length : (List.replicate 1024 (0 : UInt8)).length = 1024 := List.length_replicate

/-- A buffer of zeros, and nothing written. -/
def zeroed : State := ⟨⟨List.replicate 1024 0, zeros_length⟩, fun _ _ => 0, []⟩

/-- A reset command behind a comment. -/
def resetScript : List UInt8 :=
  [0x23, 0x53, 0x0a, 0x53, 0x65, 0x6e, 0x64, 0x5f, 0x20, 0x30, 0x78, 0x30, 0x63, 0x30, 0x33, 0x0a]

theorem main_byLines_reset :
    ByLines resetScript (main [[], [], []] ⟨.ok resetScript, .ok ()⟩ zeroed).2.out ↔
      ∀ line ∈ textLines resetScript, Gathered line :=
  main_byLines (by decide) (by decide +kernel)

/-- A comment of 1023 characters that goes on with a command on the same line. -/
def longComment : List UInt8 :=
  0x23 :: List.replicate 1022 0x78 ++
    [0x53, 0x65, 0x6e, 0x64, 0x5f, 0x20, 0x30, 0x78, 0x30, 0x63, 0x30, 0x33, 0x0a]

/-- The end of the comment is sent. -/
theorem main_longComment : 0 ∉ longComment ∧
    (main [[], [], []] ⟨.ok longComment, .ok ()⟩ zeroed).1 = .ok () ∧
    ¬ ByLines longComment (main [[], [], []] ⟨.ok longComment, .ok ()⟩ zeroed).2.out := by
  refine ⟨by decide +kernel, by decide +kernel, ?_⟩
  have hlines : textLines longComment = [longComment] := by decide +kernel
  have hout : (main [[], [], []] ⟨.ok longComment, .ok ()⟩ zeroed).2.out =
      [0x01, 0x03, 0x0c, 0x00] := by decide +kernel
  rintro ⟨packets, hpackets, hlinewise⟩
  rw [hlines] at hlinewise
  rw [hout] at hpackets
  cases hlinewise with
  | cons first later =>
      cases later
      cases first with
      | silent _ => cases hpackets
      | sends tells =>
          have hhead : (unindented longComment).head? = some 0x23 := by decide +kernel
          have hsends := tells.head
          rw [hhead] at hsends
          exact absurd hsends (by decide)

end Brfpatch
