import SystemBluetooth.Brfpatch.Grammar
import SystemBluetooth.Library.Block

/-!
# Well-formed scripts

Every well-formed script is compiled: the output is a sequence of command packets, one for
each command of the script, in order, with its opcode and its bytes.
-/

namespace Brfpatch

open Effect

inductive ScriptLine where
  | blank (spaces : List Blank)
  | note (indent : List Blank) (first : UInt8) (kind : first = 0x23 ∨ first = 0x57)
      (rest : List UInt8) (inLine : 0x0a ∉ rest)
  | send (command : Command)

namespace ScriptLine

def text : ScriptLine → List UInt8
  | blank spaces => blanks spaces
  | note indent first _ rest _ => blanks indent ++ first :: rest
  | send command => command.text

def command : ScriptLine → Option Command
  | send command => some command
  | _ => none

/-- What the program has room for: in its line buffer, and in the length byte. -/
structure Fits (line : ScriptLine) : Prop where
  text : line.text.length ≤ 1022
  bytes : ∀ c, line.command = some c → c.bytes.length ≤ 255

end ScriptLine

/-- Lines with a newline, and at most one more without. -/
structure Script where
  lines : List ScriptLine
  last : Option ScriptLine
  fits : ∀ line ∈ lines ++ last.toList, line.Fits

def Script.text (script : Script) : List UInt8 :=
  script.lines.flatMap (fun line => line.text ++ [0x0a]) ++
    script.last.toList.flatMap ScriptLine.text

def Script.commands (script : Script) : List Command :=
  (script.lines ++ script.last.toList).filterMap ScriptLine.command

/-! ### What `fgets` delivers -/

/-- Characters other than a newline are gathered as long as they fit. -/
theorem fgets_gathers {text : List UInt8} (htext : 0x0a ∉ text) (input : List UInt8)
    {cur : List UInt8} (hcur : cur.length < 1023) (hlen : (cur ++ text).length < 1023) :
    fgets ⟨cur, hcur⟩ (text ++ input) = fgets ⟨cur ++ text, hlen⟩ input := by
  induction text generalizing cur with
  | nil => simp
  | cons c text ih =>
      have hc : c ≠ 0x0a := fun h => htext (h ▸ List.mem_cons_self)
      have hmore : ((cur ++ [c]) ++ text).length < 1023 := by simpa using hlen
      have hnext : (cur ++ [c]).length < 1023 := by
        rw [List.length_append] at hmore
        omega
      rw [List.cons_append, fgets, dif_pos ⟨hc, hnext⟩,
        ih (fun h => htext (List.mem_cons_of_mem c h)) hnext hmore]
      simp

/-- A line is delivered with its newline. -/
theorem fgets_line {text : List UInt8} (htext : 0x0a ∉ text) (input : List UInt8)
    {cur : List UInt8} (hcur : cur.length < 1023) (hlen : (cur ++ text).length ≤ 1022) :
    ∃ line : Line, line.bytes = cur ++ text ++ [0x0a] ∧
      fgets ⟨cur, hcur⟩ (text ++ 0x0a :: input) = line :: fgets ⟨[], by decide⟩ input := by
  rw [fgets_gathers htext _ hcur (Nat.lt_succ_of_le hlen), fgets, dif_neg (by simp)]
  exact ⟨_, rfl, rfl⟩

/-- What is left at the end of the file is delivered as it is. -/
theorem fgets_last {text : List UInt8} (htext : 0x0a ∉ text) {cur : List UInt8}
    (hcur : cur.length < 1023) (hlen : (cur ++ text).length ≤ 1022) :
    (cur ++ text = [] ∧ fgets ⟨cur, hcur⟩ text = []) ∨
      ∃ line : Line, line.bytes = cur ++ text ∧ fgets ⟨cur, hcur⟩ text = [line] := by
  have hgathers := fgets_gathers htext [] hcur (Nat.lt_succ_of_le hlen)
  rw [List.append_nil] at hgathers
  rw [hgathers, fgets]
  by_cases hnil : cur ++ text = []
  · exact Or.inl ⟨hnil, if_pos hnil⟩
  · exact Or.inr ⟨_, rfl, if_neg hnil⟩

theorem ScriptLine.inLine (line : ScriptLine) : 0x0a ∉ line.text := by
  cases line with
  | blank spaces => exact blanks_inLine spaces
  | send command => exact command.inLine
  | note indent first kind rest inLine =>
      have hfirst : first ≠ 0x0a := by rcases kind with rfl | rfl <;> decide
      simp [ScriptLine.text, blanks_inLine, hfirst.symm, inLine]

/-! ### Running the lines -/

/-- What a packet says: its opcode, the low byte first, and its data. -/
def meaning (packet : Block) : Nat × List UInt8 :=
  (LittleEndian.decode [packet.first, packet.second], packet.payload)

/-- What a command says. -/
def Command.meaning (c : Command) : Nat × List UInt8 := (number c.opcode, c.bytes)

/-- A record that is not too long is a packet. -/
theorem record_packet {c : Command} {opcode : UInt32} (hopcode : opcode.toNat = number c.opcode)
    (hbytes : c.bytes.length ≤ 255) : ∃ packet : Block,
      record opcode c.bytes = Block.encodeAll 0x01 [packet] ∧ meaning packet = c.meaning := by
  have hlt : number c.opcode < 256 ^ 2 := by
    have h := number_lt c.opcode
    rwa [c.four] at h
  have hlen : (UInt8.ofNat c.bytes.length).toNat = c.bytes.length :=
    UInt8.toNat_ofNat_of_lt' (Nat.lt_succ_of_le hbytes)
  have hnarrow : opcode.toUInt16.toNat = number c.opcode := by
    rw [UInt32.toNat_toUInt16, hopcode]
    exact Nat.mod_eq_of_lt hlt
  refine ⟨⟨UInt8.ofNat (number c.opcode), UInt8.ofNat (number c.opcode / 256), c.bytes,
    Nat.lt_succ_of_le hbytes⟩, ?_, ?_⟩
  · rw [record, hnarrow, hlen, List.take_length]
    simp [Block.encodeAll, Block.encode, Block.size, LittleEndian.encode]
  · have hdecode := LittleEndian.decode_encode_of_lt hlt
    exact Prod.ext hdecode rfl

/-- The line as it stands in the buffer, up to the bytes that earlier lines have left. -/
theorem load_bytes (buffer : Buffer) {line : Line} {text ending : List UInt8}
    (hline : line.bytes = text ++ ending) (hending : ending = [] ∨ ending = [0x0a]) :
    ∃ tail, Ends tail ∧ (buffer.load line).bytes = text ++ tail := by
  refine ⟨ending ++ 0 :: buffer.bytes.drop (line.bytes.length + 1), ⟨ending, _, rfl, ?_⟩, ?_⟩
  · rcases hending with rfl | rfl <;> simp
    decide
  · simp [Buffer.load, hline]

theorem dropWhile_blanks (bs : List Blank) {c : UInt8} (hc : Scan.isSpace c = false)
    (s : List UInt8) : (blanks bs ++ c :: s).dropWhile Scan.isSpace = c :: s := by
  rw [List.dropWhile_append_of_pos (blanks_space bs), List.dropWhile_cons_of_neg (by simp [hc])]

/-- The packets of the commands have been written. -/
def Wrote (commands : List Command) (w v : State) : Prop :=
  ∃ packets, v.out = w.out ++ Block.encodeAll 0x01 packets ∧
    packets.map meaning = commands.map Command.meaning

theorem Wrote.none (w : State) : Wrote [] w w := ⟨[], by simp [Block.encodeAll], rfl⟩

theorem Wrote.append {as bs : List Command} {w u v : State} (first : Wrote as w u)
    (second : Wrote bs u v) : Wrote (as ++ bs) w v := by
  obtain ⟨ps, hout, hps⟩ := first
  obtain ⟨qs, hout', hqs⟩ := second
  refine ⟨ps ++ qs, ?_, by rw [List.map_append, List.map_append, hps, hqs]⟩
  rw [hout', hout, List.append_assoc, Block.encodeAll_append]

/-- The packet of the line is written, if it sends a command. -/
theorem dispatch_line {l : ScriptLine} (hfits : l.Fits) {tail : List UInt8} (htail : Ends tail)
    (hsize : (l.text ++ tail).length = 1024) (w : State) :
    ∃ v, dispatch (l.text ++ tail) w = (.ok (), v) ∧ Wrote l.command.toList w v := by
  cases l with
  | blank spaces =>
      obtain ⟨ds, s, htext, hds⟩ := htail.blanks spaces
      have hskip : (blanks spaces ++ tail).dropWhile Scan.isSpace = 0 :: s := by
        rw [htext, List.dropWhile_append_of_pos hds, List.dropWhile_cons_of_neg (by decide)]
      refine ⟨w, ?_, .none w⟩
      simp only [dispatch, ScriptLine.text, hskip]
      rfl
  | note indent first kind rest inLine =>
      have hfirst : Scan.isSpace first = false := by rcases kind with rfl | rfl <;> decide
      have hskip : (blanks indent ++ first :: rest ++ tail).dropWhile Scan.isSpace =
          first :: (rest ++ tail) := by
        rw [List.append_assoc]
        exact dropWhile_blanks indent hfirst _
      refine ⟨w, ?_, .none w⟩
      simp only [dispatch, ScriptLine.text, hskip]
      rcases kind with rfl | rfl <;> rfl
  | send c =>
      obtain ⟨opcode, hdenotes, hopcode⟩ := c.denotes htail
      obtain ⟨packet, hpacket, hmeaning⟩ := record_packet hopcode (hfits.bytes c rfl)
      have hskip : (c.text ++ tail).dropWhile Scan.isSpace = c.body ++ tail := by
        rw [Command.text, List.append_assoc]
        exact dropWhile_blanks c.indent (by decide) _
      have hshort : (c.body ++ tail).length ≤ dataSize := by
        rw [← hskip]
        exact (List.dropWhile_sublist _).length_le.trans (Nat.le_of_eq hsize)
      have hrun : dispatch (c.text ++ tail) w = (.ok (),
          { w with stack := fun n => w.stack (n + 1), out := w.out ++ record opcode c.bytes }) := by
        simp only [dispatch, hskip]
        exact (processLine_eq_ok hshort).mpr ⟨opcode, c.bytes, hdenotes, rfl⟩
      refine ⟨_, hrun, [packet], congrArg (w.out ++ ·) hpacket, ?_⟩
      simp [hmeaning, ScriptLine.command]

/-- One turn of the loop. -/
theorem processLines_line {l : ScriptLine} (hfits : l.Fits) {line : Line} {ending : List UInt8}
    (hline : line.bytes = l.text ++ ending) (hending : ending = [] ∨ ending = [0x0a])
    (lines : List Line) (w : State) : ∃ v,
      processLines (line :: lines) w = processLines lines v ∧ Wrote l.command.toList w v := by
  obtain ⟨tail, htail, hbuffer⟩ := load_bytes w.buffer hline hending
  have hsize : (l.text ++ tail).length = 1024 := by
    rw [← hbuffer]
    exact (w.buffer.load line).size
  obtain ⟨v, hrun, hwrote⟩ :=
    dispatch_line hfits htail hsize { w with buffer := w.buffer.load line }
  refine ⟨v, ?_, hwrote⟩
  rw [processLines, modify_bind_apply, gets_bind_apply]
  change (dispatch (w.buffer.load line).bytes >>= _) _ = _
  rw [hbuffer]
  exact bind_ok hrun

/-- The last line, without a newline; an empty one is not delivered at all. -/
theorem processLines_last {l : ScriptLine} (hfits : l.Fits) (w : State) : ∃ v,
    processLines (fgets ⟨[], by decide⟩ l.text) w = (.ok (), v) ∧ Wrote l.command.toList w v := by
  obtain ⟨hnil, hlines⟩ | ⟨line, hline, hlines⟩ :=
    fgets_last l.inLine (show [].length < 1023 by decide) hfits.text
  · have hnone : l.command = none := by
      cases l with
      | blank spaces => rfl
      | note indent first kind rest inLine => rfl
      | send c => simp [ScriptLine.text, Command.text, Command.body] at hnil
    exact ⟨w, by rw [hlines]; rfl, by rw [hnone]; exact .none w⟩
  · have hwhole : line.bytes = l.text ++ [] := by simpa using hline
    obtain ⟨v, hrun, hwrote⟩ := processLines_line hfits hwhole (Or.inl rfl) [] w
    exact ⟨v, by rw [hlines, hrun]; rfl, hwrote⟩

/-- The packets of all lines are written one after the other. -/
theorem processLines_script (lines : List ScriptLine) (last : Option ScriptLine)
    (hfits : ∀ l ∈ lines ++ last.toList, l.Fits) (w : State) : ∃ v,
      processLines (fgets ⟨[], by decide⟩ (lines.flatMap (fun line => line.text ++ [0x0a]) ++
        last.toList.flatMap ScriptLine.text)) w = (.ok (), v) ∧
        Wrote ((lines ++ last.toList).filterMap ScriptLine.command) w v := by
  induction lines generalizing w with
  | nil =>
      cases last with
      | none => exact ⟨w, rfl, .none w⟩
      | some l =>
          obtain ⟨v, hrun, hwrote⟩ := processLines_last (hfits l (by simp)) w
          refine ⟨v, by simpa using hrun, ?_⟩
          cases hcommand : l.command <;> simpa [hcommand] using hwrote
  | cons l lines ih =>
      have hl := hfits l List.mem_cons_self
      obtain ⟨line, hline, hlines⟩ := fgets_line l.inLine
        (lines.flatMap (fun line => line.text ++ [0x0a]) ++ last.toList.flatMap ScriptLine.text)
        (show [].length < 1023 by decide) hl.text
      obtain ⟨u, hturn, hfirst⟩ := processLines_line hl hline (Or.inr rfl) _ w
      obtain ⟨v, hrun, hrest⟩ := ih (fun l' h => hfits l' (List.mem_cons_of_mem l h)) u
      refine ⟨v, ?_, ?_⟩
      · rw [List.flatMap_cons, List.append_assoc, List.append_assoc, List.singleton_append, hlines,
          hturn, hrun]
      · have hall := hfirst.append hrest
        cases hcommand : l.command <;> simpa [hcommand] using hall

/-- A well-formed script is compiled to one packet for each command, in order, with the
opcode and the bytes of the command. -/
theorem main_encodes (script : Script) (program input output : List UInt8) (w : State) :
    ∃ v packets, main [program, input, output] ⟨.ok script.text, .ok ()⟩ w = (.ok (), v) ∧
      Block.decodeAll 0x01 v.out = some packets ∧
      packets.map meaning = script.commands.map Command.meaning := by
  obtain ⟨v, hrun, packets, hout, hpackets⟩ :=
    processLines_script script.lines script.last script.fits { w with out := [] }
  refine ⟨v, packets, hrun, ?_, hpackets⟩
  rw [hout, List.nil_append, Block.decodeAll_encodeAll]

end Brfpatch
