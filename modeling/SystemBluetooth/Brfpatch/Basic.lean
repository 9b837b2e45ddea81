import SystemBluetooth.Library.Effect
import SystemBluetooth.Library.LittleEndian
import SystemBluetooth.Library.Memory
import SystemBluetooth.Library.Scan

/-!
# The script compiler

`brfpatch` reads a script line by line and writes one H4 command packet for each line that
sends a command. A pointer into the line buffer is the list of the bytes from there to the
end of the buffer: behind the NUL of a line stands what earlier lines have left, and a read
behind the last byte is an `overrun`. So is a store outside of the 1024 data bytes.
-/

namespace Brfpatch

open Effect

/-- How a run ends early: after the usage, after a message of `FAILIF` with the string it
prints, or because the behaviour is undefined. -/
inductive Halt where
  | usage
  | failed (message : String) (string : List UInt8)
  | overrun
  deriving DecidableEq, Repr

/-- The string at a pointer. -/
def string (buf : List UInt8) : List UInt8 := buf.takeWhile (· != 0)

def failIf (p : Prop) [Decidable p] (message : String) (buffer : List UInt8) : Except Halt Unit :=
  if p then .error (.failed message (string buffer)) else .ok ()

/-- The message that names the line of the source. -/
def errorParsing (line : Nat) : String := "Error parsing (" ++ toString line ++ "): "

/-- The array of data bytes and the offset of `dp` in it. -/
structure Data where
  cells : Int → UInt8
  dp : Nat

def dataSize : Nat := 1024

/-! ### Parsing a line -/

/-- Beyond the next white space; `none` if the end of the string is reached. -/
def advance (buf : List UInt8) : Except Halt (Option (List UInt8)) :=
  let b := (buf.dropWhile fun c => c != 0 && !Scan.isSpace c).dropWhile Scan.isSpace
  match b with
  | [] => .error .overrun
  | c :: _ => .ok (if c = 0 then none else some b)

/-- `FAILIF(sscanf(buf, "%0<width>x", dp) != 1, ..)`: four bytes are stored. -/
def scan (buffer : List UInt8) (line width : Nat) (buf : List UInt8) (dp : Nat)
    (cells : Int → UInt8) : Except Halt (Int → UInt8) :=
  if 0 ∉ buf then .error .overrun
  else match Scan.hex width buf with
    | none => .error (.failed (errorParsing line) (string buffer))
    | some (value, _) =>
        if dp + 4 ≤ dataSize then
          .ok (Memory.store cells dp (LittleEndian.encode 4 value.toNat))
        else .error .overrun

/-- `case '"'`, from behind the quotation mark. -/
def quoted (buffer : List UInt8) : List UInt8 → Data → Except Halt (List UInt8 × Data)
  | [], _ => .error .overrun
  | c :: s, data =>
      if c = 0x22 ∨ c = 0 then .ok (c :: s, data)
      else do
        failIf (data.dp > dataSize) "Too much data: " buffer
        let cells ← scan buffer 99 2 (c :: s) data.dp data.cells
        match s with
        | _ :: next :: rest =>
            if next = 0x3a then quoted buffer rest ⟨cells, data.dp + 1⟩
            else quoted buffer (next :: rest) ⟨cells, data.dp + 1⟩
        | _ => .error .overrun

/-- The cases of a literal that one scan reads: `n` bytes from twice as many digits. -/
def digits (buffer : List UInt8) (line n : Nat) (buf : List UInt8) (data : Data) :
    Except Halt (List UInt8 × Data) := do
  let cells ← scan buffer line (2 * n) buf data.dp data.cells
  return (buf.drop (2 * n), ⟨cells, data.dp + n⟩)

/-- `case 16`: the first half goes behind the second. -/
def digits16 (buffer buf : List UInt8) (data : Data) : Except Halt (List UInt8 × Data) := do
  let cells ← scan buffer 145 8 buf (data.dp + 4) data.cells
  let cells ← scan buffer 149 8 (buf.drop 8) data.dp cells
  return (buf.drop 16, ⟨cells, data.dp + 8⟩)

/-- `case '0'`, from behind the digit. -/
def literal (buffer : List UInt8) : List UInt8 → Data → Except Halt (List UInt8 × Data)
  | [], _ => .error .overrun
  | c :: buf, data => do
      failIf (c ≠ 0x78) "Error parsing: " buffer
      if buf.all Scan.isAlnum then .error .overrun
      else match (buf.takeWhile Scan.isAlnum).length with
      | 2 => digits buffer 120 1 buf data
      | 4 => digits buffer 126 2 buf data
      | 6 => digits buffer 132 3 buf data
      | 8 => digits buffer 138 4 buf data
      | 16 => digits16 buffer buf data
      | _ => .error (.failed (errorParsing 154) (string buffer))

/-- `switch (*buf)` for one argument. -/
def argument (buffer : List UInt8) : List UInt8 → Data → Except Halt (List UInt8 × Data)
  | [], _ => .error .overrun
  | 0x22 :: s, data => quoted buffer s data
  | 0x30 :: s, data => literal buffer s data
  | _, _ => .error (.failed (errorParsing 158) (string buffer))

/-- `while (!advance(&buf))`. Each turn moves the pointer, so `fuel` above the number of
bytes ahead is never exhausted. -/
def arguments (buffer : List UInt8) : Nat → List UInt8 → Data → Except Halt Data
  | 0, _, _ => .error .overrun
  | fuel + 1, buf, data => do
      match ← advance buf with
      | none => return data
      | some b =>
          let (rest, data) ← argument buffer b data
          arguments buffer fuel rest data

/-! ### The program -/

/-- The buffer that `fgets` fills. -/
structure Buffer where
  bytes : List UInt8
  size : bytes.length = 1024

/-- What one call of `fgets` delivers. -/
structure Line where
  bytes : List UInt8
  short : bytes.length < 1024

/-- A line and its NUL overwrite the front of the buffer. -/
def Buffer.load (buffer : Buffer) (line : Line) : Buffer where
  bytes := line.bytes ++ 0 :: buffer.bytes.drop (line.bytes.length + 1)
  size := by
    have hshort := line.short
    simp [buffer.size]
    omega

/-- The calls of `fgets`: lines with their newline, cut where they are too long. -/
def fgets : {cur : List UInt8 // cur.length < 1023} → List UInt8 → List Line
  | ⟨cur, hcur⟩, [] => if cur = [] then [] else [⟨cur, Nat.lt_succ_of_lt hcur⟩]
  | ⟨cur, hcur⟩, c :: input =>
      have hline : (cur ++ [c]).length < 1024 := by
        rw [List.length_append, List.length_singleton]
        omega
      if h : c ≠ 0x0a ∧ (cur ++ [c]).length < 1023 then fgets ⟨cur ++ [c], h.2⟩ input
      else ⟨cur ++ [c], hline⟩ :: fgets ⟨[], by decide⟩ input

structure State where
  buffer : Buffer
  /-- What the array of data bytes holds before each call of `process_line`. -/
  stack : Nat → Int → UInt8
  /-- What is written to the output file. -/
  out : List UInt8

abbrev Tool := Effect State Halt

def dumpRecord (opcode : UInt16) (len : UInt8) (data : Int → UInt8) : Tool Unit :=
  modify fun w =>
    { w with
      out := w.out ++ 0x01 :: LittleEndian.encode 2 opcode.toNat ++
        len :: Memory.slice data 0 len.toNat }

/-- `sscanf(buf, "0x%04x\n", &opcode) != 1`. -/
def scanOpcode (buffer buf : List UInt8) : Except Halt UInt32 :=
  if 0 ∉ buf then .error .overrun
  else match buf with
    | 0x30 :: 0x78 :: digits =>
        match Scan.hex 4 digits with
        | some (opcode, _) => .ok opcode
        | none => .error (.failed "Could not find opcode in: " (string buffer))
    | _ => .error (.failed "Could not find opcode in: " (string buffer))

def parseLine (cells : Int → UInt8) (buf buffer : List UInt8) : Except Halt (UInt32 × Data) := do
  failIf (buf.take 5 ≠ [0x53, 0x65, 0x6e, 0x64, 0x5f]) "Not expecting: " buffer
  match ← advance buf with
  | none => .error (.failed "Could not find opcode in: " (string buffer))
  | some buf =>
      let opcode ← scanOpcode buffer buf
      let data ← arguments buffer (buf.length + 1) buf ⟨cells, 0⟩
      return (opcode, data)

/-- The offset of `dp` is narrowed to the length byte. -/
def processLine (buf buffer : List UInt8) : Tool Unit := do
  let cells ← gets fun w => w.stack 0
  modify fun w => { w with stack := fun n => w.stack (n + 1) }
  let (opcode, data) ← lift (parseLine cells buf buffer)
  dumpRecord opcode.toUInt16 (UInt8.ofNat data.dp) data.cells

/-- `switch (*buf)`, behind the white space at the start of the line. -/
def dispatch (buffer : List UInt8) : Tool Unit :=
  match buffer.dropWhile Scan.isSpace with
  | [] => stop .overrun
  | 0x53 :: buf => processLine (0x53 :: buf) buffer
  | 0x57 :: _ => pure ()
  | 0x23 :: _ => pure ()
  | 0x00 :: _ => pure ()
  | _ => stop (.failed "Don't know what to do with: " (string buffer))

/-- `while (fgets(buffer, 1024, file_in) != NULL)`. -/
def processLines : List Line → Tool Unit
  | [] => pure ()
  | line :: lines => do
      modify fun w => { w with buffer := w.buffer.load line }
      let buffer ← gets fun w => w.buffer.bytes
      dispatch buffer
      processLines lines

/-- The two calls of `fopen`: the content of the file to read, or why a file cannot be
opened. -/
structure Files where
  input : Except (List UInt8) (List UInt8)
  output : Except (List UInt8) Unit

def couldNotOpen (name error : List UInt8) : Tool Unit :=
  stop (.failed "Could not open " (name ++ [0x3a, 0x20] ++ error))

/-- The output file is emptied when it is opened. -/
def main (argv : List (List UInt8)) (files : Files) : Tool Unit :=
  match argv with
  | [_, input, output] =>
      match files.input, files.output with
      | .error error, _ => couldNotOpen input error
      | .ok _, .error error => couldNotOpen output error
      | .ok content, .ok _ => do
          modify fun w => { w with out := [] }
          processLines (fgets ⟨[], by decide⟩ content)
  | _ => stop .usage

end Brfpatch
