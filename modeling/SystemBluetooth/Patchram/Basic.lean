import SystemBluetooth.Library.Effect
import SystemBluetooth.Library.Arrivals
import SystemBluetooth.Library.Memory

/-!
# The firmware download program

The host side of `brcm_patchram_plus`: one global buffer shared by events and file
bytes, the UART, the firmware file, the alarm and its handler. What the operating
system answers is part of the starting state, so a run is a function of it, and every
system call is recorded in `io` with its result.

`uart`, `fileReads`, `writes`, `ioctls` and `signals` hold the answers still to be
given. When `uart` runs out the program waits in `read`. An exhausted list of any of
the others means ordinary behaviour: file reads that are full unless the file ends,
writes that transfer everything, no further signal, files that cannot be opened.
-/

namespace Patchram

/-! ### Command templates and options -/

def hciReset : List UInt8 := [0x01, 0x03, 0x0c, 0x00]

def hciDownloadMinidriver : List UInt8 := [0x01, 0x2e, 0xfc, 0x00]

def hciWriteSleepMode : List UInt8 :=
  [0x01, 0x27, 0xfc, 0x0c, 0x01, 0x01, 0x01, 0x01, 0x01, 0x01, 0x01, 0x00, 0x00, 0x00, 0x00, 0x00]

/-- The termios constant for 115200 baud. -/
def B115200 : Nat := 0o10002

/-- The globals that the command line sets. A flag that is only ever 0 or 1 is a `Bool`. -/
structure Globals where
  uartFd : Int := -1
  hcdfileFd : Int := -1
  termiosBaudrate : Nat := 0
  bdaddrFlag : Bool := false
  enableLpm : Bool := false
  enableHci : Bool := false
  useBaudrateForDownload : Bool := false
  debug : Bool := false
  scopcm : Bool := false
  i2s : Bool := false
  no2bytes : Bool := false
  tosleep : Int := 0
  hciUpdateBaudRate : List UInt8 := [0x01, 0x18, 0xfc, 0x06, 0, 0, 0, 0, 0, 0]
  hciWriteBdAddr : List UInt8 := [0x01, 0x01, 0xfc, 0x06, 0, 0, 0, 0, 0, 0]
  hciWriteScoPcmInt : List UInt8 := [0x01, 0x1c, 0xfc, 0x05, 0, 0, 0, 0, 0]
  hciWritePcmDataFormat : List UInt8 := [0x01, 0x1e, 0xfc, 0x05, 0, 0, 0, 0, 0]
  hciWriteI2spcmInterfaceParam : List UInt8 := [0x01, 0x6d, 0xfc, 0x04, 0, 0, 0, 0]
  deriving DecidableEq

/-! ### System calls -/

/-- Who writes a command: the main flow or the SIGALRM handler. -/
inductive Caller where
  | main
  | handler
  deriving DecidableEq, Repr

/-- System calls with their results, and `event`, recorded where `read_event` returns
with the bytes its debug output dumps. -/
inductive Io where
  | write (caller : Caller) (frame : List UInt8) (count : Int)
  | readUart (i len : Int) (result : Arrival UInt8)
  | event (received : List UInt8)
  | readFile (i len : Int) (result : Arrival UInt8)
  | alarm (seconds : Nat)
  | tcsetattr (speed : Nat)
  | usleep (usec : Int)
  | ioctl (name : String) (result : Int)
  deriving DecidableEq, Repr

/-- How a file read goes: it transfers what it can, finds nothing, or fails. -/
inductive FileRead where
  | whole
  | nothing
  | failed
  deriving DecidableEq, Repr

structure World where
  config : Globals
  buffer : Int → UInt8
  /-- The speed in the `termios` structure, and the one the line is set to. -/
  termios : Nat
  tty : Nat
  /-- An alarm is armed. -/
  pending : Bool
  uart : List (Arrival UInt8)
  /-- What is left of the firmware file. -/
  file : List UInt8
  fileReads : List FileRead
  writes : List Int
  ioctls : List Int
  /-- At each point where a signal can arrive: does the armed alarm expire? -/
  signals : List Bool
  /-- Successive results of `open`: a descriptor and the content behind it. -/
  opens : List (Option (Nat × List UInt8))
  /-- The paths that have been opened, and with which of these results. -/
  openedPaths : List (List UInt8 × Option (Nat × List UInt8))
  /-- What locals hold before they are assigned. -/
  stack : Nat → UInt32
  /-- The property `ro.bt.bdaddr_path` and what a read of that file gives. -/
  bdaddrPath : List UInt8
  bdaddrFile : Arrival UInt8
  io : List Io

/-- The state a run starts in when nothing unusual is ahead: static memory is zero. -/
def World.start (config : Globals) (uart : List (Arrival UInt8)) (file : List UInt8) : World where
  config := config
  buffer := fun _ => 0
  termios := 0
  tty := 0
  pending := false
  uart := uart
  file := file
  fileReads := []
  writes := []
  ioctls := []
  signals := []
  opens := []
  openedPaths := []
  stack := fun _ => 0
  bdaddrPath := []
  bdaddrFile := .bytes []
  io := []

/-- Why a run ends: `exit`, or a call that does not return. -/
inductive Stop where
  | exited (status : Nat)
  | waiting
  deriving DecidableEq, Repr

abbrev Host := Effect World Stop

open Effect

def record (e : Io) : Host Unit := modify fun w => { w with io := w.io ++ [e] }

def alarm (seconds : Nat) : Host Unit :=
  modify fun w => { w with pending := seconds != 0, io := w.io ++ [.alarm seconds] }

/-- `write(uart_fd, buf, len)`; the number of bytes it transfers is not looked at. -/
def hciSendCmd (caller : Caller) (buf : List UInt8) : Host Unit :=
  modify fun w =>
    { w with
      writes := w.writes.tail
      io := w.io ++ [.write caller buf (w.writes.headD buf.length)] }

/-- The SIGALRM handler. -/
def expired : Host Unit := do
  hciSendCmd .handler hciReset
  alarm 4

/-- The handler runs for as long as the armed alarm expires again. -/
def runHandler : List Bool → World → World
  | [], w => { w with signals := [] }
  | false :: later, w => { w with signals := later }
  | true :: later, w => runHandler later (expired w).2

/-- A point of the main flow where a signal can be delivered. -/
def deliver : Host Unit :=
  modify fun w => if w.pending then runHandler w.signals w else w

/-- A system call of the main flow; a signal that is due is handled first. -/
def sys {α : Type} (call : Host α) : Host α := do
  deliver
  call

/-- `read(uart_fd, &buffer[i], len)`. -/
def readUart (i len : Int) : Host Int := sys do
  let w ← get
  match Arrivals.read len.toNat w.uart with
  | none => stop .waiting
  | some (result, rest) =>
      modify fun w =>
        { w with
          uart := rest
          buffer := Memory.store w.buffer i result.data
          io := w.io ++ [.readUart i len result] }
      return result.count

/-- The answer of the next file read of `len` bytes, and what is left of the file. -/
def fileAnswer (fileReads : List FileRead) (file : List UInt8) (len : Nat) :
    Arrival UInt8 × List UInt8 :=
  match fileReads.headD .whole with
  | .whole => (.bytes (file.take len), file.drop len)
  | .nothing => (.bytes [], file)
  | .failed => (.error, file)

/-- `read(hcdfile_fd, &buffer[i], len)`. -/
def readFile (i len : Int) : Host Int := sys do
  let w ← get
  let (result, rest) := fileAnswer w.fileReads w.file len.toNat
  modify fun w =>
    { w with
      file := rest
      fileReads := w.fileReads.tail
      buffer := Memory.store w.buffer i result.data
      io := w.io ++ [.readFile i len result] }
  return result.count

/-! ### Events and commands -/

/-- `while ((count = read(fd, &buffer[i], len)) < len) { i += count; len -= count; }`,
returning `i` and `count`. A read either waits, is the last one, or uses up an arrival,
so `fuel` above the number of arrivals is never exhausted. -/
def readLoop : Nat → Int → Int → Host (Int × Int)
  | 0, _, _ => stop .waiting
  | fuel + 1, i, len => do
      let count ← readUart i len
      if count < len then readLoop fuel (i + count) (len - count)
      else return (i, count)

def readFull (i len : Int) : Host (Int × Int) := do
  let fuel ← gets fun w => w.uart.length + 1
  readLoop fuel i len

def readEvent : Host Unit := do
  let (i, count) ← readFull 0 3
  let i := i + count
  let len ← gets fun w => (w.buffer 2).toNat
  let (i, count) ← readFull i len
  let received ← gets fun w => Memory.slice w.buffer 0 (count + i).toNat
  record (.event received)

/-- One command of the main flow and the event that follows it. -/
def exchange (command : List UInt8) : Host Unit := do
  sys (hciSendCmd .main command)
  readEvent

def procReset : Host Unit := do
  sys (hciSendCmd .main hciReset)
  sys (alarm 4)
  readEvent
  sys (alarm 0)

/-- `cfsetospeed`, `cfsetispeed` and `tcsetattr`. -/
def setSpeed (speed : Nat) : Host Unit :=
  modify fun w =>
    { w with termios := speed, tty := speed, io := w.io ++ [.tcsetattr speed] }

/-- The loop of `proc_patchram`. Each turn uses up a byte of the file or one of the
prescribed answers, so `fuel` above their number is never exhausted. -/
def downloadLoop : Nat → Host Unit
  | 0 => stop .waiting
  | fuel + 1 => do
      let count ← readFile 1 3
      when (count ≠ 0) do
        modify fun w => { w with buffer := Memory.store w.buffer 0 [0x01] }
        let len ← gets fun w => (w.buffer 3).toNat
        let _ ← readFile 4 len
        let frame ← gets fun w => Memory.slice w.buffer 0 (len + 4)
        exchange frame
        downloadLoop fuel

def download : Host Unit := do
  let fuel ← gets fun w => w.file.length + w.fileReads.length + 1
  downloadLoop fuel

def procPatchram : Host Unit := do
  exchange hciDownloadMinidriver
  let config ← gets World.config
  when (!config.no2bytes) do
    let _ ← readUart 0 2
  when (config.tosleep ≠ 0) do
    sys (record (.usleep config.tosleep))
  download
  when config.useBaudrateForDownload do
    sys (setSpeed B115200)
  procReset

def procBaudrate : Host Unit := do
  let config ← gets World.config
  exchange config.hciUpdateBaudRate
  sys (setSpeed config.termiosBaudrate)

def procBdaddr : Host Unit := do
  let config ← gets World.config
  exchange config.hciWriteBdAddr

def procEnableLpm : Host Unit := exchange hciWriteSleepMode

def procScopcm : Host Unit := do
  let config ← gets World.config
  exchange config.hciWriteScoPcmInt
  exchange config.hciWritePcmDataFormat

def procI2s : Host Unit := do
  let config ← gets World.config
  exchange config.hciWriteI2spcmInterfaceParam

def ioctl (name : String) : Host Int := sys do
  let result ← gets fun w => w.ioctls.headD 0
  modify fun w => { w with ioctls := w.ioctls.tail, io := w.io ++ [.ioctl name result] }
  return result

def procEnableHci : Host Unit := do
  let result ← ioctl "TIOCSETD"
  when (0 ≤ result) do
    let _ ← ioctl "HCIUARTSETPROTO"

/-- The line is flushed and made raw at its old speed, then set to 115200. -/
def initUart : Host Unit := do
  modify fun w => { w with termios := w.tty }
  let old ← gets World.termios
  sys (record (.tcsetattr old))
  sys (record (.tcsetattr old))
  sys (setSpeed B115200)

/-- `main` once the command line is parsed and the port is open. -/
def program : Host Unit := do
  initUart
  procReset
  let config ← gets World.config
  when config.useBaudrateForDownload do
    when (config.termiosBaudrate ≠ 0) procBaudrate
  when (config.hcdfileFd > 0) procPatchram
  when (config.termiosBaudrate ≠ 0) procBaudrate
  when config.bdaddrFlag procBdaddr
  when config.enableLpm procEnableLpm
  when config.scopcm procScopcm
  when config.i2s procI2s
  when config.enableHci do
    procEnableHci
    stop .waiting
  stop (.exited 0)

end Patchram
