import SystemBluetooth.Library.LittleEndian
import SystemBluetooth.Library.Scan
import SystemBluetooth.Patchram.Basic

/-!
# The command line

What `main` does before the UART is used. The options are given in the order in which
`getopt_long_only` returns them; each parser changes the globals and returns 0, returns 1,
or exits.
-/

namespace Patchram

open Effect

/-! ### Baud rates -/

def B230400 : Nat := 0o10003
def B460800 : Nat := 0o10004
def B500000 : Nat := 0o10005
def B576000 : Nat := 0o10006
def B921600 : Nat := 0o10007
def B1000000 : Nat := 0o10010
def B1152000 : Nat := 0o10011
def B1500000 : Nat := 0o10012
def B2000000 : Nat := 0o10013
def B2500000 : Nat := 0o10014
def B3000000 : Nat := 0o10015
def B3500000 : Nat := 0o10016
def B4000000 : Nat := 0o10017

structure BaudRate where
  baudRate : Nat
  termiosValue : Nat
  deriving DecidableEq

def baudRates : List BaudRate :=
  [⟨115200, B115200⟩, ⟨230400, B230400⟩, ⟨460800, B460800⟩, ⟨500000, B500000⟩,
   ⟨576000, B576000⟩, ⟨921600, B921600⟩, ⟨1000000, B1000000⟩, ⟨1152000, B1152000⟩,
   ⟨1500000, B1500000⟩, ⟨2000000, B2000000⟩, ⟨2500000, B2500000⟩, ⟨3000000, B3000000⟩,
   ⟨3500000, B3500000⟩, ⟨4000000, B4000000⟩]

/-- The value the rate is stored as, if it is supported. -/
def validateBaudrate (baudRate : Int) : Option Nat :=
  (baudRates.find? fun entry => (entry.baudRate : Int) = baudRate).map BaudRate.termiosValue

/-- The four bytes of the rate; they stay as they are for a rate of 0. -/
def brcmEncodeBaudRate (baudRate : Nat) (encodedBaud : List UInt8) : List UInt8 :=
  if baudRate = 0 then encodedBaud else LittleEndian.encode 4 baudRate

/-! ### Parsers -/

/-- A change of the globals. -/
def configure (f : Globals → Globals) : Host Unit :=
  modify fun w => { w with config := f w.config }

/-- `open`: the descriptor, or -1 if it fails, and what the file holds. -/
def openFile (path : List UInt8) : Host (Int × List UInt8) := do
  let result ← gets fun w => w.opens.headD none
  modify fun w =>
    { w with opens := w.opens.tail, openedPaths := w.openedPaths ++ [(path, result)] }
  match result with
  | none => return (-1, [])
  | some (fd, content) => return ((fd : Int), content)

/-- The next answer of `open` is used up, and noted with the path. -/
def World.afterOpen (w : World) (path : List UInt8) : World :=
  { w with
    opens := w.opens.tail
    openedPaths := w.openedPaths ++ [(path, w.opens.headD none)] }

theorem openFile_some (path : List UInt8) {w : World} {file : Nat × List UInt8}
    (h : w.opens.headD none = some file) :
    openFile path w = (.ok ((file.1 : Int), file.2), w.afterOpen path) := by
  rw [openFile, gets_bind_apply, modify_bind_apply, World.afterOpen, h]
  rfl

theorem openFile_none (path : List UInt8) {w : World} (h : w.opens.headD none = none) :
    openFile path w = (.ok (-1, []), w.afterOpen path) := by
  rw [openFile, gets_bind_apply, modify_bind_apply, World.afterOpen, h]
  rfl

theorem openFile_apply (path : List UInt8) (w : World) :
    ∃ file, openFile path w = (.ok file, w.afterOpen path) := by
  cases h : w.opens.headD none with
  | none => exact ⟨_, openFile_none path h⟩
  | some file => exact ⟨_, openFile_some path h⟩

/-- What follows the last dot. -/
def extension (name : List UInt8) : Option (List UInt8) :=
  if 0x2e ∈ name then some (name.reverse.takeWhile (· != 0x2e)).reverse else none

def hcd : List UInt8 := [0x68, 0x63, 0x64]

def parsePatchram (optarg : List UInt8) : Host Int :=
  match extension optarg with
  | none => stop (.exited 3)
  | some p => do
      when (p.map Scan.toLower ≠ hcd) (stop (.exited 4))
      let (fd, content) ← openFile optarg
      configure fun g => { g with hcdfileFd := fd }
      when (fd = -1) (stop (.exited 5))
      modify fun w => { w with file := content }
      return 0

def parseBaudrate (optarg : List UInt8) : Host Int := do
  let baudrate := Scan.atoi optarg
  match validateBaudrate baudrate with
  | none => pure ()
  | some value =>
      configure fun g =>
        { g with
          termiosBaudrate := value
          hciUpdateBaudRate := g.hciUpdateBaudRate.take 6 ++
            brcmEncodeBaudRate baudrate.toNat (g.hciUpdateBaudRate.drop 6) }
  return 0

/-- The address is written from its last byte to its first. A byte that is not converted
is what the array held before. -/
def parseBdaddr (optarg : List UInt8) : Host Int := do
  let found := Scan.separated (Scan.hex 2) 0x3a 6 optarg
  let stack ← gets World.stack
  let bdAddr := (List.range 6).map fun i => (found[5 - i]?).getD (stack i)
  configure fun g =>
    { g with
      hciWriteBdAddr := g.hciWriteBdAddr.take 4 ++ bdAddr.map UInt32.toUInt8
      bdaddrFlag := true }
  return 0

theorem parseBdaddr_apply (optarg : List UInt8) (w : World) :
    parseBdaddr optarg w = (.ok 0, { w with config :=
      { w.config with
        hciWriteBdAddr := w.config.hciWriteBdAddr.take 4 ++ ((List.range 6).map fun i =>
          ((Scan.separated (Scan.hex 2) 0x3a 6 optarg)[5 - i]?).getD (w.stack i)).map
            UInt32.toUInt8
        bdaddrFlag := true } }) := rfl

def parseEnableLpm : Host Int := do
  configure fun g => { g with enableLpm := true }
  return 0

def parseUseBaudrateForDownload : Host Int := do
  configure fun g => { g with useBaudrateForDownload := true }
  return 0

def parseEnableHci : Host Int := do
  configure fun g => { g with enableHci := true }
  return 0

def parseScopcm (optarg : List UInt8) : Host Int := do
  let param := (Scan.separated Scan.dec 0x2c 10 optarg).map UInt8.ofInt
  if param.length ≠ 10 then return 1
  else
    configure fun g =>
      { g with
        scopcm := true
        hciWriteScoPcmInt := g.hciWriteScoPcmInt.take 4 ++ param.take 5
        hciWritePcmDataFormat := g.hciWritePcmDataFormat.take 4 ++ param.drop 5 }
    return 0

def parseI2s (optarg : List UInt8) : Host Int := do
  let param := (Scan.separated Scan.dec 0x2c 4 optarg).map UInt8.ofInt
  if param.length ≠ 4 then return 1
  else
    configure fun g =>
      { g with
        i2s := true
        hciWriteI2spcmInterfaceParam := g.hciWriteI2spcmInterfaceParam.take 4 ++ param }
    return 0

def parseNo2bytes : Host Int := do
  configure fun g => { g with no2bytes := true }
  return 0

def parseTosleep (optarg : List UInt8) : Host Int := do
  let tosleep := Scan.atoi optarg
  configure fun g => { g with tosleep := tosleep }
  if tosleep ≤ 0 then return 1 else return 0

/-! ### The command line as a whole -/

/-- What `getopt_long_only` returns: a long option, `d`, or `?` for anything else. -/
inductive Opt where
  | patchram (optarg : List UInt8)
  | baudrate (optarg : List UInt8)
  | bdAddr (optarg : List UInt8)
  | enableLpm
  | enableHci
  | useBaudrateForDownload
  | scopcm (optarg : List UInt8)
  | i2s (optarg : List UInt8)
  | no2bytes
  | tosleep (optarg : List UInt8)
  | d
  | unknown
  deriving DecidableEq, Repr

/-- One turn of the option loop; for an unknown option the usage is printed. -/
def parse : Opt → Host Int
  | .patchram optarg => parsePatchram optarg
  | .baudrate optarg => parseBaudrate optarg
  | .bdAddr optarg => parseBdaddr optarg
  | .enableLpm => parseEnableLpm
  | .enableHci => parseEnableHci
  | .useBaudrateForDownload => parseUseBaudrateForDownload
  | .scopcm optarg => parseScopcm optarg
  | .i2s optarg => parseI2s optarg
  | .no2bytes => parseNo2bytes
  | .tosleep optarg => parseTosleep optarg
  | .d => do
      configure fun g => { g with debug := true }
      return 0
  | .unknown => pure 0

def parseOptions : List Opt → Host Int
  | [] => pure 0
  | option :: options => do
      let ret ← parse option
      if ret ≠ 0 then return ret else parseOptions options

/-- The port is opened if one is named; that it cannot be opened is found out later. -/
def openPort : Option (List UInt8) → Host Unit
  | none => pure ()
  | some port => do
      let (fd, _) ← openFile port
      configure fun g => { g with uartFd := fd }

/-- `port` is the first argument left after the options. -/
def parseCmdLine (options : List Opt) (port : Option (List UInt8)) : Host Int := do
  let ret ← parseOptions options
  if ret ≠ 0 then return 1
  else
    openPort port
    return 0

/-- Only in the Android build; elsewhere it is as if the property were empty. -/
def readDefaultBdaddr : Host Unit := do
  let path ← gets World.bdaddrPath
  when (path ≠ []) do
    let (fd, _) ← openFile path
    when (0 ≤ fd) do
      let result ← gets World.bdaddrFile
      when (result.count = 17) do
        let _ ← parseBdaddr result.data
        return ()

def main (options : List Opt) (port : Option (List UInt8)) : Host Unit := do
  readDefaultBdaddr
  let ret ← parseCmdLine options port
  when (ret ≠ 0) (stop (.exited 1))
  let uartFd ← gets fun w => w.config.uartFd
  when (uartFd < 0) (stop (.exited 2))
  program

/-- The port `/dev/ttyHS0`. -/
def portName : List UInt8 :=
  [0x2f, 0x64, 0x65, 0x76, 0x2f, 0x74, 0x74, 0x79, 0x48, 0x53, 0x30]

end Patchram
