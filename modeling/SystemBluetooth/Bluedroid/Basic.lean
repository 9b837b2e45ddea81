import SystemBluetooth.Library.Effect
import Mathlib.Data.List.Basic

/-!
# The Bluetooth switch

`bt_enable`, `bt_disable` and `bt_is_enabled`, with the rfkill node they look up once
and remember. What every external call answers is part of the starting state, one
sequence of answers for each kind of call: `none` where the call does what it is for,
and an error number where it fails. Calls are recorded in `io` with their results.

A function with an `out:` label is a computation that returns, or stops with, the locals
its exit looks at; `merge` joins the two ways to get there.
-/

namespace Bluedroid

open Effect

abbrev Errno := Nat

def EALREADY : Errno := 114

/-- Which of the preprocessor variants is compiled. -/
structure Build where
  /-- `BLUETOOTH_DOES_NOT_USE_RFKILL` is not defined. -/
  rfkill : Bool
  /-- `BLUETOOTH_HCIATTACH_USING_PROPERTY` is defined. -/
  hciattachUsingProperty : Bool
  deriving DecidableEq, Repr

/-- A directory `/sys/class/rfkill/rfkill<id>`: the content of `type` and of `state`. -/
structure Node where
  type : List Char
  state : Char
  deriving DecidableEq, Repr

/-- What the calls act on. The nodes are those with an id below the length of the list;
`none` is a gap in the numbering. -/
structure Device where
  nodes : List (Option Node)
  hciUp : Bool
  bluetoothd : Bool
  hciattach : Bool
  /-- The property `bluetooth.hciattach`. -/
  hciattachProperty : Bool
  deriving DecidableEq, Repr

/-- The files that are opened: `type` and `state` of a node. -/
inductive Path where
  | type (id : Nat)
  | state (id : Nat)
  deriving DecidableEq, Repr

inductive Mode where
  | read
  | write
  deriving DecidableEq, Repr

inductive Service where
  | hciattach
  | bluetoothd
  deriving DecidableEq, Repr

/-- The properties that are set: `ctl.start`, `ctl.stop` and `bluetooth.hciattach`. -/
inductive Property where
  | start (service : Service)
  | stop (service : Service)
  | hciattach (value : Bool)
  deriving DecidableEq, Repr

inductive Request where
  | devUp
  | devDown
  | getDevInfo
  deriving DecidableEq, Repr

/-- The external calls, by what they ask for. -/
inductive Call where
  | openFile (path : Path) (mode : Mode)
  | readFile (path : Path)
  | writeFile (path : Path) (value : Char)
  | propertySet (property : Property)
  | socket
  | ioctl (request : Request)
  deriving DecidableEq, Repr

/-- A call made, with the number it returns, or a descriptor closed. -/
inductive Io where
  | made (call : Call) (result : Int)
  | close (fd : Int)
  | usleep (usec : Nat)
  deriving DecidableEq, Repr

/-- The successive answers to each kind of call. -/
abbrev Answers := Call → Nat → Option Errno

structure World where
  device : Device
  rfkillId : Int
  rfkillStatePath : Option Path
  answers : Answers
  /-- The successive descriptors that `open` and `socket` return. -/
  descriptors : Nat → Nat
  io : List Io

/-! ### External calls -/

section Calls

variable {ε : Type}

/-- The next answers with the first one to `call` used up. -/
def Answers.next (answers : Answers) (call : Call) : Answers := fun other n =>
  if other = call then answers other (n + 1) else answers other n

/-- Make a call: its answer decides between failure and the given effect. -/
def make (call : Call) (perform : World → Option Errno → Int × Device) : Effect World ε Int := do
  let w ← get
  let (result, device) := perform w (w.answers call 0)
  modify fun w =>
    { w with
      device := device
      answers := w.answers.next call
      io := w.io ++ [.made call result] }
  return result

def Device.node (d : Device) (id : Nat) : Option Node := (d.nodes[id]?).join

def Device.setState (d : Device) (id : Nat) (value : Char) : Device :=
  { d with nodes := d.nodes.modify id fun node => node.map fun n => { n with state := value } }

def Device.setProperty (d : Device) : Property → Device
  | .start .hciattach => { d with hciattach := true }
  | .stop .hciattach => { d with hciattach := false }
  | .start .bluetoothd => { d with bluetoothd := true }
  | .stop .bluetoothd => { d with bluetoothd := false }
  | .hciattach value => { d with hciattachProperty := value }

/-- The node that a file belongs to. -/
def Path.id : Path → Nat
  | type id => id
  | state id => id

/-- The next descriptor, when a call that returns one succeeds. -/
def descriptor (call : Call) (succeeds : World → Bool) : Effect World ε Int := do
  let fd ← make call fun w answer =>
    (if answer = none ∧ succeeds w then (w.descriptors 0 : Int) else -1, w.device)
  when (0 ≤ fd) do
    modify fun w => { w with descriptors := fun n => w.descriptors (n + 1) }
  return fd

/-- `open(path, mode)`. A null path and a path of no node fail. -/
def openFile (path : Option Path) (mode : Mode) : Effect World ε Int :=
  match path with
  | none => return -1
  | some path => descriptor (.openFile path mode) fun w => (w.device.node path.id).isSome

def closeFile (fd : Int) : Effect World ε Unit :=
  modify fun w => { w with io := w.io ++ [.close fd] }

def writeFile (path : Path) (value : Char) : Effect World ε Int :=
  make (.writeFile path value) fun w answer =>
    if answer = none then (1, w.device.setState path.id value) else (-1, w.device)

def propertySet (property : Property) : Effect World ε Int :=
  make (.propertySet property) fun w answer =>
    if answer = none then (0, w.device.setProperty property) else (-1, w.device)

/-- `ioctl(sock, HCIDEVUP, HCI_DEV_ID)`, with `errno`. The device is up afterwards if the
call succeeds, and also if it reports that the device is up already. -/
def devUp : Effect World ε (Int × Errno) := do
  let w ← get
  let answer := if w.device.hciUp then some ((w.answers (.ioctl .devUp) 0).getD EALREADY)
    else w.answers (.ioctl .devUp) 0
  let ret ← make (.ioctl .devUp) fun w _ =>
    (if answer = none then 0 else -1,
      if answer = none ∨ answer = some EALREADY then { w.device with hciUp := true }
      else w.device)
  return (ret, answer.getD 0)

def devDown : Effect World ε Int :=
  make (.ioctl .devDown) fun w answer =>
    if answer = none then (0, { w.device with hciUp := false }) else (-1, w.device)

def createHciSock : Effect World ε Int := descriptor .socket fun _ => true

def usleep (usec : Nat) : Effect World ε Unit :=
  modify fun w => { w with io := w.io ++ [.usleep usec] }

end Calls

/-! ### rfkill -/

section Rfkill

variable {ε : Type}

/-- What the files of a node contain. -/
def Path.content (node : Node) : Path → List Char
  | type _ => node.type
  | state _ => [node.state]

/-- `read` of the first `n` characters of a file: how many there are, and which. -/
def readFile (path : Path) (n : Nat) : Effect World ε (Int × List Char) := do
  let content ← gets fun w => (w.device.node path.id).elim [] fun node => path.content node
  let buf := content.take n
  let sz ← make (.readFile path) fun w answer =>
    (if answer = none then buf.length else -1, w.device)
  return (sz, buf)

def bluetooth : List Char := ['b', 'l', 'u', 'e', 't', 'o', 'o', 't', 'h']

/-- The loop of `init_rfkill` from `id` on. An `open` fails at the latest behind the last
node, so `fuel` above the number of nodes is never exhausted. -/
def initRfkillLoop : Nat → Nat → Effect World ε Int
  | 0, _ => return -1
  | fuel + 1, id => do
      let fd ← openFile (some (.type id)) .read
      if fd < 0 then return -1
      else do
        let (sz, buf) ← readFile (.type id) 16
        closeFile fd
        if sz ≥ 9 ∧ buf.take 9 = bluetooth then do
          modify fun w => { w with rfkillId := id, rfkillStatePath := some (.state id) }
          return 0
        else initRfkillLoop fuel (id + 1)

def initRfkill : Effect World ε Int := do
  let fuel ← gets fun w => w.device.nodes.length + 1
  initRfkillLoop fuel 0

/-- The exit of the two functions below: close the file if it is open. -/
def closeAndReturn (r : Int × Int) : Effect World ε Int := do
  when (r.2 ≥ 0) (closeFile r.2)
  return r.1

/-- `if (rfkill_id == -1) { if (init_rfkill()) goto out; }` -/
def ensureRfkill : Effect World (Int × Int) Unit := do
  let id ← gets World.rfkillId
  when (id = -1) do
    let failed ← initRfkill
    when (failed ≠ 0) (stop (-1, -1))

def checkBluetoothPower : Effect World ε Int := do
  let r ← merge do
    ensureRfkill
    let path ← gets World.rfkillStatePath
    let fd ← openFile path .read
    when (fd < 0) (stop (-1, fd))
    let (sz, buffer) ← readFile (path.getD (.state 0)) 1
    when (sz ≠ 1) (stop (-1, fd))
    return (if buffer = ['1'] then 1 else if buffer = ['0'] then 0 else -1, fd)
  closeAndReturn r

/-- The character written to switch the power. -/
def level (on : Bool) : Char := if on then '1' else '0'

def setBluetoothPower (on : Bool) : Effect World ε Int := do
  let r ← merge do
    ensureRfkill
    let path ← gets World.rfkillStatePath
    let fd ← openFile path .write
    when (fd < 0) (stop (-1, fd))
    let sz ← writeFile (path.getD (.state 0)) (level on)
    when (sz < 0) (stop (-1, fd))
    return (0, fd)
  closeAndReturn r

end Rfkill

/-! ### The interface -/

section Interface

/-- The request that starts or stops the transport in the given build. -/
def transport (b : Build) (on : Bool) : Property :=
  if b.hciattachUsingProperty then .hciattach on
  else if on then .start .hciattach else .stop .hciattach

/-- How the loop over the attempts is left at its end: the attempts remaining, the
descriptor of the last socket, and the result of the last `ioctl`. -/
structure Attempts where
  attempt : Nat
  hciSock : Int
  ret : Int
  deriving DecidableEq, Repr

def devUpLoop : Nat → Int → Int → Effect World (Int × Int) Attempts
  | 0, hciSock, ret => return ⟨0, hciSock, ret⟩
  | attempt + 1, _, ret => do
      let hciSock ← createHciSock
      when (hciSock < 0) (stop (ret, hciSock))
      let (ret, errno) ← devUp
      if ret = 0 ∨ errno = EALREADY then return ⟨attempt + 1, hciSock, ret⟩
      else do
        closeFile hciSock
        usleep 100000
        devUpLoop attempt hciSock ret

/-- `set_bluetooth_power(0)` on a failing path, in builds that have it. -/
def powerOff (b : Build) : Effect World (Int × Int) Unit :=
  when b.rfkill do
    let _ ← setBluetoothPower false

def btEnable (b : Build) : Effect World Empty Int := do
  let r ← merge do
    when b.rfkill do
      let result ← setBluetoothPower true
      when (result < 0) (stop (-1, -1))
    let started ← propertySet (transport b true)
    when (started < 0) do
      powerOff b
      stop (-1, -1)
    let loop ← devUpLoop 100 (-1) (-1)
    when (loop.attempt = 0) do
      let _ ← propertySet (.stop .hciattach)
      powerOff b
      stop (loop.ret, loop.hciSock)
    let started ← propertySet (.start .bluetoothd)
    when (started < 0) do
      powerOff b
      stop (loop.ret, loop.hciSock)
    return (0, loop.hciSock)
  closeAndReturn r

def btDisable (b : Build) : Effect World Empty Int := do
  let r ← merge do
    let stopped ← propertySet (.stop .bluetoothd)
    when (stopped < 0) (stop (-1, -1))
    usleep 500000
    let hciSock ← createHciSock
    when (hciSock < 0) (stop (-1, hciSock))
    let _ ← devDown
    let stopped ← propertySet (transport b false)
    when (stopped < 0) (stop (-1, hciSock))
    when b.rfkill do
      let result ← setBluetoothPower false
      when (result < 0) (stop (-1, hciSock))
    return (0, hciSock)
  closeAndReturn r

/-- `ioctl(sock, HCIGETDEVINFO, &dev_info)`, with the bit `HCI_UP` of the flags. -/
def getDevInfo {ε : Type} : Effect World ε (Int × Bool) := do
  let ret ← make (.ioctl .getDevInfo) fun w answer => (if answer = none then 0 else -1, w.device)
  let up ← gets fun w => w.device.hciUp
  return (ret, up)

def btIsEnabled (b : Build) : Effect World Empty Int := do
  let r ← merge do
    when b.rfkill do
      let ret ← checkBluetoothPower
      when (ret = -1 ∨ ret = 0) (stop (ret, -1))
    let hciSock ← createHciSock
    when (hciSock < 0) (stop (-1, hciSock))
    let (ret, up) ← getDevInfo
    when (ret < 0) (stop (0, hciSock))
    return (if up then 1 else 0, hciSock)
  closeAndReturn r

end Interface

end Bluedroid
