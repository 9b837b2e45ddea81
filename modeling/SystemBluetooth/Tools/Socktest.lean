import SystemBluetooth.Address.Basic
import SystemBluetooth.Library.Threads

/-!
# Socket tests

The actions of `socktest` and `asocket_test`, one of which is also that of
`sock_shutdown_test`: what each does with a socket, in the main thread and in the threads that
it starts. A thread that is given the address of a `struct thread_args` is given its values:
they are set before the thread is created and not changed by anyone else, and they are still
there because the action waits for the thread, which is what has to be shown.

Every call answers a number. What is printed is left out.
-/

namespace Socktest

open Threads

inductive SockType where
  | unix | rfcomm | sco | l2cap | tcp
  deriving DecidableEq, Repr

inductive Family where
  | unix | bluetooth | inet
  deriving DecidableEq, Repr

inductive Kind where
  | stream | seqpacket
  deriving DecidableEq, Repr

inductive SockAddr where
  | un (path : String)
  | rc (bdaddr : Address.Bdaddr) (channel : Nat)
  | sco (bdaddr : Address.Bdaddr)
  | l2 (psm : Nat) (bdaddr : Address.Bdaddr) (cid : Nat)
  | «in» (port : Nat)
  deriving DecidableEq

/-- System calls. `SHUT_RDWR` is the only way that is used to shut a socket down. -/
inductive Call where
  | socket (family : Family) (kind : Kind) (protocol : Nat)
  | unlink (path : String)
  | bind (fd : Int) (addr : SockAddr)
  | listen (fd : Int) (backlog : Nat)
  | accept (fd : Int)
  | connect (fd : Int) (addr : SockAddr)
  | read (fd : Int)
  | write (fd : Int) (byte : UInt8)
  | poll (fd : Int) (pollin : Bool)
  | shutdown (fd : Int)
  | close (fd : Int)
  | getFlags (fd : Int)
  | setNonblock (fd : Int) (flags : Int)
  | sleep (seconds : Nat)
  deriving DecidableEq

abbrev Task := Thread Call Int

abbrev Action := Program Call Int Int

def call (c : Call) : Task Int := .call c .done

structure ThreadArgs where
  fd : Int
  type : SockType
  delay : Nat

/-- The two programs differ in the address that they connect to, and one has more actions. -/
inductive Tool where
  | socktest | asocketTest
  deriving DecidableEq, Repr

/-! ### Calls -/

def any : Address.Bdaddr := ⟨#v[0, 0, 0, 0, 0, 0]⟩

def «local» : Address.Bdaddr := ⟨#v[0, 0, 0, 0xff, 0xff, 0xff]⟩

/-- `local_addr_un`, `local_addr_rc` and so on; `sock_shutdown_test` has another path. -/
def localAddr (path : String) : SockType → SockAddr
  | .unix => .un path
  | .rfcomm => .rc any 4
  | .sco => .sco «local»
  | .l2cap => .l2 0x1001 any 0
  | .tcp => .in 9999

def remote : List UInt8 := Scan.ascii "00:11:22:33:44:55" ++ [0]

/-- The path of `socktest` and `asocket_test`. -/
def path : String := "/data/foo"

/-- The address to connect to. For RFCOMM, `socktest` reads another one into the local address
before. -/
def connectAddr : Tool → SockType → SockAddr
  | .socktest, .rfcomm => .rc ((Address.getBdaddr remote any).elim any Prod.snd) 4
  | _, type => localAddr path type

def socketCall : SockType → Call
  | .unix => .socket .unix .stream 0
  | .rfcomm => .socket .bluetooth .stream 3
  | .sco => .socket .bluetooth .seqpacket 2
  | .l2cap => .socket .bluetooth .seqpacket 0
  | .tcp => .socket .inet .stream 0

def socket (type : SockType) : Task Int := call (socketCall type)

def bind (path : String) (fd : Int) (type : SockType) : Task Int := do
  if type = .unix then
    let _ ← call (.unlink path)
  call (.bind fd (localAddr path type))

def listen (fd : Int) : Task Int := call (.listen fd 1)

def accept (fd : Int) : Task Int := call (.accept fd)

def connect (tool : Tool) (fd : Int) (type : SockType) : Task Int :=
  call (.connect fd (connectAddr tool type))

def read (fd : Int) : Task Int := call (.read fd)

def write (fd : Int) : Task Int := call (.write fd 69)

def poll (fd : Int) (pollin : Bool) : Task Int := call (.poll fd pollin)

def shutdown (fd : Int) : Task Int := call (.shutdown fd)

def close (fd : Int) : Task Int := call (.close fd)

def sleep (seconds : Nat) : Task Unit := do
  let _ ← call (.sleep seconds)

/-! ### Threads -/

def threadDelayClose (args : ThreadArgs) : Task Unit := do
  sleep args.delay
  let _ ← close args.fd

def threadPoll (fd : Int) : Task Unit := do
  let _ ← poll fd false

def threadRead (fd : Int) : Task Unit := do
  let _ ← read fd

def threadShutdown (fd : Int) : Task Unit := do
  sleep 4
  let _ ← shutdown fd

def threadAccept (args : ThreadArgs) : Task Unit := do
  sleep args.delay
  let _ ← accept args.fd

def threadConnect (tool : Tool) (args : ThreadArgs) : Task Unit := do
  sleep args.delay
  let _ ← connect tool args.fd args.type

def threadDelayCloseWrite (args : ThreadArgs) : Task Unit := do
  sleep args.delay
  let _ ← close args.fd
  sleep args.delay
  let _ ← write args.fd

def threadAcceptWrite (args : ThreadArgs) : Task Unit := do
  sleep args.delay
  let _ ← accept args.fd
  sleep args.delay
  let _ ← write args.fd

def threadDelayConnect (tool : Tool) (args : ThreadArgs) : Task Unit := do
  sleep args.delay
  let fd ← socket args.type
  let _ ← connect tool fd args.type

/-! ### Actions -/

def doAcceptAcceptAccept (type : SockType) : Action := do
  let fd ← socket type
  if fd < 0 then return -1
  if (← bind path fd type) < 0 then return -1
  if (← listen fd) < 0 then return -1
  repeatWhile do
    let _ ← accept fd
    return true
  return 0

def doAcceptAndClose (type : SockType) : Action := do
  let fd ← socket type
  if fd < 0 then return -1
  if (← bind path fd type) < 0 then return -1
  if (← listen fd) < 0 then return -1
  let thread ← create (threadDelayClose ⟨fd, type, 1⟩)
  let _ ← accept fd
  wait thread
  return 0

/-- `do_accept_shutdown` with the path of the program, and the time until the socket is shut
down. -/
def acceptShutdown (path : String) (seconds : Nat) (type : SockType) : Action := do
  let fd ← socket type
  if fd < 0 then return -1
  if (← bind path fd type) < 0 then return -1
  if (← listen fd) < 0 then return -1
  let thread ← create (threadAccept ⟨fd, type, 0⟩)
  sleep seconds
  let _ ← shutdown fd
  wait thread
  let _ ← close fd
  return 0

def doAcceptShutdown : SockType → Action := acceptShutdown path 4

def doConnectShutdown (tool : Tool) (type : SockType) : Action := do
  let fd ← socket type
  if fd < 0 then return -1
  let thread ← create (threadConnect tool ⟨fd, type, 0⟩)
  sleep 4
  let _ ← shutdown fd
  wait thread
  let _ ← close fd
  return 0

def doConnectnbShutdown (type : SockType) : Action := do
  let fd ← socket type
  if fd < 0 then return -1
  let flags ← call (.getFlags fd)
  if flags = -1 then return -1
  if (← call (.setNonblock fd flags)) ≠ 0 then return -1
  let _ ← connect .socktest fd type
  sleep 1
  let _ ← shutdown fd
  sleep 2
  let _ ← close fd
  return 0

def doConnectnbClose (type : SockType) : Action := do
  let fd ← socket type
  if fd < 0 then return -1
  let flags ← call (.getFlags fd)
  if flags = -1 then return -1
  if (← call (.setNonblock fd flags)) ≠ 0 then return -1
  let _ ← connect .socktest fd type
  sleep 2
  let _ ← close fd
  return 0

def doAcceptCloseWrite (type : SockType) : Action := do
  let fd ← socket type
  if fd < 0 then return -1
  if (← bind path fd type) < 0 then return -1
  if (← listen fd) < 0 then return -1
  let thread ← create (threadDelayCloseWrite ⟨fd, type, 1⟩)
  let _ ← accept fd
  wait thread
  return 0

/-- The actions with `MAX_T` threads on one socket, which is shut down while they use it. -/
def manyShutdown (child : Int → Task Unit) (type : SockType) : Action := do
  let fd ← socket type
  let t ← createAll (child fd) 32
  sleep 1
  let _ ← shutdown fd
  waitAll t
  let _ ← close fd
  return 0

/-- The same with a socket that is closed while they use it. -/
def manyClose (child : Int → Task Unit) (type : SockType) : Action := do
  let fd ← socket type
  let t ← createAll (child fd) 32
  sleep 1
  let _ ← close fd
  waitAll t
  return 0

def doPollPollPollShutdown : SockType → Action := manyShutdown threadPoll

def doPollPollPollClose : SockType → Action := manyClose threadPoll

def doReadReadReadShutdown : SockType → Action := manyShutdown threadRead

def doReadReadReadClose : SockType → Action := manyClose threadRead

/-- The second thread is given the address of `fd2` for a descriptor. -/
def doConnectedRead1Shutdown1 (tool : Tool) (address : Int) (type : SockType) : Action := do
  let fd1 ← socket type
  if fd1 < 0 then return -1
  if (← bind path fd1 type) < 0 then return -1
  if (← listen fd1) < 0 then return -1
  let t1 ← create (threadAcceptWrite ⟨fd1, type, 0⟩)
  let fd2 ← socket type
  if (← connect tool fd2 type) ≠ 0 then return -1
  let t2 ← create (threadShutdown address)
  repeatWhile do
    let ret ← read fd2
    return ret == 0
  wait t1
  wait t2
  return 0

def doAcceptConnectConnect (tool : Tool) (type : SockType) : Action := do
  let fd ← socket type
  if fd < 0 then return -1
  if (← bind path fd type) < 0 then return -1
  if (← listen fd) < 0 then return -1
  let t1 ← create (threadDelayConnect tool ⟨-1, type, 1⟩)
  let t2 ← create (threadDelayConnect tool ⟨-1, type, 2⟩)
  let _ ← accept fd
  wait t1
  wait t2
  return 0

/-! ### The programs -/

def actionTable (tool : Tool) (address : Int) : List (String × (SockType → Action)) :=
  [("accept_accept_accept", doAcceptAcceptAccept), ("accept_and_close", doAcceptAndClose),
   ("accept_shutdown", doAcceptShutdown), ("connect_shutdown", doConnectShutdown tool)] ++
  (if tool = .socktest then
    [("connectnb_shutdown", doConnectnbShutdown), ("connectnb_close", doConnectnbClose)]
  else []) ++
  [("accept_close_write", doAcceptCloseWrite),
   ("accept_connect_connect", doAcceptConnectConnect tool),
   ("poll_poll_poll_shutdown", doPollPollPollShutdown),
   ("poll_poll_poll_close", doPollPollPollClose),
   ("read_read_read_shutdown", doReadReadReadShutdown),
   ("read_read_read_close", doReadReadReadClose),
   ("connected_read1_shutdown1", doConnectedRead1Shutdown1 tool address)]

def typeTable : List (String × SockType) :=
  [("unix", .unix), ("rfcomm", .rfcomm), ("sco", .sco), ("l2cap", .l2cap), ("tcp", .tcp)]

/-- `main`, which fails with the usage unless it is given a type and an action. -/
def main (tool : Tool) (address : Int) (argv : List String) : Action :=
  match argv with
  | [_, typeName, actionName] =>
      match typeTable.lookup typeName, (actionTable tool address).lookup actionName with
      | some type, some action => action type
      | _, _ => return -1
  | _ => return -1

/-! ### One call -/

@[simp] theorem wp_call {P : List (Call × Int) → Call → Prop} {c : Call}
    {Q : Int → List (Call × Int) → Prop} {h : List (Call × Int)} :
    (call c).wp P Q h ↔ P h c ∧ ∀ r, Q r (h ++ [(c, r)]) := Iff.rfl

end Socktest
