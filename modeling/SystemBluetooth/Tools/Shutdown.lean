import SystemBluetooth.Tools.Socktest

/-!
# Closing a socket that threads use

Most actions of `socktest` close a socket once the threads that use it have ended, if they close
it at all: whatever the calls answer and however the threads interleave, nobody uses a
descriptor that has been closed. Four of them close it under their threads, which is what they
test. All of them wait for their threads.

The actions that shut the socket down first cannot hang on a kernel where a socket that has been
shut down lets no call wait.
-/

namespace Socktest

open Threads

/-- The only action of `sock_shutdown_test`. -/
def shutdownTest : SockType → Action := acceptShutdown "/tmp/foo" 2

def shutdownActions : List (SockType → Action) :=
  [doAcceptShutdown, doConnectShutdown .socktest, doConnectShutdown .asocketTest,
   doPollPollPollShutdown, doReadReadReadShutdown, shutdownTest]

/-- The actions that close a socket while it is in use. -/
def closers : List String :=
  ["accept_and_close", "accept_close_write", "poll_poll_poll_close", "read_read_read_close"]

namespace Call

/-- The descriptor that a call is made on. -/
def descriptor : Call → Option Int
  | bind fd _ | listen fd _ | accept fd | connect fd _ | read fd | write fd _ | poll fd _
  | shutdown fd | close fd | getFlags fd | setNonblock fd _ => some fd
  | socket _ _ _ | unlink _ | sleep _ => none

/-- The descriptor on which a call may have to wait. -/
def waits : Call → Option Int
  | accept fd | connect fd _ | read fd | write fd _ | poll fd _ => some fd
  | _ => none

def closing : Call → Option Int
  | close fd => some fd
  | _ => none

end Call

theorem waits_socketCall (type : SockType) : (socketCall type).waits = none := by
  cases type <;> rfl

theorem closing_socketCall (type : SockType) : (socketCall type).closing = none := by
  cases type <;> rfl

/-! ### Rules -/

/-- Nothing has been closed. -/
def Open (h : List (Call × Int)) : Prop := ∀ e ∈ h, e.1.closing = none

variable {h : List (Call × Int)} {live : List Nat} {fd : Int} {c : Call}

theorem Open.nil : Open [] := List.forall_mem_nil _

theorem Open.call (hopen : Open h) (hc : c.closing = none) (r : Int) : Open (h ++ [(c, r)]) :=
  List.forall_mem_append.mpr ⟨hopen, List.forall_mem_singleton.mpr hc⟩

/-- The action closes what it has when no thread is left, and does nothing afterwards. -/
def tidyRules : Rules Call Int where
  call live h c := Open h ∧ (c.closing ≠ none → live = [])
  child _ c := c.closing = none
  fork := Open
  join _ := True
  loop := True

/-- The first call, which opens the socket, has returned this. -/
def Opened (fd : Int) (h : List (Call × Int)) : Prop := h.head?.map Prod.snd = some fd

theorem Opened.append (hopened : Opened fd h) (h' : List (Call × Int)) :
    Opened fd (h ++ h') := by
  cases h with
  | nil => cases hopened
  | cons e h => exact hopened

/-- Also, only its threads wait, on the socket, and it waits for them once it has shut the
socket down. -/
def shutdownRules : Rules Call Int where
  call live h c := Open h ∧ (c.closing ≠ none → live = []) ∧ c.waits = none
  child h c := c.closing = none ∧ ∀ fd, c.waits = some fd → Opened fd h
  fork := Open
  join h := ∃ fd r, Opened fd h ∧ (.shutdown fd, r) ∈ h
  loop := False

theorem tidyRules_closing : tidyRules.Closing (·.closing ≠ none) where
  call _ _ _ hcall := ⟨hcall.2, fun e he => not_not.mpr (hcall.1 e he)⟩
  child _ _ hchild := not_not.mpr hchild
  fork _ hfork e he := not_not.mpr (hfork e he)

theorem shutdownRules_closing : shutdownRules.Closing (·.closing ≠ none) where
  call _ _ _ hcall := ⟨hcall.2.1, fun e he => not_not.mpr (hcall.1 e he)⟩
  child _ _ hchild := not_not.mpr hchild.1
  fork _ hfork e he := not_not.mpr (hfork e he)

/-! ### Actions that shut the socket down -/

/-- No thread is left, and an action that succeeds has closed the socket. -/
def Tidy : Post Call Int Int := fun v _ live h =>
  live = [] ∧ (v = 0 → ∃ fd r, Opened fd h ∧ (.close fd, r) ∈ h)

/-- The socket is open, and nothing has been closed. -/
structure Held (fd : Int) (h : List (Call × Int)) : Prop where
  opened : Opened fd h
  «open» : Open h

theorem Held.call (hheld : Held fd h) (hc : c.closing = none) (r : Int) :
    Held fd (h ++ [(c, r)]) := ⟨hheld.opened.append _, hheld.open.call hc r⟩

theorem Held.failed (n : Nat) (_ : Held fd h) : Tidy (-1) n [] h :=
  ⟨rfl, fun hzero => by cases hzero⟩

section

variable {Q : Int → List (Call × Int) → Prop}

theorem wp_socket (type : SockType) (hQ : ∀ fd h, Held fd h → Q fd h) :
    (socket type).wp (shutdownRules.call live) Q [] := by
  have hclosing := closing_socketCall type
  refine ⟨⟨.nil, fun hc => absurd hclosing hc, waits_socketCall type⟩, fun fd => hQ fd _ ⟨rfl, ?_⟩⟩
  exact Open.nil.call hclosing fd

theorem wp_act (hheld : Held fd h) (hclosing : c.closing = none) (hwaits : c.waits = none)
    (hQ : ∀ r h, Held fd h → Q r h) : (call c).wp (shutdownRules.call live) Q h :=
  ⟨⟨hheld.open, fun hc => absurd hclosing hc, hwaits⟩, fun r => hQ r _ (hheld.call hclosing r)⟩

theorem wp_bind {path : String} {type : SockType} {s : Int} (hheld : Held fd h)
    (hQ : ∀ r h, Held fd h → Q r h) : (bind path s type).wp (shutdownRules.call live) Q h := by
  have hbind {h : List (Call × Int)} (hheld : Held fd h) :
      (call (.bind s (localAddr path type))).wp (shutdownRules.call live) Q h :=
    wp_act hheld rfl rfl hQ
  rw [bind]
  split
  · rw [Thread.wp_bind]
    exact wp_act hheld rfl rfl fun r h hheld => hbind hheld
  · exact hbind hheld

theorem wp_shutdown {Q : List (Call × Int) → Prop} (hheld : Held fd h)
    (hQ : ∀ h, Held fd h → shutdownRules.join h → Q h) :
    (shutdown fd).wp (shutdownRules.call live) (fun _ => Q) h := by
  refine ⟨⟨hheld.open, fun hc => absurd rfl hc, rfl⟩, fun r => ?_⟩
  have hshut : Held fd (h ++ [(.shutdown fd, r)]) := hheld.call rfl r
  exact hQ _ hshut ⟨fd, r, hshut.opened, List.mem_append_right _ (List.mem_singleton_self _)⟩

theorem wp_close (hheld : Held fd h) (n : Nat) :
    (close fd).wp (shutdownRules.call []) (fun _ h => Tidy 0 n [] h) h :=
  ⟨⟨hheld.open, fun _ => rfl, rfl⟩, fun r => ⟨rfl, fun _ => ⟨fd, r, hheld.opened.append _,
    List.mem_append_right _ (List.mem_singleton_self _)⟩⟩⟩

end

/-- A thread may wait on the socket. -/
theorem child_waits (hheld : Held fd h) (hclosing : c.closing = none)
    (hwaits : c.waits = some fd) : shutdownRules.child h c := by
  refine ⟨hclosing, fun fd' hfd' => ?_⟩
  rw [hwaits] at hfd'
  cases hfd'
  exact hheld.opened

theorem all_waits (hheld : Held fd h) (seconds : Nat) (hclosing : c.closing = none)
    (hwaits : c.waits = some fd) :
    (do sleep seconds; let _ ← call c : Task Unit).All (shutdownRules.child h) :=
  ⟨⟨rfl, fun _ hfd => by cases hfd⟩, fun _ => ⟨child_waits hheld hclosing hwaits,
    fun _ => trivial⟩⟩

theorem threadPoll_waits (hheld : Held fd h) : (threadPoll fd).All (shutdownRules.child h) :=
  ⟨child_waits hheld rfl rfl, fun _ => trivial⟩

theorem threadRead_waits (hheld : Held fd h) : (threadRead fd).All (shutdownRules.child h) :=
  ⟨child_waits hheld rfl rfl, fun _ => trivial⟩

theorem acceptShutdown_tidy (path : String) (seconds : Nat) (type : SockType) :
    (acceptShutdown path seconds type).wp shutdownRules Tidy 0 [] [] := by
  simp only [acceptShutdown, Program.wp_bind, Program.wp_lift, Program.wp_ite, Program.wp_pure,
    wp_create, wp_wait]
  refine wp_socket type fun fd h hheld => ?_
  split
  · exact hheld.failed 0
  refine wp_bind hheld fun r h hheld => ?_
  split
  · exact hheld.failed 0
  refine wp_act hheld rfl rfl fun r h hheld => ?_
  split
  · exact hheld.failed 0
  refine ⟨hheld.open, all_waits hheld 0 rfl rfl, ?_⟩
  refine wp_act hheld rfl rfl fun _ h hheld => ?_
  refine wp_shutdown hheld fun h hheld hjoin => ?_
  exact ⟨List.mem_singleton_self _, hjoin, wp_close hheld _⟩

theorem doConnectShutdown_tidy (tool : Tool) (type : SockType) :
    (doConnectShutdown tool type).wp shutdownRules Tidy 0 [] [] := by
  simp only [doConnectShutdown, Program.wp_bind, Program.wp_lift, Program.wp_ite,
    Program.wp_pure, wp_create, wp_wait]
  refine wp_socket type fun fd h hheld => ?_
  split
  · exact hheld.failed 0
  refine ⟨hheld.open, all_waits hheld 0 rfl rfl, ?_⟩
  refine wp_act hheld rfl rfl fun _ h hheld => ?_
  refine wp_shutdown hheld fun h hheld hjoin => ?_
  exact ⟨List.mem_singleton_self _, hjoin, wp_close hheld _⟩

theorem manyShutdown_tidy {child : Int → Task Unit} (hchild : ∀ {fd h}, Held fd h →
    (child fd).All (shutdownRules.child h)) (type : SockType) :
    (manyShutdown child type).wp shutdownRules Tidy 0 [] [] := by
  simp only [manyShutdown, Program.wp_bind, Program.wp_lift, Program.wp_pure]
  refine wp_socket type fun fd h hheld => ?_
  refine wp_createAll hheld.open (hchild hheld) ?_
  refine wp_act hheld rfl rfl fun _ h hheld => ?_
  refine wp_shutdown hheld fun h hheld hjoin => ?_
  exact wp_waitAll_created hjoin (wp_close hheld _)

/-! ### Actions that leave their sockets open -/

section

variable {Q : Int → List (Call × Int) → Prop}

theorem wp_open (hopen : Open h) (hclosing : c.closing = none)
    (hQ : ∀ r h, Open h → Q r h) : (call c).wp (tidyRules.call live) Q h :=
  ⟨⟨hopen, fun hc => absurd hclosing hc⟩, fun r => hQ r _ (hopen.call hclosing r)⟩

theorem wp_openBind {path : String} {type : SockType} (hopen : Open h)
    (hQ : ∀ r h, Open h → Q r h) : (bind path fd type).wp (tidyRules.call live) Q h := by
  have hbind {h : List (Call × Int)} (hopen : Open h) :
      (call (.bind fd (localAddr path type))).wp (tidyRules.call live) Q h :=
    wp_open hopen rfl hQ
  rw [bind]
  split
  · rw [Thread.wp_bind]
    exact wp_open hopen rfl fun r h hopen => hbind hopen
  · exact hbind hopen

/-- The socket is opened, given an address and listened on. -/
theorem wp_listening {path : String} {type : SockType} {k : Int → Action} {Q : Post Call Int Int}
    (hfailed : ∀ h, Q (-1) 0 [] h) (hk : ∀ fd h, Open h → (k fd).wp tidyRules Q 0 [] h) :
    (do
      let fd ← socket type
      if fd < 0 then return -1
      if (← bind path fd type) < 0 then return -1
      if (← listen fd) < 0 then return -1
      k fd : Action).wp tidyRules Q 0 [] [] := by
  simp only [Program.wp_bind, Program.wp_lift, Program.wp_ite, Program.wp_pure]
  refine wp_open .nil (closing_socketCall type) fun fd h hopen => ?_
  split
  · exact hfailed h
  refine wp_openBind hopen fun _ h hopen => ?_
  split
  · exact hfailed h
  refine wp_open hopen rfl fun _ h hopen => ?_
  split
  · exact hfailed h
  · exact hk fd h hopen

end

def Joined : Post Call Int Int := fun _ _ live _ => live = []

theorem doAcceptAcceptAccept_tidy (type : SockType) :
    (doAcceptAcceptAccept type).wp tidyRules Joined 0 [] [] := by
  refine wp_listening (fun _ => rfl) fun fd h hopen => ?_
  simp only [Program.wp_bind, Program.wp_pure]
  refine wp_repeatWhile trivial hopen fun h hopen => ?_
  rw [Thread.wp_bind]
  exact wp_open hopen rfl fun _ h hopen => ⟨fun _ => hopen, fun hagain => by cases hagain⟩

theorem doAcceptConnectConnect_tidy (tool : Tool) (type : SockType) :
    (doAcceptConnectConnect tool type).wp tidyRules Joined 0 [] [] := by
  have hchild (h : List (Call × Int)) (args : ThreadArgs) :
      (threadDelayConnect tool args).All (tidyRules.child h) :=
    ⟨rfl, fun _ => ⟨closing_socketCall args.type, fun _ => ⟨rfl, fun _ => trivial⟩⟩⟩
  refine wp_listening (fun _ => rfl) fun fd h hopen => ?_
  simp only [Program.wp_bind, Program.wp_lift, Program.wp_pure, wp_create, wp_wait]
  refine ⟨hopen, hchild h _, hopen, hchild h _, ?_⟩
  refine wp_open hopen rfl fun _ h hopen => ?_
  simp [tidyRules, Joined]

/-- When it cannot connect it returns without waiting for its first thread. -/
theorem doConnectedRead1Shutdown1_tidy (tool : Tool) (address : Int) (type : SockType) :
    (doConnectedRead1Shutdown1 tool address type).wp tidyRules
      (fun v _ live _ => v = 0 → live = []) 0 [] [] := by
  refine wp_listening (fun _ _ => rfl) fun fd1 h hopen => ?_
  simp only [Program.wp_bind, Program.wp_lift, Program.wp_ite, Program.wp_pure, wp_create,
    wp_wait]
  refine ⟨hopen, ⟨rfl, fun _ => ⟨rfl, fun _ => ⟨rfl, fun _ => ⟨rfl, fun _ => trivial⟩⟩⟩⟩, ?_⟩
  refine wp_open hopen (closing_socketCall type) fun fd2 h hopen => ?_
  refine wp_open hopen rfl fun _ h hopen => ?_
  split
  · exact fun hzero => by cases hzero
  refine ⟨hopen, ⟨rfl, fun _ => ⟨rfl, fun _ => trivial⟩⟩, ?_⟩
  refine wp_repeatWhile trivial hopen fun h hopen => ?_
  rw [Thread.wp_bind]
  refine wp_open hopen rfl fun _ h hopen => ⟨fun _ => hopen, fun _ => ?_⟩
  simp [tidyRules]

theorem doConnectnbShutdown_tidy (type : SockType) :
    (doConnectnbShutdown type).wp tidyRules Joined 0 [] [] := by
  simp only [doConnectnbShutdown, Program.wp_bind, Program.wp_lift, Program.wp_ite,
    Program.wp_pure]
  refine wp_open .nil (closing_socketCall type) fun fd h hopen => ?_
  split
  · rfl
  refine wp_open hopen rfl fun _ h hopen => ?_
  split
  · rfl
  refine wp_open hopen rfl fun _ h hopen => ?_
  split
  · trivial
  refine wp_open hopen rfl fun _ h hopen => ?_
  refine wp_open hopen rfl fun _ h hopen => ?_
  refine wp_open hopen rfl fun _ h hopen => ?_
  refine wp_open hopen rfl fun _ h hopen => ?_
  exact ⟨⟨hopen, fun _ => rfl⟩, fun _ => rfl⟩

theorem doConnectnbClose_tidy (type : SockType) :
    (doConnectnbClose type).wp tidyRules Joined 0 [] [] := by
  simp only [doConnectnbClose, Program.wp_bind, Program.wp_lift, Program.wp_ite,
    Program.wp_pure]
  refine wp_open .nil (closing_socketCall type) fun fd h hopen => ?_
  split
  · rfl
  refine wp_open hopen rfl fun _ h hopen => ?_
  split
  · rfl
  refine wp_open hopen rfl fun _ h hopen => ?_
  split
  · trivial
  refine wp_open hopen rfl fun _ h hopen => ?_
  refine wp_open hopen rfl fun _ h hopen => ?_
  exact ⟨⟨hopen, fun _ => rfl⟩, fun _ => rfl⟩

/-! ### Actions that close the socket in use -/

theorem doAcceptAndClose_joined (type : SockType) :
    (doAcceptAndClose type).wp Rules.free Joined 0 [] [] := by
  simp [doAcceptAndClose, socket, bind, listen, accept, Rules.free, Joined,
    Thread.all_of_forall]

theorem doAcceptCloseWrite_joined (type : SockType) :
    (doAcceptCloseWrite type).wp Rules.free Joined 0 [] [] := by
  simp [doAcceptCloseWrite, socket, bind, listen, accept, Rules.free, Joined,
    Thread.all_of_forall]

theorem manyClose_joined (child : Int → Task Unit) (type : SockType) :
    (manyClose child type).wp Rules.free Joined 0 [] [] := by
  simp only [manyClose, Program.wp_bind, Program.wp_lift, Program.wp_pure]
  refine ⟨trivial, fun fd => ?_⟩
  refine wp_createAll trivial (Thread.all_of_forall (fun _ => trivial) _) ?_
  exact ⟨trivial, fun _ => ⟨trivial, fun _ => wp_waitAll_created trivial rfl⟩⟩

/-! ### The program -/

/-- An action waits for its threads, unless it fails in the one way that keeps it from that, and
goes by rules that let it close a socket only as the last thing, unless that is what it tests. -/
def Orderly (name : String) (act : SockType → Action) : Prop :=
  ∀ type, ∃ R : Rules Call Int, (name ∉ closers → R.Closing (·.closing ≠ none)) ∧
    (act type).wp R
      (fun v _ live _ => v = 0 ∨ name ≠ "connected_read1_shutdown1" → live = []) 0 [] []

theorem actionTable_orderly (tool : Tool) (address : Int) :
    ∀ entry ∈ actionTable tool address, Orderly entry.1 entry.2 := by
  have htidy {name : String} {act : SockType → Action}
      (hact : ∀ type, (act type).wp tidyRules Joined 0 [] []) : Orderly name act := fun type =>
    ⟨_, fun _ => tidyRules_closing, Program.wp_mono (fun _ _ _ _ hnil _ => hnil) (hact type)⟩
  have hshutdown {name : String} {act : SockType → Action}
      (hact : ∀ type, (act type).wp shutdownRules Tidy 0 [] []) : Orderly name act := fun type =>
    ⟨_, fun _ => shutdownRules_closing,
      Program.wp_mono (fun _ _ _ _ htidy _ => htidy.1) (hact type)⟩
  have hcloser {name : String} {act : SockType → Action} (hname : name ∈ closers)
      (hact : ∀ type, (act type).wp Rules.free Joined 0 [] []) : Orderly name act := fun type =>
    ⟨_, fun hnot => absurd hname hnot,
      Program.wp_mono (fun _ _ _ _ hnil _ => hnil) (hact type)⟩
  have hconnectnb : ∀ entry ∈ (if tool = .socktest then [("connectnb_shutdown",
      doConnectnbShutdown), ("connectnb_close", doConnectnbClose)] else []),
      Orderly entry.1 entry.2 := by
    split
    · simp only [List.forall_mem_cons]
      exact ⟨htidy doConnectnbShutdown_tidy, htidy doConnectnbClose_tidy, List.forall_mem_nil _⟩
    · exact List.forall_mem_nil _
  simp only [actionTable, List.forall_mem_append, List.forall_mem_cons]
  refine ⟨⟨⟨htidy doAcceptAcceptAccept_tidy, hcloser (by decide) doAcceptAndClose_joined,
    hshutdown (acceptShutdown_tidy _ _), hshutdown (doConnectShutdown_tidy tool),
    List.forall_mem_nil _⟩, hconnectnb⟩,
    hcloser (by decide) doAcceptCloseWrite_joined, htidy (doAcceptConnectConnect_tidy tool),
    hshutdown (manyShutdown_tidy threadPoll_waits), hcloser (by decide) (manyClose_joined _),
    hshutdown (manyShutdown_tidy threadRead_waits), hcloser (by decide) (manyClose_joined _),
    fun type => ⟨_, fun _ => tidyRules_closing, ?_⟩, List.forall_mem_nil _⟩
  refine Program.wp_mono (fun v _ live _ hlive hv => ?_)
    (doConnectedRead1Shutdown1_tidy tool address type)
  exact hlive (hv.resolve_right fun hne => hne rfl)

theorem main_cases (tool : Tool) (address : Int) (argv : List String) :
    main tool address argv = pure (-1) ∨ ∃ type name act, argv[2]? = some name ∧
      (name, act) ∈ actionTable tool address ∧ main tool address argv = act type := by
  unfold main
  split
  · rename_i typeName actionName
    split
    · rename_i type act _ hact
      obtain ⟨before, after, htable, -⟩ := List.lookup_eq_some_iff.mp hact
      refine .inr ⟨type, actionName, act, rfl, ?_, rfl⟩
      rw [htable]
      exact List.mem_append_right _ List.mem_cons_self
    · exact .inl rfl
  · exact .inl rfl

theorem main_orderly (tool : Tool) (address : Int) (argv : List String) : ∃ R : Rules Call Int,
    ((∀ name ∈ closers, argv[2]? ≠ some name) → R.Closing (·.closing ≠ none)) ∧
    (main tool address argv).wp R (fun v _ live _ =>
      v = 0 ∨ argv[2]? ≠ some "connected_read1_shutdown1" → live = []) 0 [] [] := by
  rcases main_cases tool address argv with hmain | ⟨type, name, act, hname, hact, hmain⟩
  · rw [hmain]
    exact ⟨tidyRules, fun _ => tidyRules_closing, fun _ => rfl⟩
  · obtain ⟨R, hR, hwp⟩ := actionTable_orderly tool address _ hact type
    rw [hmain, hname]
    refine ⟨R, fun hnot => hR fun hmem => hnot name hmem rfl, ?_⟩
    refine Program.wp_mono (fun v _ live _ hlive hv => hlive ?_) hwp
    exact hv.imp_right fun hne heq => hne (congrArg some heq)

/-- When the program returns, every thread that it started has ended, unless it fails in
`connected_read1_shutdown1`. A thread is started whenever it is to be: `pthread_create` is taken
to succeed. -/
theorem main_joins {σ : Type} {kernel : σ → Call → Int → σ → Prop} {s : σ}
    {p : Pool Call Int σ Int} {tool : Tool} {address : Int} {argv : List String}
    (hreach : Reaches kernel (Pool.start (main tool address argv) s) p) {v : Int}
    (hret : p.main = .ret v)
    (hv : v = 0 ∨ argv[2]? ≠ some "connected_read1_shutdown1") : p.Ended := by
  obtain ⟨R, -, hwp⟩ := main_orderly tool address argv
  obtain ⟨live, hok⟩ := hreach.ok (.start hwp s)
  have hlive := hok.returned hret hv
  subst hlive
  exact hok.allEnded

theorem main_joins_acceptShutdown : ∃ p : Pool Call Int Unit Int,
    p.main = .ret 0 ∧ p.threads.length = 1 ∧ p.Ended := by
  obtain ⟨p, hreach, hret, hthreads⟩ : ∃ p : Pool Call Int Unit Int,
      Reaches (prompt 0)
          (Pool.start (main .socktest 0 ["socktest", "tcp", "accept_shutdown"]) ()) p ∧
        p.main = .ret 0 ∧ p.threads.length = 1 := by
    have hmain : main .socktest 0 ["socktest", "tcp", "accept_shutdown"] =
        doAcceptShutdown .tcp := rfl
    rw [hmain]
    exact ⟨_, .head prompt_call <| .head prompt_call <| .head prompt_call <|
      .head .fork <| .head prompt_call <| .head prompt_call <|
      .head (prompt_thread 0 rfl) <| .head (prompt_thread 0 rfl) <|
      .head (.join rfl) <| .head prompt_call .refl, rfl, rfl⟩
  exact ⟨p, hret, hthreads, main_joins hreach hret (.inl rfl)⟩

/-- On some kernel, in some order of the steps, the program returns before a thread has ended. -/
def MayAbandon (program : Action) : Prop :=
  ∃ (σ : Type) (kernel : σ → Call → Int → σ → Prop) (s : σ) (p : Pool Call Int σ Int) (v : Int),
    Reaches kernel (Pool.start program s) p ∧ p.main = .ret v ∧ ¬ p.Ended

/-- What a kernel answers that refuses every connection. -/
def refusal : Call → Int
  | .connect _ _ => -1
  | .socket _ _ _ => 3
  | _ => 0

theorem doConnectedRead1Shutdown1_abandons (tool : Tool) (address : Int) :
    MayAbandon (doConnectedRead1Shutdown1 tool address .tcp) := by
  let kernel (_ : Unit) (c : Call) (r : Int) (_ : Unit) : Prop := r = refusal c
  have hcall {c : Call} {next : Int → Action} {threads : List (Task Unit)}
      {history : List (Event Call Int)} : Step kernel ⟨.call c next, threads, (), history⟩
        ⟨next (refusal c), threads, (), history ++ [⟨none, c, refusal c⟩]⟩ := .call rfl
  refine ⟨Unit, kernel, (), _, -1, .head hcall <| .head hcall <| .head hcall <| .head .fork <|
    .head hcall <| .head hcall .refl, rfl, fun hended => ?_⟩
  cases hended _ (List.mem_singleton_self _)

/-- The exception of `main_joins` is a real one: if it cannot connect, `connected_read1_shutdown1`
returns -1 while its first thread waits for a connection. -/
theorem main_abandons_iff (tool : Tool) (address : Int) (name : String) :
    (∃ argv, argv[2]? = some name ∧ MayAbandon (main tool address argv)) ↔
      name = "connected_read1_shutdown1" := by
  constructor
  · rintro ⟨argv, hname, σ, kernel, s, p, v, hreach, hret, hnot⟩
    by_contra hne
    obtain ⟨R, -, hwp⟩ := main_orderly tool address argv
    obtain ⟨live, hok⟩ := hreach.ok (.start hwp s)
    obtain rfl := hok.returned hret (.inr fun heq => hne (Option.some.inj (hname.symm.trans heq)))
    exact hnot hok.allEnded
  · rintro rfl
    refine ⟨["socktest", "tcp", "connected_read1_shutdown1"], rfl, ?_⟩
    cases tool
    · exact doConnectedRead1Shutdown1_abandons .socktest address
    · exact doConnectedRead1Shutdown1_abandons .asocketTest address

/-! ### Descriptors that have been closed -/

/-- A call is made on a descriptor that has been closed. -/
def UsesClosed {σ : Type} (p : Pool Call Int σ Int) : Prop :=
  ∃ before e between f after fd, p.history = before ++ e :: (between ++ f :: after) ∧
    e.call = .close fd ∧ f.call.descriptor = some fd

/-- This happens on some kernel, in some order of the steps. -/
def MayUseClosed (program : Action) : Prop :=
  ∃ (σ : Type) (kernel : σ → Call → Int → σ → Prop) (s : σ) (p : Pool Call Int σ Int),
    Reaches kernel (Pool.start program s) p ∧ UsesClosed p

theorem not_mayUseClosed {R : Rules Call Int} (hR : R.Closing (·.closing ≠ none))
    {program : Action} {Q : Post Call Int Int} (hwp : program.wp R Q 0 [] []) :
    ¬ MayUseClosed program := by
  rintro ⟨σ, kernel, s, p, hreach, before, e, between, f, after, fd, hhistory, hclose, -⟩
  obtain ⟨live, -, hclosed⟩ := hreach.closed hR hwp
  have hordered := hclosed.ordered
  rw [hhistory, List.pairwise_append, List.pairwise_cons] at hordered
  refine hordered.2.1.1 f (List.mem_append_right _ List.mem_cons_self) ?_
  rw [hclose]
  exact Option.some_ne_none fd

theorem doAcceptAndClose_uses : MayUseClosed (doAcceptAndClose .tcp) := by
  refine ⟨Unit, (prompt 0), (), _, .head prompt_call <| .head prompt_call <|
    .head prompt_call <| .head .fork <| .head (prompt_thread 0 rfl) <|
    .head (prompt_thread 0 rfl) <| .head prompt_call .refl, ?_⟩
  exact ⟨[_, _, _, _], _, [], _, [], 0, rfl, rfl, rfl⟩

theorem doAcceptCloseWrite_uses : MayUseClosed (doAcceptCloseWrite .tcp) := by
  refine ⟨Unit, (prompt 0), (), _, .head prompt_call <| .head prompt_call <|
    .head prompt_call <| .head .fork <| .head (prompt_thread 0 rfl) <|
    .head (prompt_thread 0 rfl) <| .head (prompt_thread 0 rfl) <|
    .head (prompt_thread 0 rfl) .refl, ?_⟩
  exact ⟨[_, _, _, _], _, [_], _, [], 0, rfl, rfl, rfl⟩

theorem manyClose_uses {child : Int → Task Unit} {c : Call} {next : Int → Task Unit}
    (hchild : child 0 = .call c next) (hc : c.descriptor = some 0) :
    MayUseClosed (manyClose child .tcp) := by
  have hcreate (rest : List Nat → Action) : Reaches (prompt 0)
      ⟨createAll (child 0) 32 >>= rest, [], (), [⟨none, socketCall .tcp, 0⟩]⟩
      ⟨rest (List.range' 0 32), List.replicate 32 (child 0), (),
        [⟨none, socketCall .tcp, 0⟩]⟩ :=
    (Reaches.createAll (child 0) 32 [] () _).bind rest
  refine ⟨Unit, (prompt 0), (), _, .head prompt_call <| (hcreate _).trans <|
    .head prompt_call <| .head prompt_call <|
    .head (prompt_thread 0 (congrArg some hchild)) .refl, ?_⟩
  exact ⟨[_, _], _, [], _, [], 0, rfl, rfl, hc⟩

/-- Given one of the names in `closers`, and no other, the program may call something on a socket
that has been closed. -/
theorem main_usesClosed_iff (tool : Tool) (address : Int) (name : String) :
    (∃ argv, argv[2]? = some name ∧ MayUseClosed (main tool address argv)) ↔
      name ∈ closers := by
  constructor
  · rintro ⟨argv, hname, huses⟩
    by_contra hnot
    obtain ⟨R, hR, hwp⟩ := main_orderly tool address argv
    refine not_mayUseClosed (hR fun closer hcloser heq => hnot ?_) hwp huses
    rw [hname] at heq
    exact Option.some.inj heq ▸ hcloser
  · intro hname
    refine ⟨["socktest", "tcp", name], rfl, ?_⟩
    simp only [closers, List.mem_cons, List.not_mem_nil, or_false] at hname
    cases tool <;> rcases hname with rfl | rfl | rfl | rfl
    · exact doAcceptAndClose_uses
    · exact doAcceptCloseWrite_uses
    · exact manyClose_uses rfl rfl
    · exact manyClose_uses rfl rfl
    · exact doAcceptAndClose_uses
    · exact doAcceptCloseWrite_uses
    · exact manyClose_uses rfl rfl
    · exact manyClose_uses rfl rfl

/-! ### Actions that cannot hang -/

/-- What a kernel has to do for the tests to pass: only a call that waits on a socket may block,
and none does once the socket has been shut down. -/
structure Wakes {σ : Type} (kernel : σ → Call → Int → σ → Prop) (down : Int → σ → Prop) :
    Prop where
  prompt : ∀ s c, c.waits = none → ∃ r s', kernel s c r s'
  shuts : ∀ s fd s', kernel s (.shutdown fd) 0 s' → down fd s'
  stays : ∀ s c r s' fd, kernel s c r s' → c.closing = none → down fd s → down fd s'
  wakes : ∀ s c fd, c.waits = some fd → down fd s → ∃ r s', kernel s c r s'

/-- All threads have ended, and when the action has succeeded the last call of all has closed
its socket. -/
def Returned {σ : Type} (p : Pool Call Int σ Int) : Prop :=
  ∃ v, p.main = .ret v ∧ p.Ended ∧
    (v = 0 → ∃ fd r, Opened fd (own p.history) ∧
      p.history.getLast? = some ⟨none, .close fd, r⟩)

def ShutdownFailed {σ : Type} (p : Pool Call Int σ Int) : Prop :=
  ∃ e ∈ p.history, ∃ fd, e.call = .shutdown fd ∧ e.result ≠ 0

theorem shutdownActions_tidy {act : SockType → Action} (hact : act ∈ shutdownActions)
    (type : SockType) : (act type).wp shutdownRules Tidy 0 [] [] := by
  have htidy : ∀ act ∈ shutdownActions, (act type).wp shutdownRules Tidy 0 [] [] := by
    simp only [shutdownActions, List.forall_mem_cons]
    exact ⟨acceptShutdown_tidy _ _ type, doConnectShutdown_tidy _ type,
      doConnectShutdown_tidy _ type, manyShutdown_tidy threadPoll_waits type,
      manyShutdown_tidy threadRead_waits type, acceptShutdown_tidy _ _ type, List.forall_mem_nil _⟩
  exact htidy act hact

section

variable {σ : Type} {kernel : σ → Call → Int → σ → Prop} {down : Int → σ → Prop} {s : σ}
  {p : Pool Call Int σ Int} {program : Action} {live : List Nat}

theorem returned_of_ret (hok : p.Ok shutdownRules Tidy live)
    (hclosed : Closed (·.closing ≠ none) p live) {v : Int} (hret : p.main = .ret v) :
    Returned p := by
  obtain ⟨rfl, hclose⟩ := hok.returned hret
  refine ⟨v, hret, hok.allEnded, fun hzero => ?_⟩
  obtain ⟨fd, r, hopened, hmem⟩ := hclose hzero
  exact ⟨fd, r, hopened, hclosed.last (of_mem_own hmem) (Option.some_ne_none fd)⟩

/-- When the action waits for a thread, the socket that the thread waits on is down, unless it
could not be shut down. -/
theorem shutdownFailed_of_blocked (hwakes : Wakes kernel down)
    (hreach : Reaches kernel (Pool.start program s) p) (hok : p.Ok shutdownRules Tidy live)
    (hclosed : Closed (·.closing ≠ none) p live) {t : Nat} {next : Action} {c : Call}
    {rest : Int → Task Unit} (hjoin : p.main = .join t next)
    (hthread : p.threads[t]? = some (.call c rest)) (hblocked : Blocked kernel p.state c) :
    ShutdownFailed p := by
  have hwp := hok.main
  rw [hjoin] at hwp
  obtain ⟨hlive, ⟨fd, r, hopened, hshutdown⟩, -⟩ := hwp
  obtain ⟨h, hbegin, -, hall⟩ := hok.children _ (List.mem_of_getElem? hthread)
  refine ⟨_, of_mem_own hshutdown, fd, rfl, fun hzero => ?_⟩
  cases hwaits : c.waits with
  | none =>
      obtain ⟨r', s', hanswer⟩ := hwakes.prompt p.state c hwaits
      exact hblocked r' s' hanswer
  | some fd' =>
      have hsame : fd' = fd := by
        obtain ⟨after, hafter⟩ := hbegin
        have hfd' := (hall.1.2 fd' hwaits).append after
        rw [hafter] at hfd'
        exact Option.some.inj (hfd'.symm.trans hopened)
      have hshuts (s : σ) (c : Call) (r : Int) (s' : σ) (hanswer : kernel s c r s')
          (hset : c = .shutdown fd ∧ r = 0) : down fd s' := by
        obtain ⟨rfl, rfl⟩ := hset
        exact hwakes.shuts s fd s' hanswer
      have hstays (s : σ) (c : Call) (r : Int) (s' : σ) (hanswer : kernel s c r s')
          (hnot : ¬ c.closing ≠ none) : down fd s → down fd s' :=
        hwakes.stays s c r s' fd hanswer (not_not.mp hnot)
      have hopen : ∀ e ∈ p.history, ¬ e.call.closing ≠ none := by
        intro e he hcloses
        rw [(hclosed.alone e he hcloses).2] at hlive
        cases hlive
      have hdown := hreach.since hshuts hstays hopen (of_mem_own hshutdown) ⟨rfl, hzero⟩
      subst hsame
      obtain ⟨r', s', hanswer⟩ := hwakes.wakes p.state c fd' hwaits hdown
      exact hblocked r' s' hanswer

/-- On a kernel that wakes what waits on a socket, these actions return in every order of the
steps, once their threads have ended and with the socket closed last of all, unless it could not
be shut down. -/
theorem shutdownActions_return {act : SockType → Action} (hact : act ∈ shutdownActions)
    (type : SockType) (hwakes : Wakes kernel down) (s : σ) :
    Inevitable kernel (fun p => Returned p ∨ ShutdownFailed p) (Pool.start (act type) s) := by
  have hwp := shutdownActions_tidy hact type
  refine Inevitable.of_stuck id hwp fun p hreach hstuck => ?_
  obtain ⟨live, hok, hclosed⟩ := hreach.closed shutdownRules_closing hwp
  rcases hok.stuck hstuck with ⟨v, hret⟩ | ⟨c, next, hcall, hblocked⟩ | ⟨t, next, c, rest, hrest⟩
  · exact .inl (returned_of_ret hok hclosed hret)
  · have hmain := hok.main
    rw [hcall] at hmain
    obtain ⟨r, s', hanswer⟩ := hwakes.prompt p.state c hmain.1.2.2
    exact absurd hanswer (hblocked r s')
  · exact .inr (shutdownFailed_of_blocked hwakes hreach hok hclosed hrest.1 hrest.2.1 hrest.2.2)

end

/-- It blocks the calls that wait until something is shut down. -/
def wakefulKernel (down : Bool) (c : Call) (r : Int) (down' : Bool) : Prop :=
  (c.waits = none ∨ down = true) ∧ r = 0 ∧
    down' = match c with | .shutdown _ => true | _ => down

theorem shutdownActions_return_poll :
    Inevitable wakefulKernel (fun p => Returned p ∨ ShutdownFailed p)
      (Pool.start (doPollPollPollShutdown .tcp) false) := by
  have hwakes : Wakes wakefulKernel fun _ down => down = true := by
    refine ⟨fun down c hwaits => ⟨0, _, .inl hwaits, rfl, rfl⟩, ?_, ?_,
      fun down c fd _ hdown => ⟨0, _, .inr hdown, rfl, rfl⟩⟩
    · rintro down fd down' ⟨-, -, rfl⟩
      rfl
    · rintro down c r down' fd ⟨-, -, rfl⟩ - rfl
      cases c <;> rfl
  exact shutdownActions_return (by simp [shutdownActions]) .tcp hwakes false

end Socktest
