import SystemBluetooth.Library.Threads

/-!
# Pipe tests

The functions of `pipetest`. All but one of them wait for the threads that they start, have no
more than one pipe or pair of sockets open at a time, also those that open one after another
without end, and close only what is open; in `close_close_close` a hundred threads close the two
ends of one pipe, and nobody waits for them.

A call answers a number, and those that open something two descriptors. What is printed is left
out.
-/

namespace Pipetest

open Threads

inductive Call where
  | pipe
  | socketpair
  | close (fd : Int)
  | poll (fd : Int) (pollin : Bool)
  | write (fd : Int) (byte : UInt8)
  | read (fd : Int)
  | shutdown (fd : Int)
  | sleep (seconds : Nat)
  | usleep (usec : Int)
  | random
  deriving DecidableEq

structure Answer where
  ret : Int
  fd0 : Int
  fd1 : Int
  deriving DecidableEq

abbrev Task := Thread Call Answer

abbrev Action := Program Call Answer Int

def call (c : Call) : Task Answer := .call c .done

/-! ### Threads -/

def threadPoll (fd : Int) : Task Unit := do
  let _ ← call (.poll fd false)

def threadPollin (fd : Int) : Task Unit := do
  let _ ← call (.poll fd true)

/-- A random number below ten million. -/
def threadPollinRandDelay (fd : Int) : Task Unit := do
  let r ← call .random
  let _ ← call (.usleep (r.ret * 10000000 / 2147483647))
  let _ ← call (.poll fd true)

def threadRead (fd : Int) : Task Unit := do
  let _ ← call (.read fd)

def threadClose (fd : Int) : Task Unit := do
  let _ ← call (.close fd)

/-! ### Functions -/

/-- The threads are given no descriptor, which is 0. -/
def doPollPollClose : Action := do
  let p ← call .pipe
  if p.ret ≠ 0 then return -1
  let t1 ← create (threadPoll 0)
  let t2 ← create (threadPoll 0)
  let _ ← call (.sleep 1)
  let _ ← call (.close p.fd1)
  wait t1
  wait t2
  return 0

/-- A thread that waits on one of two sockets, the first of which is shut down. -/
def socketpairShutdown (child : Answer → Task Unit) : Action := do
  let p ← call .socketpair
  if p.ret ≠ 0 then return -1
  let t ← create (child p)
  let _ ← call (.sleep 1)
  let _ ← call (.shutdown p.fd0)
  let _ ← call (.sleep 1)
  let _ ← call (.close p.fd0)
  wait t
  return 0

def doSocketpairPoll1Shutdown2 : Action := socketpairShutdown fun p => threadPoll p.fd1

def doSocketpairPoll1Shutdown1 : Action := socketpairShutdown fun p => threadPoll p.fd0

def doSocketpairRead1Shutdown1 : Action := socketpairShutdown fun p => threadRead p.fd0

def doSocketpairPoll1Close1 : Action := do
  let p ← call .socketpair
  if p.ret ≠ 0 then return -1
  let t ← create (threadPoll p.fd0)
  let _ ← call (.sleep 1)
  let _ ← call (.close p.fd0)
  wait t
  return 0

def doPipePipePipe : Action := do
  repeatWhile do
    let p ← call .pipe
    if p.ret ≠ 0 then return false
    let _ ← call (.close p.fd0)
    let _ ← call (.close p.fd1)
    return true
  return -1

def writeAll (fd : Int) : Nat → Task Unit
  | 0 => return ()
  | n + 1 => do
      let _ ← call (.write fd 0x61)
      writeAll fd n

def doPollinPollinWrite : Action := do
  let p ← call .pipe
  if p.ret ≠ 0 then return -1
  let t1 ← create (threadPollin p.fd0)
  let t2 ← create (threadPollin p.fd0)
  let _ ← call (.sleep 1)
  writeAll p.fd1 100
  wait t1
  wait t2
  return 0

def doPollinPollinPollinWritePollinPollinPollin : Action := do
  let p ← call .pipe
  if p.ret ≠ 0 then return -1
  let t ← createAll (threadPollinRandDelay p.fd0) 10
  let _ ← call (.sleep 5)
  let _ ← call (.write p.fd1 0x61)
  waitAll t
  let _ ← call (.close p.fd0)
  let _ ← call (.close p.fd1)
  return 0

/-- Its body is left out by the preprocessor. -/
def doPollPollShutdown : Action := return -1

def threads : Nat := 100

def doClosePollPollPoll : Action := do
  let p ← call .pipe
  if p.ret ≠ 0 then return -1
  let _ ← call (.close p.fd1)
  let t ← createAll (threadPoll p.fd0) threads
  waitAll t
  return 0

/-- The loop of `do_close_close_close` with `i` turns made. -/
def closeLoop (p : Answer) : Nat → Nat → Action
  | _, 0 => return 0
  | i, n + 1 => do
      let _ ← create (threadClose (if i % 2 = 0 then p.fd0 else p.fd1))
      closeLoop p (i + 1) n

def doCloseCloseClose : Action := do
  let p ← call .pipe
  if p.ret ≠ 0 then return -1
  closeLoop p 0 threads

/-- The loop of `pipe_close_w_close_r_repeat`. -/
def pipeCloseLoop : Nat → Action
  | 0 => return 0
  | n + 1 => do
      let p ← call .pipe
      if p.ret ≠ 0 then return -1
      let t ← create (threadPoll p.fd0)
      let _ ← call (.close p.fd1)
      let _ ← call (.close p.fd0)
      wait t
      pipeCloseLoop n

def pipeCloseWCloseRRepeat : Action := pipeCloseLoop threads

def functionTable : List (String × Action) :=
  [("socketpair_poll1_shutdown2", doSocketpairPoll1Shutdown2),
   ("socketpair_poll1_shutdown1", doSocketpairPoll1Shutdown1),
   ("socketpair_poll1_close1", doSocketpairPoll1Close1),
   ("socketpair_read1_shutdown1", doSocketpairRead1Shutdown1),
   ("pipe_pipe_pipe", doPipePipePipe), ("poll_poll_close", doPollPollClose),
   ("pollin_pollin_write", doPollinPollinWrite),
   ("pollin_pollin_pollin_write_pollin_pollin_pollin",
      doPollinPollinPollinWritePollinPollinPollin),
   ("poll_poll_shutdown", doPollPollShutdown), ("close_poll_poll_poll", doClosePollPollPoll),
   ("close_close_close", doCloseCloseClose),
   ("pipe_close_w_close_w_repeat", pipeCloseWCloseRRepeat)]

/-- `main`, which fails with the usage unless it is given a function. -/
def main (argv : List String) : Action :=
  match argv with
  | [_, name] => (functionTable.lookup name).getD (return -1)
  | _ => return -1

/-! ### Open descriptors -/

/-- What a call leaves open, with what has been open before. -/
def track (fds : List Int) : Call × Answer → List Int
  | (.pipe, r) | (.socketpair, r) => if r.ret = 0 then fds ++ [r.fd0, r.fd1] else fds
  | (.close fd, _) => fds.erase fd
  | _ => fds

def openFds (h : List (Call × Answer)) : List Int := h.foldl track []

@[simp] theorem openFds_append (h : List (Call × Answer)) (e : Call × Answer) :
    openFds (h ++ [e]) = track (openFds h) e := List.foldl_concat _ _ _ _

def NoneOpen (h : List (Call × Answer)) : Prop := openFds h = []

/-- Something is opened when nothing is open, and what is closed is open. -/
def Allowed (fds : List Int) : Call → Prop
  | .pipe | .socketpair => fds = []
  | .close fd => fd ∈ fds
  | _ => True

/-- It opens nothing and closes nothing. -/
def Call.Neutral : Call → Prop
  | pipe | socketpair | close _ => False
  | _ => True

theorem Call.Neutral.allowed {c : Call} (hc : c.Neutral) (fds : List Int) : Allowed fds c := by
  cases c <;> first | exact hc.elim | trivial

theorem Call.Neutral.track {c : Call} (hc : c.Neutral) (fds : List Int) (r : Answer) :
    track fds (c, r) = fds := by
  cases c <;> first | exact hc.elim | rfl

/-- Every call was allowed when it was made. -/
def Neat (h : List (Call × Answer)) : Prop :=
  ∀ before c r after, h = before ++ (c, r) :: after → Allowed (openFds before) c

theorem Neat.append {h : List (Call × Answer)} {c : Call} (hneat : Neat h)
    (hc : Allowed (openFds h) c) (r : Answer) : Neat (h ++ [(c, r)]) := by
  intro before c' r' after hsplit
  rcases List.eq_nil_or_concat after with rfl | ⟨init, last, rfl⟩
  · obtain ⟨rfl, hlast⟩ := List.append_inj' hsplit rfl
    cases hlast
    exact hc
  · rw [List.concat_eq_append, ← List.cons_append, ← List.append_assoc] at hsplit
    exact hneat _ _ _ _ (List.append_inj' hsplit rfl).1

/-- No more than one pipe is open, whatever has been done so far. -/
theorem Neat.twoOpen {h : List (Call × Answer)} (hneat : Neat h) : (openFds h).length ≤ 2 := by
  induction h using List.reverseRecOn with
  | nil => exact Nat.zero_le 2
  | append_singleton h e ih =>
      obtain ⟨c, r⟩ := e
      have hbefore : Neat h := fun before c' r' after hsplit =>
        hneat before c' r' (after ++ [(c, r)]) (by rw [hsplit, List.append_assoc]; rfl)
      have hallowed := hneat h c r [] rfl
      have hopened (hnone : openFds h = []) :
          (if r.ret = 0 then openFds h ++ [r.fd0, r.fd1] else openFds h).length ≤ 2 := by
        rw [hnone]
        split <;> simp
      rw [openFds_append]
      cases c with
      | pipe => exact hopened hallowed
      | socketpair => exact hopened hallowed
      | close fd => exact (List.length_erase_le).trans (ih hbefore)
      | _ => exact ih hbefore

/-! ### Rules -/

def neatRules : Rules Call Answer where
  call _ h c := Allowed (openFds h) c
  child _ c := c.Neutral
  fork _ := True
  join _ := True
  loop := True

def Joined : Post Call Answer Int := fun _ _ live _ => live = []

section

variable {live : List Nat} {h : List (Call × Answer)} {c : Call}
  {Q : Answer → List (Call × Answer) → Prop}

theorem wp_neutral (hc : c.Neutral) (hQ : ∀ r h', openFds h' = openFds h → Q r h') :
    (call c).wp (neatRules.call live) Q h :=
  ⟨hc.allowed _, fun r => hQ r _ (by rw [openFds_append, hc.track])⟩

theorem wp_opens (hc : c = .pipe ∨ c = .socketpair) (hnone : openFds h = [])
    (hQ : ∀ r h', openFds h' = (if r.ret = 0 then [r.fd0, r.fd1] else []) → Q r h') :
    (call c).wp (neatRules.call live) Q h := by
  rcases hc with rfl | rfl
  · exact ⟨hnone, fun r => hQ r _ (by rw [openFds_append, track, hnone]; rfl)⟩
  · exact ⟨hnone, fun r => hQ r _ (by rw [openFds_append, track, hnone]; rfl)⟩

theorem wp_close {fd : Int} (hmem : fd ∈ openFds h)
    (hQ : ∀ r h', openFds h' = (openFds h).erase fd → Q r h') :
    (call (.close fd)).wp (neatRules.call live) Q h :=
  ⟨hmem, fun r => hQ r _ (openFds_append h _)⟩

end

/-! ### Functions that wait for their threads -/

theorem doPollPollClose_neat : doPollPollClose.wp neatRules Joined 0 [] [] := by
  simp only [doPollPollClose, Program.wp_bind, Program.wp_lift, Program.wp_ite,
    Program.wp_pure, wp_create, wp_wait]
  refine wp_opens (.inl rfl) rfl fun p h hopen => ?_
  split
  · rfl
  rename_i hret
  rw [if_pos (not_not.mp hret)] at hopen
  refine ⟨trivial, ⟨trivial, fun _ => trivial⟩, trivial, ⟨trivial, fun _ => trivial⟩, ?_⟩
  refine wp_neutral trivial fun _ h hsleep => ?_
  refine wp_close (by simp [hsleep, hopen]) fun _ h _ => ?_
  simp [neatRules, Joined]

theorem socketpairShutdown_neat {child : Answer → Task Unit}
    (hchild : ∀ p, (child p).All Call.Neutral) :
    (socketpairShutdown child).wp neatRules Joined 0 [] [] := by
  simp only [socketpairShutdown, Program.wp_bind, Program.wp_lift, Program.wp_ite,
    Program.wp_pure, wp_create, wp_wait]
  refine wp_opens (.inr rfl) rfl fun p h hopen => ?_
  split
  · rfl
  rename_i hret
  rw [if_pos (not_not.mp hret)] at hopen
  refine ⟨trivial, hchild p, ?_⟩
  refine wp_neutral trivial fun _ h hsleep => ?_
  refine wp_neutral trivial fun _ h hshutdown => ?_
  refine wp_neutral trivial fun _ h hsleep' => ?_
  refine wp_close (by simp [hsleep', hshutdown, hsleep, hopen]) fun _ h _ => ?_
  simp [neatRules, Joined]

theorem doSocketpairPoll1Close1_neat : doSocketpairPoll1Close1.wp neatRules Joined 0 [] [] := by
  simp only [doSocketpairPoll1Close1, Program.wp_bind, Program.wp_lift, Program.wp_ite,
    Program.wp_pure, wp_create, wp_wait]
  refine wp_opens (.inr rfl) rfl fun p h hopen => ?_
  split
  · rfl
  rename_i hret
  rw [if_pos (not_not.mp hret)] at hopen
  refine ⟨trivial, ⟨trivial, fun _ => trivial⟩, ?_⟩
  refine wp_neutral trivial fun _ h hsleep => ?_
  refine wp_close (by simp [hsleep, hopen]) fun _ h _ => ?_
  simp [neatRules, Joined]

/-- Nothing is open at the start of a turn. -/
theorem doPipePipePipe_neat : doPipePipePipe.wp neatRules Joined 0 [] [] := by
  simp only [doPipePipePipe, Program.wp_bind, Program.wp_pure]
  have hnone : NoneOpen [] := rfl
  refine wp_repeatWhile trivial hnone fun h hnone => ?_
  simp only [Thread.wp_bind, Thread.wp_ite, Thread.wp_pure]
  refine wp_opens (.inl rfl) hnone fun p h hopen => ?_
  split
  · exact ⟨fun hagain => (by cases hagain), fun _ => rfl⟩
  rename_i hret
  rw [if_pos (not_not.mp hret)] at hopen
  refine wp_close (by simp [hopen]) fun _ h hfirst => ?_
  rw [hopen, List.erase_cons_head] at hfirst
  refine wp_close (by simp [hfirst]) fun _ h hsecond => ?_
  rw [hfirst, List.erase_cons_head] at hsecond
  exact ⟨fun _ => hsecond, fun hagain => by cases hagain⟩

theorem wp_writeAll {live : List Nat} {fd : Int} (n : Nat) {h : List (Call × Answer)}
    {Q : Unit → List (Call × Answer) → Prop} (hQ : ∀ h', openFds h' = openFds h → Q () h') :
    (writeAll fd n).wp (neatRules.call live) Q h := by
  induction n generalizing h with
  | zero => exact hQ h rfl
  | succ n ih =>
      rw [writeAll, Thread.wp_bind]
      exact wp_neutral trivial fun _ h' hwrite => ih fun h'' hrest => hQ h'' (hrest.trans hwrite)

theorem doPollinPollinWrite_neat : doPollinPollinWrite.wp neatRules Joined 0 [] [] := by
  simp only [doPollinPollinWrite, Program.wp_bind, Program.wp_lift, Program.wp_ite,
    Program.wp_pure, wp_create, wp_wait]
  refine wp_opens (.inl rfl) rfl fun p h _ => ?_
  split
  · rfl
  refine ⟨trivial, ⟨trivial, fun _ => trivial⟩, trivial, ⟨trivial, fun _ => trivial⟩, ?_⟩
  refine wp_neutral trivial fun _ h _ => ?_
  refine wp_writeAll 100 fun h _ => ?_
  simp [neatRules, Joined]

theorem doPollinPollinPollinWritePollinPollinPollin_neat :
    doPollinPollinPollinWritePollinPollinPollin.wp neatRules Joined 0 [] [] := by
  simp only [doPollinPollinPollinWritePollinPollinPollin, Program.wp_bind, Program.wp_lift,
    Program.wp_ite, Program.wp_pure]
  refine wp_opens (.inl rfl) rfl fun p h hopen => ?_
  split
  · rfl
  rename_i hret
  rw [if_pos (not_not.mp hret)] at hopen
  refine wp_createAll trivial ⟨trivial, fun _ => ⟨trivial, fun _ => ⟨trivial,
    fun _ => trivial⟩⟩⟩ ?_
  refine wp_neutral trivial fun _ h hsleep => ?_
  refine wp_neutral trivial fun _ h hwrite => ?_
  rw [hsleep, hopen] at hwrite
  refine wp_waitAll_created trivial ?_
  refine wp_close (by simp [hwrite]) fun _ h hfirst => ?_
  rw [hwrite, List.erase_cons_head] at hfirst
  exact wp_close (by simp [hfirst]) fun _ h _ => rfl

theorem doClosePollPollPoll_neat : doClosePollPollPoll.wp neatRules Joined 0 [] [] := by
  simp only [doClosePollPollPoll, Program.wp_bind, Program.wp_lift, Program.wp_ite,
    Program.wp_pure]
  refine wp_opens (.inl rfl) rfl fun p h hopen => ?_
  split
  · rfl
  rename_i hret
  rw [if_pos (not_not.mp hret)] at hopen
  refine wp_close (by simp [hopen]) fun _ h _ => ?_
  refine wp_createAll trivial ⟨trivial, fun _ => trivial⟩ ?_
  exact wp_waitAll_created trivial rfl

/-- Nothing is open at the start of a turn, and all threads have been waited for. -/
theorem pipeCloseLoop_neat (n m : Nat) {h : List (Call × Answer)} (hnone : NoneOpen h) :
    (pipeCloseLoop n).wp neatRules Joined m [] h := by
  induction n generalizing m h with
  | zero => rfl
  | succ n ih =>
      simp only [pipeCloseLoop, Program.wp_bind, Program.wp_lift, Program.wp_ite,
        Program.wp_pure, wp_create, wp_wait]
      refine wp_opens (.inl rfl) hnone fun p h hopen => ?_
      split
      · rfl
      rename_i hret
      rw [if_pos (not_not.mp hret)] at hopen
      refine ⟨trivial, ⟨trivial, fun _ => trivial⟩, ?_⟩
      refine wp_close (by simp [hopen]) fun _ h hfirst => ?_
      rw [hopen] at hfirst
      have hleft : [p.fd0, p.fd1].erase p.fd1 = [p.fd0] := by
        rcases eq_or_ne p.fd0 p.fd1 with heq | hne
        · rw [heq, List.erase_cons_head]
        · rw [List.erase_cons_tail (by simpa using hne), List.erase_cons_head]
      rw [hleft] at hfirst
      refine wp_close (by simp [hfirst]) fun _ h hsecond => ?_
      rw [hfirst, List.erase_cons_head] at hsecond
      have hwaited : [m].filter (· ≠ m) = [] := by simp
      refine ⟨List.mem_singleton_self m, trivial, ?_⟩
      rw [hwaited]
      exact ih (m + 1) hsecond

/-! ### The program -/

theorem functionTable_neat : ∀ entry ∈ functionTable, entry.1 ≠ "close_close_close" →
    entry.2.wp neatRules Joined 0 [] [] := by
  have hchild (fd : Int) : (threadPoll fd).All Call.Neutral := ⟨trivial, fun _ => trivial⟩
  simp only [functionTable, List.forall_mem_cons]
  exact ⟨fun _ => socketpairShutdown_neat fun p => hchild p.fd1,
    fun _ => socketpairShutdown_neat fun p => hchild p.fd0,
    fun _ => doSocketpairPoll1Close1_neat,
    fun _ => socketpairShutdown_neat fun _ => ⟨trivial, fun _ => trivial⟩,
    fun _ => doPipePipePipe_neat, fun _ => doPollPollClose_neat,
    fun _ => doPollinPollinWrite_neat,
    fun _ => doPollinPollinPollinWritePollinPollinPollin_neat, fun _ => rfl,
    fun _ => doClosePollPollPoll_neat, fun hne => absurd rfl hne,
    fun _ => pipeCloseLoop_neat threads 0 rfl, List.forall_mem_nil _⟩

theorem main_neat {argv : List String} {name : String} (hargv : argv[1]? = some name)
    (hname : name ≠ "close_close_close") : (main argv).wp neatRules Joined 0 [] [] := by
  unfold main
  split
  · obtain rfl := Option.some.inj hargv
    cases hlookup : functionTable.lookup _ with
    | none => rfl
    | some act =>
        obtain ⟨before, after, htable, -⟩ := List.lookup_eq_some_iff.mp hlookup
        refine functionTable_neat (_, act) ?_ hname
        rw [htable]
        exact List.mem_append_right _ List.mem_cons_self
  · rfl

/-- The calls of all, in their order. -/
def calls (history : List (Event Call Answer)) : List (Call × Answer) :=
  history.map fun e => (e.call, e.result)

theorem reaches_neat {σ : Type} {kernel : σ → Call → Answer → σ → Prop} {s : σ}
    {p : Pool Call Answer σ Int} {program : Action} {Q : Post Call Answer Int}
    (hmain : program.wp neatRules Q 0 [] [])
    (hreach : Reaches kernel (Pool.start program s) p) : Neat (calls p.history) := by
  -- what the threads do leaves open what has been open
  have hkept : openFds (calls p.history) = openFds (own p.history) ∧ Neat (calls p.history) := by
    refine Reaches.keeps (I := fun history => openFds (calls history) = openFds (own history) ∧
      Neat (calls history)) hmain ⟨rfl, ?_⟩ ?_ ?_ hreach
    · exact fun before c r after hsplit => by simp [calls] at hsplit
    · rintro live history c r hcall ⟨hsame, hneat⟩
      rw [calls, List.map_append, own_main, openFds_append]
      refine ⟨?_, hneat.append (hsame ▸ hcall) r⟩
      rw [← hsame]
      exact openFds_append _ _
    · rintro h history t c r hchild ⟨hsame, hneat⟩
      rw [calls, List.map_append, own_thread]
      refine ⟨?_, hneat.append (hchild.allowed _) r⟩
      rw [← hsame]
      exact (openFds_append _ _).trans (hchild.track _ r)
  exact hkept.2

/-- The third thread closes what the first one has closed. -/
theorem doCloseCloseClose_closesTwice : ∃ p : Pool Call Answer Unit Int,
    Reaches (prompt ⟨0, 3, 4⟩) (Pool.start doCloseCloseClose ()) p ∧ ¬ Neat (calls p.history) := by
  refine ⟨_, .head prompt_call <| .head .fork <| .head .fork <| .head .fork <|
    .head (prompt_thread 0 rfl) <| .head (prompt_thread 2 rfl) .refl, fun hneat => ?_⟩
  have hmem : (3 : Int) ∈ [4] := hneat [_, _] (.close 3) _ [] rfl
  simp at hmem

theorem closeLoop_returns (p r : Answer) (i n : Nat) (threads : List (Task Unit))
    (history : List (Event Call Answer)) : ∃ more,
      Reaches (prompt r) ⟨closeLoop p i n, threads, (), history⟩
        ⟨.ret 0, threads ++ more, (), history⟩ := by
  induction n generalizing i threads with
  | zero => exact ⟨[], by rw [List.append_nil]; exact .refl⟩
  | succ n ih =>
      obtain ⟨more, hmore⟩ := ih (i + 1) (threads ++ [_])
      rw [List.append_assoc] at hmore
      exact ⟨_, .head .fork hmore⟩

theorem doCloseCloseClose_leaves : ∃ p : Pool Call Answer Unit Int,
    Reaches (prompt ⟨0, 3, 4⟩) (Pool.start doCloseCloseClose ()) p ∧ p.main = .ret 0 ∧
      ¬ p.Ended := by
  obtain ⟨more, hmore⟩ := closeLoop_returns ⟨0, 3, 4⟩ ⟨0, 3, 4⟩ 1 99 [threadClose 3]
    [⟨none, .pipe, ⟨0, 3, 4⟩⟩]
  refine ⟨_, .head prompt_call <| .head .fork hmore, rfl, fun hended => ?_⟩
  cases hended (threadClose 3) (List.mem_append_left _ (List.mem_singleton_self _))

/-- No more than two descriptors are open, and only what is open is closed. -/
theorem main_neat_iff (name : String) :
    (∀ argv, argv[1]? = some name → ∀ (σ : Type) (kernel : σ → Call → Answer → σ → Prop) (s : σ)
        (p : Pool Call Answer σ Int), Reaches kernel (Pool.start (main argv) s) p →
          Neat (calls p.history) ∧ (openFds (calls p.history)).length ≤ 2) ↔
      name ≠ "close_close_close" := by
  constructor
  · rintro hneat rfl
    obtain ⟨p, hreach, hnot⟩ := doCloseCloseClose_closesTwice
    exact hnot (hneat ["pipetest", "close_close_close"] rfl _ _ () p hreach).1
  · intro hname argv hargv σ kernel s p hreach
    have hneat := reaches_neat (main_neat hargv hname) hreach
    exact ⟨hneat, hneat.twoOpen⟩

/-- When the program returns all its threads have ended, on every kernel and in every order of the
steps, unless it has been given the one action that does not wait for them. -/
theorem main_joins_iff (name : String) :
    (∀ argv, argv[1]? = some name → ∀ (σ : Type) (kernel : σ → Call → Answer → σ → Prop) (s : σ)
        (p : Pool Call Answer σ Int), Reaches kernel (Pool.start (main argv) s) p →
          ∀ v, p.main = .ret v → p.Ended) ↔
      name ≠ "close_close_close" := by
  constructor
  · rintro hjoins rfl
    obtain ⟨p, hreach, hret, hnot⟩ := doCloseCloseClose_leaves
    exact hnot (hjoins ["pipetest", "close_close_close"] rfl _ _ () p hreach 0 hret)
  · intro hname argv hargv σ kernel s p hreach v hret
    obtain ⟨live, hok⟩ := hreach.ok (.start (main_neat hargv hname) s)
    have hlive := hok.returned hret
    subst hlive
    exact hok.allEnded

end Pipetest
