import SystemBluetooth.Bluedroid.Rfkill

/-!
# Switching Bluetooth on

`Enabling` lists the ways `bt_enable` can end: the step that fails, what it returns and
the device it leaves behind, each with the condition on the answers ahead under which it
happens. What the function guarantees on success, and which of the steps before a failure
it takes back, are read off this list.
-/

namespace Bluedroid

open Effect

variable {ε : Type}

/-! ### Bringing the device up -/

/-- An answer to `HCIDEVUP` after which the loop goes on. -/
def Fails (answer : Option Errno) : Prop := ∃ e, answer = some e ∧ e ≠ EALREADY

def Call.OnDevice (c : Call) : Prop := c = .socket ∨ c = .ioctl .devUp

theorem devUp_asks (w : World) :
    ∃ ret errno t, (devUp w : Except ε (Int × Errno) × World) = (.ok (ret, errno), t) ∧
      (¬ Fails (w.answers (.ioctl .devUp) 0) ∧ (ret = 0 ∨ errno = EALREADY) ∧
          (ret = 0 ∨ ret = -1) ∧
          (ret = 0 ↔ w.device.hciUp = false ∧ w.answers (.ioctl .devUp) 0 = none) ∧
          t.device = { w.device with hciUp := true } ∨
        Fails (w.answers (.ioctl .devUp) 0) ∧ ¬ (ret = 0 ∨ errno = EALREADY) ∧ ret = -1 ∧
          t.device = w.device) ∧
      t.rfkillId = w.rfkillId ∧ t.rfkillStatePath = w.rfkillStatePath ∧
      t.answers = w.answers.next (.ioctl .devUp) := by
  refine ⟨_, _, _, rfl, ?_, rfl, rfl, rfl⟩
  cases w.device.hciUp <;> cases w.answers (.ioctl .devUp) 0 with
  | none => simp [Fails]
  | some e => by_cases he : e = EALREADY <;> simp [Fails, he]

/-- How the loop ends when `n` attempts are left: at the first attempt, counted from here,
that has no socket or does not fail, or when all have failed. -/
inductive Looped (n : Nat) (hciSock : Int) (w : World) : Prop where
  | up (k : Nat) (r : Attempts) (t : World) (hk : k < n)
      (run : devUpLoop n hciSock (-1) w = (.ok r, t)) (attempt : r.attempt = n - k)
      (sockets : ∀ j ≤ k, w.answers .socket j = none)
      (before : ∀ j < k, Fails (w.answers (.ioctl .devUp) j))
      (now : ¬ Fails (w.answers (.ioctl .devUp) k))
      (ret : r.ret = 0 ∨ r.ret = -1)
      (zero : r.ret = 0 ↔ w.device.hciUp = false ∧ w.answers (.ioctl .devUp) k = none)
      (device : t.device = { w.device with hciUp := true })
      (statics : t.rfkillId = w.rfkillId ∧ t.rfkillStatePath = w.rfkillStatePath)
      (uses : Uses Call.OnDevice w t)
  | noSocket (k : Nat) (fd : Int) (t : World) (hk : k < n)
      (run : devUpLoop n hciSock (-1) w = (.error (-1, fd), t))
      (sockets : ∀ j < k, w.answers .socket j = none)
      (before : ∀ j < k, Fails (w.answers (.ioctl .devUp) j))
      (now : w.answers .socket k ≠ none) (asked : Asked Call.OnDevice w t)
  | timeout (r : Attempts) (t : World) (run : devUpLoop n hciSock (-1) w = (.ok r, t))
      (attempt : r.attempt = 0) (sockets : ∀ j < n, w.answers .socket j = none)
      (before : ∀ j < n, Fails (w.answers (.ioctl .devUp) j)) (ret : r.ret = -1)
      (asked : Asked Call.OnDevice w t)

/-- One attempt: there is no socket, the device comes up, or the loop goes on in `x`, where
the first answer to each of the two calls is used up. -/
inductive Attempted (n : Nat) (hciSock : Int) (w : World) : Prop where
  | noSocket (fd : Int) (t : World)
      (run : devUpLoop (n + 1) hciSock (-1) w = (.error (-1, fd), t))
      (now : w.answers .socket 0 ≠ none) (asked : Asked Call.OnDevice w t)
  | up (r : Attempts) (t : World) (run : devUpLoop (n + 1) hciSock (-1) w = (.ok r, t))
      (attempt : r.attempt = n + 1) (socket : w.answers .socket 0 = none)
      (now : ¬ Fails (w.answers (.ioctl .devUp) 0)) (ret : r.ret = 0 ∨ r.ret = -1)
      (zero : r.ret = 0 ↔ w.device.hciUp = false ∧ w.answers (.ioctl .devUp) 0 = none)
      (device : t.device = { w.device with hciUp := true })
      (statics : t.rfkillId = w.rfkillId ∧ t.rfkillStatePath = w.rfkillStatePath)
      (uses : Uses Call.OnDevice w t)
  | again (fd : Int) (x : World)
      (run : devUpLoop (n + 1) hciSock (-1) w = devUpLoop n fd (-1) x)
      (socket : w.answers .socket 0 = none) (fails : Fails (w.answers (.ioctl .devUp) 0))
      (sockets : ∀ j, x.answers .socket j = w.answers .socket (j + 1))
      (devUps : ∀ j, x.answers (.ioctl .devUp) j = w.answers (.ioctl .devUp) (j + 1))
      (asked : Asked Call.OnDevice w x)

theorem devUpLoop_attempted (n : Nat) (hciSock : Int) (w : World) : Attempted n hciSock w := by
  have hsocket : Call.OnDevice .socket := Or.inl rfl
  have hioctl : Call.OnDevice (.ioctl .devUp) := Or.inr rfl
  obtain ⟨fd, v, hopen, hfd, hv, hvanswers⟩ :=
    descriptor_asks (ε := Int × Int) Call.OnDevice .socket hsocket (fun _ => true) w
  by_cases hneg : fd < 0
  · have hnone : w.answers .socket 0 ≠ none := by
      intro h
      have := hfd.mpr ⟨h, rfl⟩
      omega
    refine .noSocket fd v ?_ hnone hv
    rw [devUpLoop, createHciSock, bind_ok hopen, when_pos hneg]
    rfl
  have hnone : w.answers .socket 0 = none := (hfd.mp (by omega)).1
  have hsame : v.answers (.ioctl .devUp) = w.answers (.ioctl .devUp) := by
    rw [hvanswers, Answers.next_other (by simp)]
  obtain ⟨ret, errno, u, hup, hcases, hid, hpath, huanswers⟩ := devUp_asks (ε := Int × Int) v
  rw [hsame, hv.device] at hcases
  have hloop : devUpLoop (n + 1) hciSock (-1) w =
      (if ret = 0 ∨ errno = EALREADY then
        (pure ⟨n + 1, fd, ret⟩ : Effect World (Int × Int) Attempts)
      else do
        closeFile fd
        usleep 100000
        devUpLoop n fd ret) u := by
    rw [devUpLoop, createHciSock, bind_ok hopen, when_neg hneg, pure_bind_apply, bind_ok hup]
  have huses : Uses Call.OnDevice w u := hv.uses.trans _ _ _ (.of_next _ hioctl huanswers)
  have hstatics := And.intro (hid.trans hv.rfkillId) (hpath.trans hv.rfkillStatePath)
  obtain ⟨hnow, hbreak, hret, hzero, hdevice⟩ | ⟨hfails, hgoes, rfl, hdevice⟩ := hcases
  · refine .up ⟨n + 1, fd, ret⟩ u ?_ rfl hnone hnow hret hzero hdevice hstatics huses
    rw [hloop, if_pos hbreak]
    rfl
  · refine .again fd { u with io := u.io ++ [.close fd] ++ [.usleep 100000] } ?_ hnone hfails
      (fun j => ?_) (fun j => ?_) ⟨hdevice, hstatics.1, hstatics.2, huses⟩
    · rw [hloop, if_neg hgoes]
      rfl
    · change u.answers .socket j = _
      rw [huanswers, Answers.next_other (by simp), hvanswers, Answers.next, if_pos rfl]
    · change u.answers (.ioctl .devUp) j = _
      rw [huanswers, Answers.next, if_pos rfl, hsame]

/-- What holds of the answers ahead and of the first one holds of one more. -/
theorem forall_lt_succ_of_shift {P : Option Errno → Prop} {a b : Nat → Option Errno} {m : Nat}
    (hshift : ∀ j, b j = a (j + 1)) (hfirst : P (a 0)) (hrest : ∀ j < m, P (b j)) :
    ∀ j < m + 1, P (a j) := by
  intro j hj
  cases j with
  | zero => exact hfirst
  | succ j => exact hshift j ▸ hrest j (by omega)

/-- An attempt that fails is the first of those that the loop counts. -/
theorem devUpLoop_looped (n : Nat) (hciSock : Int) (w : World) : Looped n hciSock w := by
  induction n generalizing hciSock w with
  | zero => exact .timeout _ w rfl rfl (by simp) (by simp) rfl (.refl _ w)
  | succ n ih =>
      have hattempted := devUpLoop_attempted n hciSock w
      cases hattempted with
      | noSocket fd t run now asked =>
          exact .noSocket 0 fd t (by omega) run (by simp) (by simp) now asked
      | up r t run attempt socket now ret zero device statics uses =>
          refine .up 0 r t (by omega) run attempt ?_ (by simp) now ret zero device statics uses
          intro j hj
          obtain rfl : j = 0 := by omega
          exact socket
      | again fd x hrun socket fails hsockets hdevUps hx =>
          have hall {m : Nat} := forall_lt_succ_of_shift (P := (· = none)) (m := m) hsockets socket
          have hfailed {m : Nat} := forall_lt_succ_of_shift (P := Fails) (m := m) hdevUps fails
          cases ih fd x with
          | up k r t hk run attempt sockets before now ret zero device statics uses =>
              refine .up (k + 1) r t (by omega) (hrun.trans run) (by omega) ?_ (hfailed before) ?_
                ret ?_ ?_ ?_ (hx.uses.trans _ _ _ uses)
              · intro j hj
                exact hall (m := k + 1) (fun i hi => sockets i (by omega)) j (by omega)
              · exact hdevUps k ▸ now
              · rw [zero, hdevUps, hx.device]
              · rw [device, hx.device]
              · exact ⟨statics.1.trans hx.rfkillId, statics.2.trans hx.rfkillStatePath⟩
          | noSocket k fd t hk run sockets before now asked =>
              exact .noSocket (k + 1) fd t (by omega) (hrun.trans run) (hall sockets)
                (hfailed before) (hsockets k ▸ now) (hx.trans asked)
          | timeout r t run attempt sockets before ret asked =>
              exact .timeout r t (hrun.trans run) attempt (hall sockets) (hfailed before) ret
                (hx.trans asked)

/-! ### The steps and what they need -/

def PowersOn (b : Build) (w : World) : Prop :=
  b.rfkill → (setBluetoothPower true w : Except (Int × Int) Int × World).1 = .ok 0

def TransportStarts (b : Build) (w : World) : Prop :=
  w.answers (.propertySet (transport b true)) 0 = none

/-- Attempt `k` is the first that does not fail, and it and all before have a socket. -/
def ComesUpAt (k : Nat) (w : World) : Prop :=
  k < 100 ∧ (∀ j ≤ k, w.answers .socket j = none) ∧
    (∀ j < k, Fails (w.answers (.ioctl .devUp) j)) ∧ ¬ Fails (w.answers (.ioctl .devUp) k)

def ComesUp (w : World) : Prop := ∃ k, ComesUpAt k w

/-- The device comes up by the attempt itself, and is not reported to be up already. -/
def ReturnsZero (w : World) : Prop :=
  ∃ k, ComesUpAt k w ∧ w.device.hciUp = false ∧ w.answers (.ioctl .devUp) k = none

def SocketFails (w : World) : Prop :=
  ∃ k < 100, (∀ j < k, w.answers .socket j = none) ∧
    (∀ j < k, Fails (w.answers (.ioctl .devUp) j)) ∧ w.answers .socket k ≠ none

def TimesOut (w : World) : Prop :=
  (∀ j < 100, w.answers .socket j = none) ∧ ∀ j < 100, Fails (w.answers (.ioctl .devUp) j)

def DaemonStarts (w : World) : Prop := w.answers (.propertySet (.start .bluetoothd)) 0 = none

/-- The calls that take a step back succeed. The first file opened for writing is the one
that switches the power on. -/
structure UndoSucceeds (answers : Answers) : Prop where
  openFile : ∀ path n, answers (.openFile path .write) (n + 1) = none
  writeFile : ∀ path n, answers (.writeFile path '0') n = none
  stop : ∀ n, answers (.propertySet (.stop .hciattach)) n = none
  hciattach : ∀ n, answers (.propertySet (.hciattach false)) n = none

theorem ComesUpAt.unique {j k : Nat} {w : World} (hj : ComesUpAt j w) (hk : ComesUpAt k w) :
    j = k := by
  obtain h | h | h := Nat.lt_trichotomy j k
  · exact absurd (hk.2.2.1 j h) hj.2.2.2
  · exact h
  · exact absurd (hj.2.2.1 k h) hk.2.2.2

theorem ReturnsZero.comesUp {w : World} (h : ReturnsZero w) : ComesUp w := by
  obtain ⟨k, hk, _, _⟩ := h
  exact ⟨k, hk⟩

theorem SocketFails.not_comesUp {w : World} (h : SocketFails w) : ¬ ComesUp w := by
  rintro ⟨j, _, hsockets, _, hnow⟩
  obtain ⟨k, _, _, hfailed, hsocket⟩ := h
  cases Nat.lt_or_ge j k with
  | inl hlt => exact hnow (hfailed j hlt)
  | inr hge => exact hsocket (hsockets k hge)

theorem TimesOut.not_comesUp {w : World} (h : TimesOut w) : ¬ ComesUp w := by
  rintro ⟨k, hk, _, _, hnow⟩
  exact hnow (h.2 k hk)

/-- The device with the power of node `k` switched, in builds that switch it. -/
def powered (b : Build) (k : Nat) (on : Bool) (d : Device) : Device :=
  if b.rfkill then d.setState k (level on) else d

/-- Power on: it fails and changes nothing, or the power of the remembered node is on. -/
theorem powerOn_cases (b : Build) {w : World} (hw : Statics w) :
    ∃ t, Uses Call.OnFile w t ∧
      ((when b.rfkill do
          let result ← setBluetoothPower true
          when (result < 0) (stop (-1, -1)) : Effect World (Int × Int) Unit) w =
            (.error (-1, -1), t) ∧ ¬ PowersOn b w ∧ t.device = w.device ∨
        ∃ k, (when b.rfkill do
          let result ← setBluetoothPower true
          when (result < 0) (stop (-1, -1)) : Effect World (Int × Int) Unit) w = (.ok (), t) ∧
            PowersOn b w ∧ t.device = powered b k true w.device ∧ (b.rfkill → Remembers t k) ∧
            (UndoSucceeds w.answers → b.rfkill →
              ∀ n, t.answers (.openFile (.state k) .write) n = none)) := by
  by_cases hb : b.rfkill = true
  · obtain ⟨r, t, hrun, huses, _, hcases⟩ := setBluetoothPower_cases (ε := Int × Int) true hw
    refine ⟨t, huses, ?_⟩
    rw [when_pos hb, bind_ok hrun]
    obtain ⟨k, rfl, hk, hdevice, hopened⟩ | ⟨rfl, hdevice⟩ := hcases
    · refine Or.inr ⟨k, rfl, fun _ => by rw [hrun], ?_, fun _ => hk, fun hundo _ =>
        hopened _ (hundo.openFile _) rfl⟩
      rw [hdevice, powered, if_pos hb]
    · refine Or.inl ⟨rfl, fun h => ?_, hdevice⟩
      have := h hb
      rw [hrun] at this
      simp at this
  · refine ⟨w, .refl w, Or.inr ⟨0, ?_, fun h => absurd h hb, ?_, fun h => absurd h hb,
      fun _ h => absurd h hb⟩⟩
    · rw [when_neg hb]
      rfl
    · rw [powered, if_neg hb]

/-- Power off on a failing path. -/
theorem powerOff_cases (b : Build) {w : World} {k : Nat} (hw : b.rfkill → Remembers w k) :
    ∃ t, powerOff b w = (.ok (), t) ∧
      ((b.rfkill → w.answers (.openFile (.state k) .write) 0 = none ∧
          w.answers (.writeFile (.state k) '0') 0 = none) →
        t.device = powered b k false w.device) := by
  by_cases hb : b.rfkill = true
  · obtain ⟨r, t, hrun, hs⟩ := setBluetoothPower_remembered (ε := Int × Int) false (hw hb)
    refine ⟨t, ?_, fun hok => ?_⟩
    · rw [powerOff, when_pos hb, bind_ok hrun]
      rfl
    · have hzero := hs.succeeds (hok hb).1 (hok hb).2
      obtain ⟨_, hdevice⟩ | ⟨hr, _⟩ := hs.result
      · rw [hdevice, powered, if_pos hb]
      · omega
  · refine ⟨w, ?_, fun _ => ?_⟩
    · rw [powerOff, when_neg hb]
      rfl
    · rw [powered, if_neg hb]

theorem propertySet_asks (p : Property) (w : World) :
    ∃ r t, (propertySet p w : Except ε Int × World) = (.ok r, t) ∧
      (0 ≤ r ∧ w.answers (.propertySet p) 0 = none ∧ t.device = w.device.setProperty p ∨
        r < 0 ∧ w.answers (.propertySet p) 0 ≠ none ∧ t.device = w.device) ∧
      t.rfkillId = w.rfkillId ∧ t.rfkillStatePath = w.rfkillStatePath ∧
      t.answers = w.answers.next (.propertySet p) := by
  have hrun := make_apply (ε := ε) (.propertySet p) (fun w answer =>
    if answer = none then (0, w.device.setProperty p) else (-1, w.device)) w
  refine ⟨_, _, hrun, ?_, rfl, rfl, rfl⟩
  by_cases h : w.answers (.propertySet p) 0 = none
  · exact Or.inl (by simp [h])
  · exact Or.inr (by simp [h])

theorem setProperty_nodes (d : Device) (p : Property) : (d.setProperty p).nodes = d.nodes := by
  cases p with
  | start s => cases s <;> rfl
  | stop s => cases s <;> rfl
  | hciattach v => rfl

/-! ### The ways to end -/

/-- The device once the power is on and the transport is started. -/
def started (b : Build) (k : Nat) (d : Device) : Device :=
  (powered b k true d).setProperty (transport b true)

/-- How `bt_enable` ends: the step that fails, the number returned and the device, which
where steps are taken back is said for undo calls that succeed. -/
inductive Enabling (b : Build) (w : World) : Prop where
  | noPower (t : World) (run : btEnable b w = (.ok (-1), t))
      (fails : ¬ PowersOn b w) (device : t.device = w.device)
  | noTransport (k : Nat) (t : World)
      (run : btEnable b w = (.ok (-1), t)) (power : PowersOn b w)
      (fails : ¬ TransportStarts b w)
      (device : UndoSucceeds w.answers →
        t.device = powered b k false (powered b k true w.device))
  | noSocket (k : Nat) (t : World)
      (run : btEnable b w = (.ok (-1), t)) (power : PowersOn b w)
      (transport : TransportStarts b w) (fails : SocketFails w)
      (device : t.device = started b k w.device)
  | timeout (k : Nat) (t : World)
      (run : btEnable b w = (.ok (-1), t)) (power : PowersOn b w)
      (transport : TransportStarts b w) (fails : TimesOut w)
      (device : UndoSucceeds w.answers →
        t.device = powered b k false ((started b k w.device).setProperty (.stop .hciattach)))
  | noDaemon (k : Nat) (r : Int) (t : World)
      (run : btEnable b w = (.ok r, t)) (power : PowersOn b w)
      (transport : TransportStarts b w) (comesUp : ComesUp w) (fails : ¬ DaemonStarts w)
      (zero : r = 0 ↔ ReturnsZero w)
      (device : UndoSucceeds w.answers →
        t.device = powered b k false { started b k w.device with hciUp := true })
  | success (k : Nat) (t : World) (run : btEnable b w = (.ok 0, t))
      (power : PowersOn b w) (transport : TransportStarts b w) (comesUp : ComesUp w)
      (daemon : DaemonStarts w) (remembers : b.rfkill → Remembers t k)
      (device : t.device =
        Device.setProperty { started b k w.device with hciUp := true } (.start .bluetoothd))

theorem started_hciUp (b : Build) (k : Nat) (d : Device) : (started b k d).hciUp = d.hciUp := by
  have hset : ∀ (e : Device) p, (e.setProperty p).hciUp = e.hciUp := by
    intro e p
    cases p with
    | start s => cases s <;> rfl
    | stop s => cases s <;> rfl
    | hciattach v => rfl
  rw [started, hset, powered]
  split <;> rfl

/-- `bt_enable` from the loop on. -/
def bringUp (b : Build) : Effect World (Int × Int) (Int × Int) := do
  let loop ← devUpLoop 100 (-1) (-1)
  when (loop.attempt = 0) do
    let _ ← propertySet (.stop .hciattach)
    powerOff b
    stop (loop.ret, loop.hciSock)
  let started ← propertySet (.start .bluetoothd)
  when (started < 0) do
    powerOff b
    stop (loop.ret, loop.hciSock)
  return (0, loop.hciSock)

/-- The loop starts in `u`, with the power of node `k` on and the transport started. What
the calls of the loop answer is as before, and so are the undo calls that succeed. -/
structure Prepared (b : Build) (w : World) (k : Nat) (u : World) : Prop where
  run : btEnable b w = (merge (bringUp b) >>= closeAndReturn) u
  power : PowersOn b w
  starts : TransportStarts b w
  device : u.device = started b k w.device
  remembers : b.rfkill → Remembers u k
  other : ∀ {c : Call}, ¬ c.OnFile → c ≠ .propertySet (transport b true) →
    u.answers c = w.answers c
  powersOff : UndoSucceeds w.answers → b.rfkill →
    u.answers (.openFile (.state k) .write) 0 = none ∧
      u.answers (.writeFile (.state k) '0') 0 = none
  stops : UndoSucceeds w.answers → ∀ n, u.answers (.propertySet (.stop .hciattach)) n = none

namespace Prepared

variable {b : Build} {w u : World} {k : Nat}

theorem socket (h : Prepared b w k u) : u.answers .socket = w.answers .socket :=
  h.other id (by simp)

theorem devUp (h : Prepared b w k u) :
    u.answers (.ioctl .devUp) = w.answers (.ioctl .devUp) :=
  h.other id (by simp)

theorem daemon (h : Prepared b w k u) :
    u.answers (.propertySet (.start .bluetoothd)) =
      w.answers (.propertySet (.start .bluetoothd)) := by
  apply h.other id
  rcases b with ⟨_, _ | _⟩ <;> simp [transport]

/-- The power can still be switched off after calls that use no file. -/
theorem undo (h : Prepared b w k u) {x : World} (huses : Uses (fun c => ¬ c.OnFile) u x)
    (hundo : UndoSucceeds w.answers) (hb : b.rfkill) :
    x.answers (.openFile (.state k) .write) 0 = none ∧
      x.answers (.writeFile (.state k) '0') 0 = none := by
  rw [huses.other (c := .openFile _ _) fun hc => hc trivial,
    huses.other (c := .writeFile _ _) fun hc => hc trivial]
  exact h.powersOff hundo hb

end Prepared

theorem Uses.off_file {u x : World} (h : Uses Call.OnDevice u x) :
    Uses (fun c => ¬ c.OnFile) u x := by
  apply h.mono
  intro c hc
  rcases hc with rfl | rfl <;> exact id

/-- Either a first step fails, or the loop is reached. -/
theorem btEnable_prepares (b : Build) {w : World} (hw : Statics w) :
    Enabling b w ∨ ∃ k u, Prepared b w k u := by
  obtain ⟨v, hpower, ⟨hrun, hfails, hdevice⟩ | ⟨k, hrun, hpowers, hdevice, hk, hopened⟩⟩ :=
    powerOn_cases b hw
  · obtain ⟨t, hclose, ht, _⟩ := closeAndReturn_asks (ε := Empty) Call.OnFile (-1, -1) v
    refine Or.inl (.noPower t ?_ hfails (ht.device.trans hdevice))
    refine (bind_ok (merge_error ?_)).trans hclose
    rw [bind_error hrun]
  obtain ⟨r, u, hset, hstarts, huid, hupath, huanswers⟩ :=
    propertySet_asks (ε := Int × Int) (transport b true) v
  have hsame : v.answers (.propertySet (transport b true)) =
      w.answers (.propertySet (transport b true)) := hpower.other id
  rw [hsame, hdevice] at hstarts
  have hnext : Uses (fun c => ¬ c.OnFile) v u := .of_next (.propertySet _) id huanswers
  have hundo : UndoSucceeds w.answers → b.rfkill →
      u.answers (.openFile (.state k) .write) 0 = none ∧
        u.answers (.writeFile (.state k) '0') 0 = none := by
    intro h hb
    rw [hnext.other (c := .openFile _ _) fun hc => hc trivial,
      hnext.other (c := .writeFile _ _) fun hc => hc trivial]
    exact ⟨hopened h hb 0, hpower.never_fails (h.writeFile _) 0⟩
  obtain ⟨hr, htransport, hudevice⟩ | ⟨hr, htransport, hudevice⟩ := hstarts
  · refine Or.inr ⟨k, u, ?_, hpowers, htransport, hudevice, fun hb => ?_, fun hc hne => ?_, hundo,
      fun h n => ?_⟩
    · refine bind_congr (merge_congr ?_)
      rw [bind_ok hrun, bind_ok hset, when_neg (by omega), pure_bind_apply]
      rfl
    · exact (hk hb).of_nodes huid hupath (by rw [hudevice, setProperty_nodes, hdevice])
    · rw [huanswers, Answers.next_other hne, hpower.other hc]
    · exact hnext.never_fails (fun m => hpower.never_fails h.stop m) n
  · -- the transport does not start: the power is switched off again
    have hku : b.rfkill → Remembers u k := fun hb =>
      (hk hb).of_device huid hupath (hudevice.trans hdevice.symm)
    obtain ⟨x, hoff, hxdevice⟩ := powerOff_cases b hku
    obtain ⟨t, hclose, ht, _⟩ := closeAndReturn_asks (ε := Empty) Call.OnFile (-1, -1) x
    refine Or.inl (.noTransport k t ?_ hpowers htransport fun h => ?_)
    · refine (bind_ok (merge_error ?_)).trans hclose
      rw [bind_ok hrun, bind_ok hset, when_pos hr, bind_assoc, bind_ok hoff, stop_bind_apply]
    · rw [ht.device, hxdevice (hundo h), hudevice]

/-- All attempts have failed: the daemon is stopped and the power switched off. -/
theorem Prepared.timesOut {b : Build} {w u x : World} {k : Nat} {a : Attempts}
    (h : Prepared b w k u) (loop : devUpLoop 100 (-1) (-1) u = (.ok a, x))
    (attempt : a.attempt = 0) (ret : a.ret = -1) (fails : TimesOut w)
    (asked : Asked Call.OnDevice u x) : Enabling b w := by
  obtain ⟨r, y, hstop, hstopped, hyid, hypath, hyanswers⟩ :=
    propertySet_asks (ε := Int × Int) (.stop .hciattach) x
  have hynodes : y.device.nodes = x.device.nodes := by
    obtain ⟨_, _, hy⟩ | ⟨_, _, hy⟩ := hstopped
    · rw [hy, setProperty_nodes]
    · rw [hy]
  have hky : b.rfkill → Remembers y k := fun hb =>
    ((h.remembers hb).of_device asked.rfkillId asked.rfkillStatePath asked.device).of_nodes
      hyid hypath hynodes
  obtain ⟨z, hoff, hzdevice⟩ := powerOff_cases b hky
  obtain ⟨t, hclose, ht, _⟩ := closeAndReturn_asks (ε := Empty) Call.OnFile (a.ret, a.hciSock) z
  refine .timeout k t ?_ h.power h.starts fails fun hundo => ?_
  · rw [h.run, ← ret]
    refine (bind_ok (merge_error ?_)).trans hclose
    rw [bringUp, bind_ok loop, when_pos attempt, bind_assoc, bind_ok hstop, bind_assoc,
      bind_ok hoff, stop_bind_apply]
  · have hyuses : Uses (fun c => ¬ c.OnFile) u y :=
      asked.uses.off_file.trans _ _ _ (.of_next (.propertySet _) id hyanswers)
    have hnone : x.answers (.propertySet (.stop .hciattach)) 0 = none :=
      asked.uses.never_fails (h.stops hundo) 0
    rw [ht.device, hzdevice (h.undo hyuses hundo)]
    obtain ⟨_, _, hy⟩ | ⟨_, hfail, _⟩ := hstopped
    · rw [hy, asked.device, h.device]
    · exact absurd hnone hfail

/-- Attempt `n` brings the device up: what remains is to start bluetoothd. -/
theorem Prepared.comesUp {b : Build} {w u x : World} {k n : Nat} {a : Attempts}
    (h : Prepared b w k u) (loop : devUpLoop 100 (-1) (-1) u = (.ok a, x))
    (attempt : a.attempt ≠ 0) (hcomesUp : ComesUpAt n w)
    (zero : a.ret = 0 ↔ w.device.hciUp = false ∧ w.answers (.ioctl .devUp) n = none)
    (device : x.device = { u.device with hciUp := true })
    (statics : x.rfkillId = u.rfkillId ∧ x.rfkillStatePath = u.rfkillStatePath)
    (uses : Uses Call.OnDevice u x) : Enabling b w := by
  obtain ⟨r, y, hstart, hstarted, hyid, hypath, hyanswers⟩ :=
    propertySet_asks (ε := Int × Int) (.start .bluetoothd) x
  have hxdaemon : x.answers (.propertySet (.start .bluetoothd)) =
      w.answers (.propertySet (.start .bluetoothd)) := by
    rw [uses.other (by rintro (hc | hc) <;> cases hc), h.daemon]
  have hxdevice : x.device = { started b k w.device with hciUp := true } := by
    rw [device, h.device]
  have hkx : b.rfkill → Remembers x k := fun hb =>
    (h.remembers hb).of_nodes statics.1 statics.2 (by rw [device])
  rw [hxdaemon] at hstarted
  obtain ⟨hr, hdaemonStarts, hydevice⟩ | ⟨hr, hdaemonFails, hydevice⟩ := hstarted
  · obtain ⟨t, hclose, ht, _⟩ := closeAndReturn_asks (ε := Empty) Call.OnFile (0, a.hciSock) y
    refine .success k t ?_ h.power h.starts ⟨n, hcomesUp⟩ hdaemonStarts (fun hb => ?_) ?_
    · refine h.run.trans ((bind_ok (merge_ok ?_)).trans hclose)
      rw [bringUp, bind_ok loop, when_neg attempt, pure_bind_apply, bind_ok hstart,
        when_neg (by omega)]
      rfl
    · exact ((hkx hb).of_nodes hyid hypath (by rw [hydevice, setProperty_nodes])).of_device
        ht.rfkillId ht.rfkillStatePath ht.device
    · rw [ht.device, hydevice, hxdevice]
  · have hky : b.rfkill → Remembers y k := fun hb => (hkx hb).of_device hyid hypath hydevice
    obtain ⟨z, hoff, hzdevice⟩ := powerOff_cases b hky
    obtain ⟨t, hclose, ht, _⟩ :=
      closeAndReturn_asks (ε := Empty) Call.OnFile (a.ret, a.hciSock) z
    refine .noDaemon k a.ret t ?_ h.power h.starts ⟨n, hcomesUp⟩ hdaemonFails ?_ fun hundo => ?_
    · refine h.run.trans ((bind_ok (merge_error ?_)).trans hclose)
      rw [bringUp, bind_ok loop, when_neg attempt, pure_bind_apply, bind_ok hstart, when_pos hr,
        bind_assoc, bind_ok hoff, stop_bind_apply]
    · rw [zero]
      constructor
      · rintro ⟨hup, hnone⟩
        exact ⟨n, hcomesUp, hup, hnone⟩
      · rintro ⟨m, hm, hup, hnone⟩
        obtain rfl := hm.unique hcomesUp
        exact ⟨hup, hnone⟩
    · have hyuses : Uses (fun c => ¬ c.OnFile) u y :=
        uses.off_file.trans _ _ _ (.of_next (.propertySet _) id hyanswers)
      rw [ht.device, hzdevice (h.undo hyuses hundo), hydevice, hxdevice]

theorem btEnable_cases (b : Build) {w : World} (hw : Statics w) : Enabling b w := by
  obtain done | ⟨k, u, h⟩ := btEnable_prepares b hw
  · exact done
  have hlooped := devUpLoop_looped 100 (-1) u
  cases hlooped with
  | noSocket n fd x hn loop sockets before now asked =>
      obtain ⟨t, hclose, ht, _⟩ := closeAndReturn_asks (ε := Empty) Call.OnFile (-1, fd) x
      rw [h.socket] at sockets now
      rw [h.devUp] at before
      refine .noSocket k t ?_ h.power h.starts ⟨n, hn, sockets, before, now⟩ ?_
      · refine h.run.trans ((bind_ok (merge_error ?_)).trans hclose)
        rw [bringUp, bind_error loop]
      · rw [ht.device, asked.device, h.device]
  | timeout a x loop attempt sockets before ret asked =>
      rw [h.socket] at sockets
      rw [h.devUp] at before
      exact h.timesOut loop attempt ret ⟨sockets, before⟩ asked
  | up n a x hn loop attempt sockets before now ret zero device statics uses =>
      rw [h.socket] at sockets
      rw [h.devUp] at before now zero
      rw [h.device, started_hciUp] at zero
      exact h.comesUp loop (by omega) ⟨hn, sockets, before, now⟩ zero device statics uses

end Bluedroid
