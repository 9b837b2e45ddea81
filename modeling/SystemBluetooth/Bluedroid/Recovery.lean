import SystemBluetooth.Bluedroid.Report

/-!
# Recovering from half-done calls

Any step of `bt_enable` and `bt_disable` can fail and leave the rest undone, and the node
looked up in one call is remembered in the next. What survives every call, whatever fails
in it, is that the nodes are the same and that what is remembered is one of them; from
there a `bt_disable` without failures switches everything off, and a `bt_enable` everything
on.
-/

namespace Bluedroid

open Effect

variable {ε : Type}

/-! ### What every call preserves -/

/-- The same nodes, up to their state. -/
def SameNodes (d e : Device) : Prop :=
  e.nodes.length = d.nodes.length ∧ ∀ i, (e.node i).map Node.type = (d.node i).map Node.type

/-- The nodes are the same, and what is remembered is still a Bluetooth node. -/
def Stable (w t : World) : Prop := SameNodes w.device t.device ∧ (Statics w → Statics t)

theorem SameNodes.of_eq {d e : Device} (h : e.nodes = d.nodes) : SameNodes d e :=
  ⟨by rw [h], fun i => by rw [Device.node, h, Device.node]⟩

theorem Remembers.of_sameNodes {w t : World} {k : Nat} (h : Remembers w k)
    (hid : t.rfkillId = w.rfkillId) (hpath : t.rfkillStatePath = w.rfkillStatePath)
    (hnodes : SameNodes w.device t.device) : Remembers t k := by
  obtain ⟨hk, hstate, node, hnode, hbt⟩ := h
  have htype := hnodes.2 k
  rw [hnode, Option.map_some, Option.map_eq_some_iff] at htype
  obtain ⟨node', hnode', htype⟩ := htype
  exact ⟨hid.trans hk, hpath.trans hstate, node', hnode', by rw [Node.Bluetooth, htype]; exact hbt⟩

namespace Stable

theorem refl (w : World) : Stable w w := ⟨.of_eq rfl, id⟩

theorem trans (w u t : World) (h₁ : Stable w u) (h₂ : Stable u t) : Stable w t :=
  ⟨⟨h₂.1.1.trans h₁.1.1, fun i => (h₂.1.2 i).trans (h₁.1.2 i)⟩, fun h => h₂.2 (h₁.2 h)⟩

theorem of_sameNodes {w t : World} (hid : t.rfkillId = w.rfkillId)
    (hpath : t.rfkillStatePath = w.rfkillStatePath) (hnodes : SameNodes w.device t.device) :
    Stable w t := by
  refine ⟨hnodes, ?_⟩
  rintro (hnone | ⟨k, hk⟩)
  · exact Or.inl (hid.trans hnone)
  · exact Or.inr ⟨k, hk.of_sameNodes hid hpath hnodes⟩

end Stable

theorem make_stable {call : Call} {perform : World → Option Errno → Int × Device}
    (h : ∀ w a, SameNodes w.device (perform w a).2) :
    Keeps Stable (make call perform : Effect World ε Int) :=
  fun w => .of_sameNodes rfl rfl (h w _)

theorem setState_sameNodes (d : Device) (k : Nat) (c : Char) : SameNodes d (d.setState k c) := by
  refine ⟨by simp [Device.setState], fun i => ?_⟩
  rw [node_setState]
  by_cases hk : k = i
  · rw [if_pos hk, Option.map_map]
    rfl
  · rw [if_neg hk]

theorem descriptor_stable (call : Call) (succeeds : World → Bool) :
    Keeps Stable (descriptor call succeeds : Effect World ε Int) := by
  refine Keeps.bind Stable.trans (make_stable fun w a => .of_eq rfl) (fun fd => ?_)
  refine Keeps.bind Stable.trans (Keeps.when Stable.refl ?_) (fun _ => Keeps.pure Stable.refl _)
  exact Keeps.modify fun w => .of_sameNodes rfl rfl (.of_eq rfl)

theorem openFile_stable (path : Option Path) (mode : Mode) :
    Keeps Stable (openFile path mode : Effect World ε Int) := by
  cases path with
  | none => exact Keeps.pure Stable.refl _
  | some path => exact descriptor_stable _ _

theorem writeFile_stable (path : Path) (value : Char) :
    Keeps Stable (writeFile path value : Effect World ε Int) := by
  apply make_stable
  intro w a
  split
  · exact setState_sameNodes _ _ _
  · exact .of_eq rfl

theorem propertySet_stable (p : Property) :
    Keeps Stable (propertySet p : Effect World ε Int) := by
  apply make_stable
  intro w a
  split
  · exact .of_eq (setProperty_nodes _ _)
  · exact .of_eq rfl

theorem initRfkill_stable : Keeps Stable (initRfkill : Effect World ε Int) := by
  intro w
  obtain ⟨r, t, hrun, hdevice, _, hcases⟩ :=
    initRfkillLoop_cases (ε := ε) (w.device.nodes.length + 1) 0 w
  have hrun' : (initRfkill w : Except ε Int × World) = (.ok r, t) := hrun
  rw [wp_of_ok hrun']
  refine ⟨.of_eq (by rw [hdevice]), fun h => ?_⟩
  obtain ⟨_, hk⟩ | ⟨_, hid, hpath⟩ := hcases
  · exact Or.inr hk
  · exact (Stable.of_sameNodes hid hpath (.of_eq (by rw [hdevice]))).2 h

theorem closeAndReturn_stable (r : Int × Int) :
    Keeps Stable (closeAndReturn r : Effect World ε Int) := by
  intro w
  obtain ⟨t, hrun, ht, _⟩ := closeAndReturn_asks (ε := ε) Call.OnFile r w
  rw [wp_of_ok hrun]
  exact .of_sameNodes ht.rfkillId ht.rfkillStatePath (.of_eq (by rw [ht.device]))

theorem ensureRfkill_stable : Keeps Stable ensureRfkill := by
  refine Keeps.bind Stable.trans (Keeps.gets Stable.refl _) (fun id => ?_)
  refine Keeps.when Stable.refl (Keeps.bind Stable.trans initRfkill_stable fun failed => ?_)
  exact Keeps.when Stable.refl (Keeps.stop Stable.refl _)

theorem setBluetoothPower_stable (on : Bool) :
    Keeps Stable (setBluetoothPower on : Effect World ε Int) := by
  refine Keeps.bind Stable.trans (Keeps.merge ?_) closeAndReturn_stable
  refine Keeps.bind Stable.trans ensureRfkill_stable (fun _ => ?_)
  refine Keeps.bind Stable.trans (Keeps.gets Stable.refl _) (fun path => ?_)
  refine Keeps.bind Stable.trans (openFile_stable path .write) (fun fd => ?_)
  refine Keeps.bind Stable.trans (Keeps.when Stable.refl (Keeps.stop Stable.refl _)) (fun _ => ?_)
  refine Keeps.bind Stable.trans (writeFile_stable _ _) (fun sz => ?_)
  refine Keeps.bind Stable.trans (Keeps.when Stable.refl (Keeps.stop Stable.refl _)) (fun _ => ?_)
  exact Keeps.pure Stable.refl _

theorem closeFile_stable (fd : Int) : Keeps Stable (closeFile fd : Effect World ε Unit) :=
  Keeps.modify fun _ => .of_sameNodes rfl rfl (.of_eq rfl)

theorem usleep_stable (usec : Nat) : Keeps Stable (usleep usec : Effect World ε Unit) :=
  Keeps.modify fun _ => .of_sameNodes rfl rfl (.of_eq rfl)

theorem readFile_stable (path : Path) (n : Nat) :
    Keeps Stable (readFile path n : Effect World ε (Int × List Char)) := by
  refine Keeps.bind Stable.trans (Keeps.gets Stable.refl _) (fun content => ?_)
  exact Keeps.bind Stable.trans (make_stable fun w a => .of_eq rfl)
    fun sz => Keeps.pure Stable.refl _

theorem devUp_stable : Keeps Stable (devUp : Effect World ε (Int × Errno)) := by
  intro w
  obtain ⟨ret, errno, t, hrun, hcases, hid, hpath, _⟩ := devUp_asks (ε := ε) w
  rw [wp_of_ok hrun]
  refine .of_sameNodes hid hpath (.of_eq ?_)
  rcases hcases with ⟨_, _, _, _, hdevice⟩ | ⟨_, _, _, hdevice⟩ <;> rw [hdevice]

theorem devDown_stable : Keeps Stable (devDown : Effect World ε Int) := by
  refine make_stable fun w a => .of_eq ?_
  split <;> rfl

theorem getDevInfo_stable : Keeps Stable (getDevInfo : Effect World ε (Int × Bool)) := by
  refine Keeps.bind Stable.trans (make_stable fun w a => .of_eq rfl) (fun ret => ?_)
  exact Keeps.bind Stable.trans (Keeps.gets Stable.refl _) fun up => Keeps.pure Stable.refl _

theorem checkBluetoothPower_stable :
    Keeps Stable (checkBluetoothPower : Effect World ε Int) := by
  refine Keeps.bind Stable.trans (Keeps.merge ?_) closeAndReturn_stable
  refine Keeps.bind Stable.trans ensureRfkill_stable (fun _ => ?_)
  refine Keeps.bind Stable.trans (Keeps.gets Stable.refl _) (fun path => ?_)
  refine Keeps.bind Stable.trans (openFile_stable path .read) (fun fd => ?_)
  refine Keeps.bind Stable.trans (Keeps.when Stable.refl (Keeps.stop Stable.refl _)) (fun _ => ?_)
  refine Keeps.bind Stable.trans (readFile_stable _ _) (fun r => ?_)
  refine Keeps.bind Stable.trans (Keeps.when Stable.refl (Keeps.stop Stable.refl _)) (fun _ => ?_)
  exact Keeps.pure Stable.refl _

theorem devUpLoop_stable (n : Nat) (hciSock ret : Int) :
    Keeps Stable (devUpLoop n hciSock ret) := by
  induction n generalizing hciSock ret with
  | zero => exact Keeps.pure Stable.refl _
  | succ n ih =>
      refine Keeps.bind Stable.trans (descriptor_stable _ _) (fun fd => ?_)
      refine Keeps.bind Stable.trans (Keeps.when Stable.refl (Keeps.stop Stable.refl _))
        (fun _ => ?_)
      refine Keeps.bind Stable.trans devUp_stable (fun r => ?_)
      dsimp only
      split
      · exact Keeps.pure Stable.refl _
      · refine Keeps.bind Stable.trans (closeFile_stable fd) (fun _ => ?_)
        exact Keeps.bind Stable.trans (usleep_stable _) fun _ => ih _ _

theorem powerOff_stable (b : Build) : Keeps Stable (powerOff b) :=
  Keeps.when Stable.refl (Keeps.bind Stable.trans (setBluetoothPower_stable false)
    fun _ => Keeps.pure Stable.refl _)

theorem btEnable_stable (b : Build) : Keeps Stable (btEnable b) := by
  refine Keeps.bind Stable.trans (Keeps.merge ?_) closeAndReturn_stable
  refine Keeps.bind Stable.trans (Keeps.when Stable.refl ?_) (fun _ => ?_)
  · exact Keeps.bind Stable.trans (setBluetoothPower_stable true)
      fun _ => Keeps.when Stable.refl (Keeps.stop Stable.refl _)
  refine Keeps.bind Stable.trans (propertySet_stable _) (fun started => ?_)
  refine Keeps.bind Stable.trans (Keeps.when Stable.refl ?_) (fun _ => ?_)
  · exact Keeps.bind Stable.trans (powerOff_stable b) fun _ => Keeps.stop Stable.refl _
  refine Keeps.bind Stable.trans (devUpLoop_stable _ _ _) (fun loop => ?_)
  refine Keeps.bind Stable.trans (Keeps.when Stable.refl ?_) (fun _ => ?_)
  · refine Keeps.bind Stable.trans (propertySet_stable _) (fun _ => ?_)
    exact Keeps.bind Stable.trans (powerOff_stable b) fun _ => Keeps.stop Stable.refl _
  refine Keeps.bind Stable.trans (propertySet_stable _) (fun started => ?_)
  refine Keeps.bind Stable.trans (Keeps.when Stable.refl ?_)
    (fun _ => Keeps.pure Stable.refl _)
  exact Keeps.bind Stable.trans (powerOff_stable b) fun _ => Keeps.stop Stable.refl _

theorem btDisable_stable (b : Build) : Keeps Stable (btDisable b) := by
  refine Keeps.bind Stable.trans (Keeps.merge ?_) closeAndReturn_stable
  refine Keeps.bind Stable.trans (propertySet_stable _) (fun stopped => ?_)
  refine Keeps.bind Stable.trans (Keeps.when Stable.refl (Keeps.stop Stable.refl _)) (fun _ => ?_)
  refine Keeps.bind Stable.trans (usleep_stable _) (fun _ => ?_)
  refine Keeps.bind Stable.trans (descriptor_stable _ _) (fun hciSock => ?_)
  refine Keeps.bind Stable.trans (Keeps.when Stable.refl (Keeps.stop Stable.refl _)) (fun _ => ?_)
  refine Keeps.bind Stable.trans devDown_stable (fun _ => ?_)
  refine Keeps.bind Stable.trans (propertySet_stable _) (fun stopped => ?_)
  refine Keeps.bind Stable.trans (Keeps.when Stable.refl (Keeps.stop Stable.refl _)) (fun _ => ?_)
  refine Keeps.bind Stable.trans (Keeps.when Stable.refl ?_)
    (fun _ => Keeps.pure Stable.refl _)
  exact Keeps.bind Stable.trans (setBluetoothPower_stable false)
    fun _ => Keeps.when Stable.refl (Keeps.stop Stable.refl _)

theorem btIsEnabled_stable (b : Build) : Keeps Stable (btIsEnabled b) := by
  refine Keeps.bind Stable.trans (Keeps.merge ?_) closeAndReturn_stable
  refine Keeps.bind Stable.trans (Keeps.when Stable.refl ?_) (fun _ => ?_)
  · exact Keeps.bind Stable.trans checkBluetoothPower_stable
      fun _ => Keeps.when Stable.refl (Keeps.stop Stable.refl _)
  refine Keeps.bind Stable.trans (descriptor_stable _ _) (fun hciSock => ?_)
  refine Keeps.bind Stable.trans (Keeps.when Stable.refl (Keeps.stop Stable.refl _)) (fun _ => ?_)
  refine Keeps.bind Stable.trans getDevInfo_stable (fun r => ?_)
  refine Keeps.bind Stable.trans (Keeps.when Stable.refl (Keeps.stop Stable.refl _)) (fun _ => ?_)
  exact Keeps.pure Stable.refl _

/-! ### Sessions -/

inductive Function where
  | enable
  | disable
  | isEnabled
  deriving DecidableEq, Repr

/-- A call of the interface. -/
def perform (b : Build) : Function → Effect World Empty Int
  | .enable => btEnable b
  | .disable => btDisable b
  | .isEnabled => btIsEnabled b

/-- Calls one after the other, each with the answers its external calls get. -/
def session (b : Build) : List (Function × Answers) → World → World
  | [], w => w
  | (f, answers) :: rest, w => session b rest (perform b f { w with answers := answers }).2

theorem perform_stable (b : Build) (f : Function) : Keeps Stable (perform b f) := by
  cases f with
  | enable => exact btEnable_stable b
  | disable => exact btDisable_stable b
  | isEnabled => exact btIsEnabled_stable b

theorem session_stable (b : Build) (calls : List (Function × Answers)) (w : World) :
    Stable w (session b calls w) := by
  induction calls generalizing w with
  | nil => exact .refl w
  | cons call rest ih =>
      obtain ⟨f, answers⟩ := call
      have hone := (perform_stable b f).apply { w with answers := answers }
      have hfirst : Stable w (perform b f { w with answers := answers }).2 :=
        Stable.trans _ _ _ (.of_sameNodes rfl rfl (.of_eq rfl)) hone
      exact hfirst.trans _ _ _ (ih _)

/-! ### Calls in which nothing fails -/

/-- The nodes are numbered without gaps, and node `k` is the only Bluetooth node. -/
structure Switch (d : Device) (k : Nat) : Prop where
  dense : ∀ i < d.nodes.length, (d.node i).isSome
  bluetooth : ∃ node, d.node k = some node ∧ node.Bluetooth
  unique : ∀ i node, d.node i = some node → node.Bluetooth → i = k

theorem Switch.of_sameNodes {d e : Device} {k : Nat} (h : Switch d k) (hsame : SameNodes d e) :
    Switch e k := by
  have hback : ∀ {i node}, e.node i = some node →
      ∃ node', d.node i = some node' ∧ node'.type = node.type := by
    intro i node hnode
    have htype := hsame.2 i
    rw [hnode, Option.map_some, eq_comm, Option.map_eq_some_iff] at htype
    exact htype
  refine ⟨fun i hi => ?_, ?_, fun i node hnode hbt => ?_⟩
  · have hsome := h.dense i (hsame.1 ▸ hi)
    rw [← Option.isSome_map (f := Node.type), ← hsame.2, Option.isSome_map] at hsome
    exact hsome
  · obtain ⟨node, hnode, hbt⟩ := h.bluetooth
    have htype := hsame.2 k
    rw [hnode, Option.map_some, Option.map_eq_some_iff] at htype
    obtain ⟨node', hnode', htype⟩ := htype
    exact ⟨node', hnode', by rw [Node.Bluetooth, htype]; exact hbt⟩
  · obtain ⟨node', hnode', htype⟩ := hback hnode
    exact h.unique i node' hnode' (by rw [Node.Bluetooth, htype]; exact hbt)

theorem Remembers.unique {w : World} {j k : Nat} (hw : Remembers w j) (h : Switch w.device k) :
    j = k := by
  obtain ⟨_, _, node, hnode, hbt⟩ := hw
  exact h.unique j node hnode hbt

theorem Switch.lt_length {d : Device} {k : Nat} (h : Switch d k) : k < d.nodes.length := by
  obtain ⟨node, hnode, _⟩ := h.bluetooth
  by_contra hle
  rw [Device.node, List.getElem?_eq_none (by omega)] at hnode
  simp at hnode

theorem ensureRfkill_succeeds {w : World} {k : Nat} (hswitch : Switch w.device k)
    (hw : Statics w) (hnone : ∀ c n, c.OnFile → w.answers c n = none) :
    ∃ v, ensureRfkill w = (.ok (), v) ∧ Remembers v k ∧ v.device = w.device ∧
      Uses Call.OnFile w v := by
  obtain ⟨v, hdevice, huses, ⟨hrun, j, hj⟩ | ⟨hrun, _⟩⟩ := ensureRfkill_cases hw
  · obtain rfl := hj.unique (hdevice ▸ hswitch)
    exact ⟨v, hrun, hj, hdevice, huses⟩
  · exfalso
    obtain ⟨node, hnode, hbt⟩ := hswitch.bluetooth
    have hlt := hswitch.lt_length
    obtain ⟨t, hfound⟩ := initRfkillLoop_finds (ε := Int × Int)
      (w.device.nodes.length + 1) (Nat.zero_le k) (by omega)
      (fun p m n => hnone (.openFile p m) n trivial) (fun p n => hnone (.readFile p) n trivial)
      (fun i hi => hswitch.dense i (by omega)) hnode hbt
    by_cases hid : w.rfkillId = -1
    · have hinit : initRfkill w = (.ok 0, t) := hfound
      rw [ensureRfkill, gets_bind_apply, when_pos hid, bind_ok hinit] at hrun
      simp [when] at hrun
    · rw [ensureRfkill, gets_bind_apply, when_neg hid] at hrun
      simp at hrun

theorem setBluetoothPower_succeeds (on : Bool) {w : World} {k : Nat}
    (hswitch : Switch w.device k) (hw : Statics w)
    (hnone : ∀ c n, c.OnFile → w.answers c n = none) :
    ∃ t, (setBluetoothPower on w : Except ε Int × World) = (.ok 0, t) ∧ Remembers t k ∧
      t.device = w.device.setState k (level on) := by
  obtain ⟨v, hensure, hv, hdevice, huses⟩ := ensureRfkill_succeeds hswitch hw hnone
  obtain ⟨r, t, hrun, hs⟩ := setBluetoothPower_switches (ε := ε) on hensure hv
  obtain rfl : r = 0 :=
    hs.succeeds (huses.never_fails (fun n => hnone (.openFile _ _) n trivial) 0)
      (huses.never_fails (fun n => hnone (.writeFile _ _) n trivial) 0)
  refine ⟨t, hrun, hs.remembers, ?_⟩
  obtain ⟨_, h⟩ | ⟨h, _⟩ := hs.result
  · rw [h, hdevice]
  · omega

/-- Everything is off: the daemon, the device, the transport, and the power of node `k` in
builds that switch it. -/
structure AllOff (b : Build) (k : Nat) (d : Device) : Prop where
  bluetoothd : d.bluetoothd = false
  down : d.hciUp = false
  transport : transportOn b d = false
  power : b.rfkill → ∃ node, d.node k = some node ∧ node.state = '0'

structure AllOn (b : Build) (k : Nat) (d : Device) : Prop where
  bluetoothd : d.bluetoothd = true
  up : d.hciUp = true
  transport : transportOn b d = true
  power : b.rfkill → ∃ node, d.node k = some node ∧ node.state = '1'

/-- The device after the steps of `bt_disable`. -/
def stopped (b : Build) (d : Device) : Device :=
  Device.setProperty { d.setProperty (.stop .bluetoothd) with hciUp := false } (transport b false)

theorem stopped_nodes (b : Build) (d : Device) : (stopped b d).nodes = d.nodes := by
  rw [stopped, setProperty_nodes]
  rfl

theorem AllOff.of_stopped {b : Build} {k : Nat} {d : Device} (hswitch : Switch d k) :
    AllOff b k (powered b k false (stopped b d)) := by
  refine ⟨?_, ?_, ?_, fun hb => ?_⟩
  · rcases b with ⟨_ | _, _ | _⟩ <;> rfl
  · rcases b with ⟨_ | _, _ | _⟩ <;> rfl
  · rcases b with ⟨_ | _, _ | _⟩ <;> rfl
  · obtain ⟨node, hnode, _⟩ := hswitch.bluetooth
    refine ⟨{ node with state := '0' }, ?_, rfl⟩
    rw [powered, if_pos hb, node_setState, if_pos rfl, Device.node, stopped_nodes]
    change (d.node k).map _ = _
    rw [hnode]
    rfl

/-- Nothing fails: everything ends up off. -/
theorem btDisable_succeeds (b : Build) {w : World} {k : Nat} (hswitch : Switch w.device k)
    (hw : Statics w) (hnone : ∀ c n, w.answers c n = none) :
    ∃ t, btDisable b w = (.ok 0, t) ∧ AllOff b k t.device := by
  obtain ⟨v₁, hrun₁, hv₁⟩ :=
    propertySet_succeeds (ε := Int × Int) (hnone (.propertySet (.stop .bluetoothd)))
  let v₂ : World := { v₁ with io := v₁.io ++ [.usleep 500000] }
  have hv₂ : ∀ c n, v₂.answers c n = none := fun c n => hv₁.uses.never_fails (hnone c) n
  obtain ⟨fd, v₃, hrun₃, hfd, hv₃⟩ := socket_succeeds (ε := Int × Int) (hv₂ .socket)
  have hnone₃ : ∀ c n, v₃.answers c n = none := fun c n => hv₃.uses.never_fails (hv₂ c) n
  obtain ⟨v₄, hrun₄, hv₄⟩ := devDown_succeeds (ε := Int × Int) (hnone₃ (.ioctl .devDown))
  have hnone₄ : ∀ c n, v₄.answers c n = none := fun c n => hv₄.uses.never_fails (hnone₃ c) n
  obtain ⟨v₅, hrun₅, hv₅⟩ :=
    propertySet_succeeds (ε := Int × Int) (hnone₄ (.propertySet (transport b false)))
  have hnone₅ : ∀ c n, v₅.answers c n = none := fun c n => hv₅.uses.never_fails (hnone₄ c) n
  have hdevice : v₅.device = stopped b w.device := by
    rw [hv₅.device, hv₄.device, hv₃.device]
    change Device.setProperty { v₁.device with hciUp := false } _ = _
    rw [hv₁.device]
    rfl
  have hstable : Stable w v₅ := .of_sameNodes
    (hv₅.rfkillId.trans (hv₄.rfkillId.trans (hv₃.rfkillId.trans hv₁.rfkillId)))
    (hv₅.rfkillStatePath.trans (hv₄.rfkillStatePath.trans
      (hv₃.rfkillStatePath.trans hv₁.rfkillStatePath)))
    (.of_eq (by rw [hdevice, stopped_nodes]))
  have hpower : ∃ x, (when b.rfkill do
      let result ← setBluetoothPower false
      when (result < 0) (stop (-1, fd)) : Effect World (Int × Int) Unit) v₅ = (.ok (), x) ∧
        x.device = powered b k false v₅.device := by
    by_cases hb : b.rfkill = true
    · obtain ⟨x, hrun, _, hx⟩ := setBluetoothPower_succeeds (ε := Int × Int) false
        (hswitch.of_sameNodes hstable.1) (hstable.2 hw) fun c n _ => hnone₅ c n
      refine ⟨x, ?_, by rw [hx, powered, if_pos hb]⟩
      rw [when_pos hb, bind_ok hrun]
      rfl
    · refine ⟨v₅, ?_, by rw [powered, if_neg hb]⟩
      rw [when_neg hb]
      rfl
  obtain ⟨x, hrun₆, hx⟩ := hpower
  obtain ⟨t, hclose, ht, _⟩ := closeAndReturn_asks (ε := Empty) Call.OnFile (0, fd) x
  refine ⟨t, (bind_ok (merge_ok ?_)).trans hclose, ?_⟩
  · have hsleep : (usleep 500000 v₁ : Except (Int × Int) Unit × World) = (.ok (), v₂) := rfl
    rw [bind_ok hrun₁, when_neg (by omega), pure_bind_apply, bind_ok hsleep, bind_ok hrun₃,
      when_neg (by omega), pure_bind_apply, bind_ok hrun₄, bind_ok hrun₅, when_neg (by omega),
      pure_bind_apply, bind_ok hrun₆]
    rfl
  · rw [ht.device, hx, hdevice]
    exact .of_stopped hswitch

/-- The answers of a `bt_enable` in which at most the first `m` attempts fail. -/
def LeadingFailures (m : Nat) (answers : Answers) : Prop :=
  ∀ c n, answers c n ≠ none → c = .ioctl .devUp ∧ n < m

/-- Nothing fails but the attempts before the last: everything ends up on. -/
theorem btEnable_succeeds (b : Build) {w : World} {k m : Nat} (hswitch : Switch w.device k)
    (hw : Statics w) (hm : m ≤ 99) (hleading : LeadingFailures m w.answers) :
    ∃ t, btEnable b w = (.ok 0, t) ∧ Enabled b w t ∧
      t.device = Device.setProperty { started b k w.device with hciUp := true }
        (.start .bluetoothd) := by
  have hnone : ∀ c n, c ≠ .ioctl .devUp → w.answers c n = none := by
    intro c n hc
    by_contra hfails
    exact hc (hleading c n hfails).1
  have hlast : ¬ Fails (w.answers (.ioctl .devUp) m) := by
    rintro ⟨e, he, _⟩
    have := (hleading (.ioctl .devUp) m (by simp [he])).2
    omega
  have hpower : PowersOn b w := by
    intro _
    obtain ⟨t, hrun, _⟩ := setBluetoothPower_succeeds (ε := Int × Int) true hswitch hw
      fun c n hc => hnone c n (by rintro rfl; exact hc)
    rw [hrun]
  have htransport : TransportStarts b w := hnone _ 0 (by simp)
  have hdaemon : DaemonStarts w := hnone _ 0 (by simp)
  cases btEnable_cases b hw with
  | noPower t run fails => exact absurd hpower fails
  | noTransport j t run power fails => exact absurd htransport fails
  | noSocket j t run power transport fails =>
      obtain ⟨i, _, _, _, hsocket⟩ := fails
      exact absurd (hnone .socket i (by simp)) hsocket
  | timeout j t run power transport fails => exact absurd (fails.2 m (by omega)) hlast
  | noDaemon j r t run power transport comesUp fails => exact absurd hdaemon fails
  | success j t run power transport comesUp daemon remembers device =>
      refine ⟨t, run, .of_success transport daemon remembers device, ?_⟩
      have hstable : Stable w t := by
        have h := (btEnable_stable b).apply w
        rwa [run] at h
      by_cases hb : b.rfkill = true
      · obtain rfl := (remembers hb).unique (hswitch.of_sameNodes hstable.1)
        exact device
      · rw [device, started, started, powered, powered, if_neg hb, if_neg hb]

/-- Writing a character to where it already is changes nothing. -/
theorem setState_self {d : Device} {k : Nat} {node : Node} (hnode : d.node k = some node) :
    d.setState k node.state = d := by
  have hnodes : (d.nodes.modify k fun node' => node'.map fun n => { n with state := node.state }) =
      d.nodes := by
    apply List.ext_getElem?
    intro i
    rw [List.getElem?_modify]
    by_cases hk : k = i
    · subst hk
      rw [Device.node, Option.join_eq_some_iff] at hnode
      simp [hnode]
    · simp [hk]
  rw [Device.setState, hnodes]

/-- On a device that is on, `bt_enable` has nothing to change. -/
theorem AllOn.enable {b : Build} {k : Nat} {d : Device} (h : AllOn b k d) :
    Device.setProperty { started b k d with hciUp := true } (.start .bluetoothd) = d := by
  have hpower : powered b k true d = d := by
    by_cases hb : b.rfkill = true
    · obtain ⟨node, hnode, hon⟩ := h.power hb
      rw [powered, if_pos hb, show level true = node.state from hon.symm, setState_self hnode]
    · rw [powered, if_neg hb]
  obtain ⟨hd, hup, htransport, _⟩ := h
  rw [started, hpower]
  obtain ⟨nodes, up, bluetoothd, hciattach, property⟩ := d
  rcases b with ⟨_, _ | _⟩ <;>
    simp_all [Bluedroid.transport, transportOn, Device.setProperty]

theorem Enabled.allOn {b : Build} {w t : World} {k : Nat} (h : Enabled b w t)
    (hswitch : Switch t.device k) : AllOn b k t.device := by
  refine ⟨h.bluetoothd, h.up, h.transportOn, fun hb => ?_⟩
  obtain ⟨j, node, hj, hnode, hon⟩ := h.power hb
  obtain rfl := hj.unique hswitch
  exact ⟨node, hnode, hon⟩

/-- The Bluetooth switch recovers. After any calls, whatever failed in them, a `bt_disable`
without failures leaves everything off, and a `bt_enable` in which at most 99 attempts
fail then leaves everything on; that is reported, and a further `bt_enable`, which finds
the device up, returns 0 and changes nothing. -/
theorem switch_recovers (b : Build) {w : World} {k m : Nat} (hswitch : Switch w.device k)
    (hw : Statics w) (calls : List (Function × Answers)) (hm : m ≤ 99) {answers : Answers}
    (hleading : LeadingFailures m answers) :
    ∃ w₁ w₂ w₃ w₄,
      btDisable b { session b calls w with answers := fun _ _ => none } = (.ok 0, w₁) ∧
      AllOff b k w₁.device ∧
      btEnable b { w₁ with answers := answers } = (.ok 0, w₂) ∧ AllOn b k w₂.device ∧
      btIsEnabled b { w₂ with answers := fun _ _ => none } = (.ok 1, w₃) ∧
      btEnable b { w₃ with answers := fun _ _ => none } = (.ok 0, w₄) ∧
      w₄.device = w₂.device := by
  have hstart := session_stable b calls w
  obtain ⟨w₁, hrun₁, hoff⟩ := btDisable_succeeds b
    (w := { session b calls w with answers := fun _ _ => none })
    (hswitch.of_sameNodes hstart.1) (hstart.2 hw) fun _ _ => rfl
  have hstable₁ : Stable w w₁ := by
    have h := (btDisable_stable b).apply { session b calls w with answers := fun _ _ => none }
    rw [hrun₁] at h
    exact hstart.trans _ _ _ h
  obtain ⟨w₂, hrun₂, hon, hdevice₂⟩ := btEnable_succeeds b (w := { w₁ with answers := answers })
    (hswitch.of_sameNodes hstable₁.1) (hstable₁.2 hw) hm hleading
  have hstable₂ : Stable w w₂ := by
    have h := (btEnable_stable b).apply { w₁ with answers := answers }
    rw [hrun₂] at h
    exact hstable₁.trans _ _ _ h
  have hallOn := hon.allOn (hswitch.of_sameNodes hstable₂.1)
  obtain ⟨w₃, hrun₃, hdevice₃⟩ := btIsEnabled_on b
    (w := { w₂ with answers := fun _ _ => none }) (fun _ _ => rfl) (fun hb => hon.power hb) hon.up
  have hstable₃ : Stable w w₃ := by
    have h := (btIsEnabled_stable b).apply { w₂ with answers := fun _ _ => none }
    rw [hrun₃] at h
    exact hstable₂.trans _ _ _ h
  obtain ⟨w₄, hrun₄, _, hdevice₄⟩ := btEnable_succeeds b
    (w := { w₃ with answers := fun _ _ => none }) (hswitch.of_sameNodes hstable₃.1)
    (hstable₃.2 hw) (Nat.zero_le 99) (fun c n h => absurd rfl h)
  refine ⟨w₁, w₂, w₃, w₄, hrun₁, hoff, hrun₂, hallOn, hrun₃, hrun₄, ?_⟩
  rw [hdevice₄]
  change Device.setProperty { started b k w₃.device with hciUp := true } (.start .bluetoothd) = _
  rw [hdevice₃]
  exact hallOn.enable

/-- The first two attempts fail with the error number of an interrupted call. -/
def twoFailures : Answers := fun c n => if c = .ioctl .devUp ∧ n < 2 then some 4 else none

theorem switch_recovers_socketless :
    ∃ w₁ w₂ w₃ w₄,
      btDisable ⟨true, true⟩ { session ⟨true, true⟩ [(.enable, refusing .socket)]
        (off fun _ _ => none) with answers := fun _ _ => none } = (.ok 0, w₁) ∧
      AllOff ⟨true, true⟩ 0 w₁.device ∧
      btEnable ⟨true, true⟩ { w₁ with answers := twoFailures } = (.ok 0, w₂) ∧
      AllOn ⟨true, true⟩ 0 w₂.device ∧
      btIsEnabled ⟨true, true⟩ { w₂ with answers := fun _ _ => none } = (.ok 1, w₃) ∧
      btEnable ⟨true, true⟩ { w₃ with answers := fun _ _ => none } = (.ok 0, w₄) ∧
      w₄.device = w₂.device :=
  switch_recovers ⟨true, true⟩
    ⟨by decide, ⟨⟨bluetooth, '0'⟩, rfl, rfl⟩, by
      intro i node hnode _
      cases i with
      | zero => rfl
      | succ i => simp [off, Device.node] at hnode⟩
    (Or.inl rfl) [(.enable, refusing .socket)] (show 2 ≤ 99 by omega) (by
      intro c n h
      by_contra hno
      exact h (if_neg hno))

end Bluedroid
