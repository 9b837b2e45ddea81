import SystemBluetooth.Bluedroid.Enable

/-!
# What a result of 0 means

`bt_enable` is documented to return 0 on success only. It keeps its result in the
variable that also holds the result of `HCIDEVUP`, so a failure after that call is
reported by whatever the call has left there.
-/

namespace Bluedroid

open Effect

/-- The power of the remembered node is on. -/
def PowerOn (w : World) : Prop :=
  ∃ k node, Remembers w k ∧ w.device.node k = some node ∧ node.state = '1'

def transportOn (b : Build) (d : Device) : Bool :=
  if b.hciattachUsingProperty then d.hciattachProperty else d.hciattach

/-- `t` follows on `w` with everything switched on, as far as the requests ahead of `w`
are answered, and `bt_is_enabled` says so if none of its own calls fails. -/
structure Enabled (b : Build) (w t : World) : Prop where
  power : b.rfkill → PowerOn t
  transport : TransportStarts b w
  transportOn : transportOn b t.device
  daemon : DaemonStarts w
  bluetoothd : t.device.bluetoothd
  up : t.device.hciUp
  reported : ∀ answers : Answers, (∀ c n, answers c n = none) →
    (btIsEnabled b { t with answers := answers }).1 = .ok 1

theorem btIsEnabled_on (b : Build) {w : World} (hnone : ∀ c n, w.answers c n = none)
    (hpower : b.rfkill → PowerOn w) (hup : w.device.hciUp) :
    ∃ t, btIsEnabled b w = (.ok 1, t) ∧ t.device = w.device := by
  have hcheck : ∃ v, (when b.rfkill do
      let ret ← checkBluetoothPower
      when (ret = -1 ∨ ret = 0) (stop (ret, -1)) : Effect World (Int × Int) Unit) w =
        (.ok (), v) ∧ v.device = w.device ∧ ∀ c n, v.answers c n = none := by
    by_cases hb : b.rfkill = true
    · obtain ⟨k, node, hk, hnode, hon⟩ := hpower hb
      obtain ⟨v, hrun, hv⟩ := checkBluetoothPower_on (ε := Int × Int) hk hnode hon (hnone _ _)
        (hnone _ _)
      refine ⟨v, ?_, hv.device, fun c n => hv.uses.never_fails (hnone c) n⟩
      rw [when_pos hb, bind_ok hrun, when_neg (by omega)]
      rfl
    · refine ⟨w, ?_, rfl, hnone⟩
      rw [when_neg hb]
      rfl
  obtain ⟨v, hrun, hv, hvnone⟩ := hcheck
  obtain ⟨fd, u, hopen, hfd, hu⟩ := socket_succeeds (ε := Int × Int) (hvnone .socket)
  have hinfo : ∃ x, (getDevInfo u : Except (Int × Int) (Int × Bool) × World) =
      (.ok (0, true), x) ∧ x.device = u.device := by
    have hup' : u.device.hciUp = true := by rw [hu.device, hv, hup]
    have hanswer : u.answers (.ioctl .getDevInfo) 0 = none :=
      hu.uses.never_fails (hvnone _) 0
    refine ⟨(getDevInfo (ε := Int × Int) u).2, Prod.ext ?_ rfl, rfl⟩
    rw [getDevInfo, bind_ok (make_apply _ _ u), gets_bind_apply]
    simp [hanswer, hup']
  obtain ⟨x, hinfo, hx⟩ := hinfo
  obtain ⟨t, hclose, ht, _⟩ := closeAndReturn_asks (ε := Empty) Call.OnFile (1, fd) x
  refine ⟨t, (bind_ok (merge_ok ?_)).trans hclose, by rw [ht.device, hx, hu.device, hv]⟩
  rw [bind_ok hrun, bind_ok hopen, when_neg (by omega), pure_bind_apply, bind_ok hinfo]
  dsimp only
  rw [when_neg (by omega), pure_bind_apply]
  rfl

/-- Each part of the device after the steps of `bt_enable`. -/
theorem node_started (b : Build) (k : Nat) (d : Device) :
    (started b k d).nodes = (powered b k true d).nodes := setProperty_nodes _ _

theorem transportOn_started (b : Build) (k : Nat) (d : Device) :
    transportOn b (started b k d) = true := by
  rcases b with ⟨_, _ | _⟩ <;> rfl

theorem Enabled.of_success {b : Build} {w t : World} {k : Nat} (transport : TransportStarts b w)
    (daemon : DaemonStarts w) (remembers : b.rfkill → Remembers t k)
    (device : t.device =
      Device.setProperty { started b k w.device with hciUp := true } (.start .bluetoothd)) :
    Enabled b w t := by
  have hpower : b.rfkill → PowerOn t := by
    intro hb
    obtain ⟨hid, hpath, node, hnode, hbt⟩ := remembers hb
    refine ⟨k, node, ⟨hid, hpath, node, hnode, hbt⟩, hnode, ?_⟩
    rw [device, Device.node, setProperty_nodes, node_started, powered, if_pos hb] at hnode
    change (w.device.setState k (level true)).node k = some node at hnode
    rw [node_setState, if_pos rfl, Option.map_eq_some_iff] at hnode
    obtain ⟨_, _, rfl⟩ := hnode
    rfl
  have hup : t.device.hciUp = true := by rw [device]; rfl
  refine ⟨hpower, transport, ?_, daemon, by rw [device]; rfl, hup, ?_⟩
  · rw [device]
    exact transportOn_started b k w.device
  · intro answers hnone
    obtain ⟨u, hu, _⟩ := btIsEnabled_on b (w := { t with answers := answers }) hnone
      (fun hb => hpower hb) hup
    rw [hu]

/-- `bt_enable` returns 0 only with everything on, exactly if it is not the case that an
`HCIDEVUP` returns 0 and then the daemon does not start. -/
theorem btEnable_reports (b : Build) {w : World} (hw : Statics w) :
    (∀ t, btEnable b w = (.ok 0, t) → Enabled b w t) ↔
      ¬ (PowersOn b w ∧ TransportStarts b w ∧ ReturnsZero w ∧ ¬ DaemonStarts w) := by
  constructor
  · rintro h ⟨hpower, htransport, hzero, hdaemon⟩
    cases btEnable_cases b hw with
    | noPower t run fails => exact fails hpower
    | noTransport k t run power fails => exact fails htransport
    | noSocket k t run power transport fails => exact fails.not_comesUp hzero.comesUp
    | timeout k t run power transport fails => exact fails.not_comesUp hzero.comesUp
    | noDaemon k r t run power transport comesUp fails zero =>
        exact hdaemon (h t (run.trans (by rw [zero.mpr hzero]))).daemon
    | success k t run power transport comesUp daemon => exact hdaemon daemon
  · intro h t ht
    cases btEnable_cases b hw with
    | noPower t' run => simp [run] at ht
    | noTransport k t' run => simp [run] at ht
    | noSocket k t' run => simp [run] at ht
    | timeout k t' run => simp [run] at ht
    | noDaemon k r t' run power transport comesUp fails zero =>
        obtain rfl : r = 0 := by
          rw [run] at ht
          simpa using congrArg Prod.fst ht
        exact absurd ⟨power, transport, zero.mp rfl, fails⟩ h
    | success k t' run power transport comesUp daemon remembers device =>
        obtain rfl : t' = t := congrArg Prod.snd (run.symm.trans ht)
        exact .of_success transport daemon remembers device

/-- Everything off, one Bluetooth node, nothing looked up yet. -/
def off (answers : Answers) : World where
  device := ⟨[some ⟨bluetooth, '0'⟩], false, false, false, false⟩
  rfkillId := -1
  rfkillStatePath := none
  answers := answers
  descriptors := fun n => n + 3
  io := []

/-- One kind of call fails, and every time. -/
def refusing (call : Call) : Answers := fun c _ => if c = call then some 5 else none

/-- `HCIDEVUP` returns 0, the daemon does not start, and the result is 0. -/
theorem btEnable_daemonless :
    ¬ ∀ t, btEnable ⟨true, false⟩ (off (refusing (.propertySet (.start .bluetoothd)))) =
        (.ok 0, t) →
      Enabled ⟨true, false⟩ (off (refusing (.propertySet (.start .bluetoothd)))) t := by
  intro h
  have hzero : (btEnable ⟨true, false⟩
      (off (refusing (.propertySet (.start .bluetoothd))))).1 = .ok 0 := by decide
  have hdaemon := (h _ (Prod.ext hzero rfl)).daemon
  revert hdaemon
  simp [DaemonStarts, off, refusing]

theorem btEnable_reports_off :
    (∀ t, btEnable ⟨true, false⟩ (off (fun _ _ => none)) = (.ok 0, t) →
        Enabled ⟨true, false⟩ (off (fun _ _ => none)) t) ↔
      ¬ (PowersOn ⟨true, false⟩ (off (fun _ _ => none)) ∧
        TransportStarts ⟨true, false⟩ (off (fun _ _ => none)) ∧
        ReturnsZero (off (fun _ _ => none)) ∧ ¬ DaemonStarts (off (fun _ _ => none))) :=
  btEnable_reports ⟨true, false⟩ (Or.inl rfl)

end Bluedroid
