import SystemBluetooth.Bluedroid.Recovery

/-!
# What a query tells

`bt_is_enabled` asks for the power first and for the HCI device then. It never changes the
device, and it returns 1 only if both are on, whatever fails; a call that fails can make it
return 0 or -1, which is read off `Told`.
-/

namespace Bluedroid

open Effect

variable {ε : Type}

/-- What the file `state` of a node says about the power. -/
def reading (state : Char) : Int := if state = '1' then 1 else if state = '0' then 0 else -1

/-- The power is read once a node is remembered, if the file can be read. -/
theorem checkBluetoothPower_reads {w v : World} {k : Nat}
    (hensure : ensureRfkill w = (.ok (), v)) (hv : Remembers v k) :
    ∃ r t node, (checkBluetoothPower w : Except ε Int × World) = (.ok r, t) ∧
      v.device.node k = some node ∧ Asked Call.OnFile v t ∧
      (r = -1 ∨ r = reading node.state) ∧
      (v.answers (.openFile (.state k) .read) 0 = none →
        v.answers (.readFile (.state k)) 0 = none → r = reading node.state) := by
  obtain ⟨node, hnode, _⟩ := hv.2.2
  obtain ⟨fd, u, hopen, hfd, hu, hanswers⟩ :=
    openFile_asks (ε := Int × Int) (.state k) .read v
  by_cases hneg : fd < 0
  · obtain ⟨t, hclose, ht, _⟩ := closeAndReturn_asks (ε := ε) Call.OnFile (-1, fd) u
    refine ⟨-1, t, node, ?_, hnode, hu.trans ht, .inl rfl, fun hok _ => ?_⟩
    · refine (bind_ok (merge_error ?_)).trans hclose
      rw [bind_ok hensure, gets_bind_apply, hv.2.1, bind_ok hopen, when_pos hneg]
      rfl
    · have := hfd.mpr ⟨hok, by rw [show (Path.state k).id = k from rfl, hnode]; rfl⟩
      omega
  have hunode : u.device.node (Path.state k).id = some node := by rw [hu.device]; exact hnode
  obtain ⟨sz, x, hreads, hsz, hx, _⟩ := readFile_asks (ε := Int × Int) (.state k) 1 hunode
  by_cases hone : sz = 1
  · obtain ⟨t, hclose, ht, _⟩ :=
      closeAndReturn_asks (ε := ε) Call.OnFile (reading node.state, fd) x
    refine ⟨_, t, node, ?_, hnode, (hu.trans hx).trans ht, .inr rfl, fun _ _ => rfl⟩
    refine (bind_ok (merge_ok ?_)).trans hclose
    rw [bind_ok hensure, gets_bind_apply, hv.2.1, bind_ok hopen, when_neg hneg, pure_bind_apply,
      Option.getD_some, bind_ok hreads]
    dsimp only
    rw [when_neg (by omega), pure_bind_apply]
    simp [Path.content, reading]
  · obtain ⟨t, hclose, ht, _⟩ := closeAndReturn_asks (ε := ε) Call.OnFile (-1, fd) x
    refine ⟨-1, t, node, ?_, hnode, (hu.trans hx).trans ht, .inl rfl, fun _ hok => ?_⟩
    · refine (bind_ok (merge_error ?_)).trans hclose
      rw [bind_ok hensure, gets_bind_apply, hv.2.1, bind_ok hopen, when_neg hneg, pure_bind_apply,
        Option.getD_some, bind_ok hreads]
      dsimp only
      rw [when_pos hone]
      rfl
    · rw [hanswers, Answers.next_other (by simp)] at hsz
      exact absurd (hsz hok) hone

/-- Either the power of a remembered node has been read, or the check fails. -/
theorem checkBluetoothPower_cases {w : World} (hw : Statics w) :
    ∃ r t, (checkBluetoothPower w : Except ε Int × World) = (.ok r, t) ∧
      t.device = w.device ∧ Uses Call.OnFile w t ∧ Statics t ∧
      (r = -1 ∨ ∃ k node, Remembers t k ∧ w.device.node k = some node ∧
        r = reading node.state) := by
  obtain ⟨v, hdevice, huses, ⟨hensure, k, hk⟩ | ⟨hensure, hv⟩⟩ := ensureRfkill_cases hw
  · obtain ⟨r, t, node, hrun, hnode, ht, hr, _⟩ :=
      checkBluetoothPower_reads (ε := ε) hensure hk
    have hkt := hk.of_device ht.rfkillId ht.rfkillStatePath ht.device
    refine ⟨r, t, hrun, ht.device.trans hdevice, huses.trans _ _ _ ht.uses, .inr ⟨k, hkt⟩, ?_⟩
    exact hr.imp id fun hread => ⟨k, node, hkt, hdevice ▸ hnode, hread⟩
  · obtain ⟨t, hclose, ht, _⟩ := closeAndReturn_asks (ε := ε) Call.OnFile (-1, -1) v
    refine ⟨-1, t, ?_, ht.device.trans hdevice, huses.trans _ _ _ ht.uses, ?_, .inl rfl⟩
    · refine (bind_ok (merge_error ?_)).trans hclose
      rw [bind_error hensure]
    · exact (Stable.of_sameNodes ht.rfkillId ht.rfkillStatePath (.of_eq (by rw [ht.device]))).2 hv

/-- Without failures, the power of the only Bluetooth node is read. -/
theorem checkBluetoothPower_succeeds {w : World} {k : Nat} (hswitch : Switch w.device k)
    (hw : Statics w) (hnone : ∀ c n, c.OnFile → w.answers c n = none) :
    ∃ t node, (checkBluetoothPower w : Except ε Int × World) = (.ok (reading node.state), t) ∧
      w.device.node k = some node ∧ t.device = w.device ∧ Uses Call.OnFile w t := by
  obtain ⟨v, hensure, hv, hdevice, huses⟩ := ensureRfkill_succeeds hswitch hw hnone
  obtain ⟨r, t, node, hrun, hnode, ht, -, hread⟩ := checkBluetoothPower_reads (ε := ε) hensure hv
  obtain rfl := hread (huses.never_fails (fun n => hnone (.openFile _ _) n trivial) 0)
    (huses.never_fails (fun n => hnone (.readFile _) n trivial) 0)
  exact ⟨t, node, hrun, hdevice ▸ hnode, ht.device.trans hdevice, huses.trans _ _ _ ht.uses⟩

/-! ### The answer -/

/-- What `bt_is_enabled` returns in `w`, and `t` remembers, with the reason for it. -/
inductive Told (b : Build) (w t : World) : Int → Prop where
  | on (power : b.rfkill → PowerOn t) (up : w.device.hciUp = true) : Told b w t 1
  | powerless (rfkill : b.rfkill) (k : Nat) (node : Node) (remembers : Remembers t k)
      (here : w.device.node k = some node) (off : node.state = '0') : Told b w t 0
  | down (power : b.rfkill → PowerOn t) (down : w.device.hciUp = false) : Told b w t 0
  | unknown (power : b.rfkill → PowerOn t) (fails : w.answers (.ioctl .getDevInfo) 0 ≠ none) :
      Told b w t 0
  | noPower (rfkill : b.rfkill)
      (fails : (checkBluetoothPower w : Except (Int × Int) Int × World).1 = .ok (-1)) :
      Told b w t (-1)
  | noSocket (fails : w.answers .socket 0 ≠ none) : Told b w t (-1)

theorem reading_one {c : Char} : reading c = 1 ↔ c = '1' := by
  rw [reading]
  split
  · simp [*]
  · split <;> simp [*]

theorem reading_zero {c : Char} : reading c = 0 ↔ c = '0' := by
  rw [reading]
  split
  · rename_i hone
    simp [hone]
  · split <;> simp [*]

/-- The first step of the query: go on with the power on, or tell what is the matter. -/
theorem power_asked (b : Build) {w : World} (hw : Statics w) :
    ∃ v, v.device = w.device ∧ Uses Call.OnFile w v ∧ Statics v ∧
      ((when b.rfkill do
          let ret ← checkBluetoothPower
          when (ret = -1 ∨ ret = 0) (stop (ret, -1)) : Effect World (Int × Int) Unit) w =
            (.ok (), v) ∧ (b.rfkill → PowerOn v) ∨
        ∃ r, (when b.rfkill do
          let ret ← checkBluetoothPower
          when (ret = -1 ∨ ret = 0) (stop (ret, -1)) : Effect World (Int × Int) Unit) w =
            (.error (r, -1), v) ∧ ∀ t, Asked (fun _ => True) v t → Told b w t r) := by
  by_cases hb : b.rfkill = true
  · obtain ⟨r, v, hrun, hdevice, huses, hv, hcases⟩ :=
      checkBluetoothPower_cases (ε := Int × Int) hw
    refine ⟨v, hdevice, huses, hv, ?_⟩
    rw [when_pos hb, bind_ok hrun]
    by_cases hfails : r = -1
    · rw [when_pos (.inl hfails)]
      refine .inr ⟨r, rfl, fun t _ => ?_⟩
      rw [hfails] at hrun ⊢
      exact .noPower hb (by rw [hrun])
    obtain ⟨k, node, hk, hnode, hr⟩ := hcases.resolve_left hfails
    by_cases hoff : r = 0
    · rw [when_pos (.inr hoff)]
      refine .inr ⟨r, rfl, fun t ht => ?_⟩
      have hkt := hk.of_device ht.rfkillId ht.rfkillStatePath ht.device
      rw [hoff] at hr ⊢
      exact .powerless hb k node hkt hnode (reading_zero.mp hr.symm)
    · rw [when_neg (by simp [hfails, hoff])]
      refine .inl ⟨rfl, fun _ => ⟨k, node, hk, hdevice ▸ hnode, reading_one.mp ?_⟩⟩
      rw [reading] at hr ⊢
      split at hr
      · rename_i hone
        rw [if_pos hone]
      · split at hr <;> contradiction
  · refine ⟨w, rfl, .refl w, hw, .inl ⟨?_, fun h => absurd h hb⟩⟩
    rw [when_neg hb]
    rfl

theorem getDevInfo_asks (w : World) :
    ∃ ret t, (getDevInfo w : Except ε (Int × Bool) × World) = (.ok (ret, w.device.hciUp), t) ∧
      (ret < 0 ↔ w.answers (.ioctl .getDevInfo) 0 ≠ none) ∧
      Asked (fun _ => True) w t := by
  refine ⟨_, _, rfl, ?_, rfl, rfl, rfl, .of_next _ trivial rfl⟩
  by_cases h : w.answers (.ioctl .getDevInfo) 0 = none <;> simp [h]

theorem Asked.statics {calls : Call → Prop} {w t : World} (h : Asked calls w t) (hw : Statics w) :
    Statics t :=
  (Stable.of_sameNodes h.rfkillId h.rfkillStatePath (.of_eq (by rw [h.device]))).2 hw

theorem Asked.powerOn {calls : Call → Prop} {w t : World} (h : Asked calls w t)
    (hw : PowerOn w) : PowerOn t := by
  obtain ⟨k, node, hk, hnode, hon⟩ := hw
  exact ⟨k, node, hk.of_device h.rfkillId h.rfkillStatePath h.device, h.device ▸ hnode, hon⟩

/-- The query changes nothing, and its answer has the reason it should have. -/
theorem btIsEnabled_tells (b : Build) {w : World} (hw : Statics w) :
    ∃ r t, btIsEnabled b w = (.ok r, t) ∧ t.device = w.device ∧ Statics t ∧ Told b w t r := by
  obtain ⟨v, hvdevice, hvuses, hv, hpower⟩ := power_asked b hw
  have exits (r fd : Int) {y : World} (hrun : btIsEnabled b w = closeAndReturn (r, fd) y)
      (hy : Asked (fun _ => True) v y) (htold : ∀ t, Asked (fun _ => True) v t → Told b w t r) :
      ∃ r t, btIsEnabled b w = (.ok r, t) ∧ t.device = w.device ∧ Statics t ∧ Told b w t r := by
    obtain ⟨t, hclose, ht, _⟩ := closeAndReturn_asks (ε := Empty) (fun _ => True) (r, fd) y
    have hvt := hy.trans ht
    exact ⟨r, t, hrun.trans hclose, hvt.device.trans hvdevice, hvt.statics hv, htold t hvt⟩
  obtain ⟨hrun, hon⟩ | ⟨r, hrun, htold⟩ := hpower
  · obtain ⟨fd, u, hopen, hfd, hu, huanswers⟩ :=
      descriptor_asks (ε := Int × Int) (fun _ => True) .socket trivial (fun _ => true) v
    have hsocket : v.answers .socket = w.answers .socket := hvuses.other id
    have hinfo : u.answers (.ioctl .getDevInfo) = w.answers (.ioctl .getDevInfo) := by
      rw [huanswers, Answers.next_other (by simp), hvuses.other id]
    by_cases hneg : fd < 0
    · refine exits (-1) fd (bind_ok (merge_error ?_)) hu fun t _ => .noSocket fun hnone => ?_
      · rw [bind_ok hrun, createHciSock, bind_ok hopen, when_pos hneg]
        rfl
      · have := hfd.mpr ⟨hsocket ▸ hnone, rfl⟩
        omega
    obtain ⟨ret, x, hget, hret, hx⟩ := getDevInfo_asks (ε := Int × Int) u
    rw [hu.device, hvdevice] at hget
    rw [hinfo] at hret
    by_cases hfails : ret < 0
    · refine exits 0 fd (bind_ok (merge_error ?_)) (hu.trans hx) fun t ht => ?_
      · rw [bind_ok hrun, createHciSock, bind_ok hopen, when_neg hneg, pure_bind_apply,
          bind_ok hget]
        dsimp only
        rw [when_pos hfails]
        rfl
      · exact .unknown (fun hb => ht.powerOn (hon hb)) (hret.mp hfails)
    · refine exits (if w.device.hciUp then 1 else 0) fd (bind_ok (merge_ok ?_)) (hu.trans hx)
        fun t ht => ?_
      · rw [bind_ok hrun, createHciSock, bind_ok hopen, when_neg hneg, pure_bind_apply,
          bind_ok hget]
        dsimp only
        rw [when_neg hfails, pure_bind_apply]
        rfl
      · cases hup : w.device.hciUp with
        | true => exact .on (fun hb => ht.powerOn (hon hb)) hup
        | false => exact .down (fun hb => ht.powerOn (hon hb)) hup
  · exact exits r (-1) (bind_ok (merge_error (bind_error hrun))) (.refl _ v) htold

/-- A query tells the truth after any calls of the interface, whatever failed in them and fails
in it: it leaves the device alone, 1 means that the power and the HCI device are on, and 0 and
-1 have one of the reasons of `Told`. -/
theorem session_tells (b : Build) {w : World} (hw : Statics w)
    (calls : List (Function × Answers)) (answers : Answers) :
    let v := { session b calls w with answers := answers }
    ∃ r t, btIsEnabled b v = (.ok r, t) ∧ t.device = v.device ∧ Told b v t r := by
  intro v
  have hstable : Stable w v :=
    (session_stable b calls w).trans _ _ _ (.of_sameNodes rfl rfl (.of_eq rfl))
  obtain ⟨r, t, hrun, hdevice, -, htold⟩ := btIsEnabled_tells b (hstable.2 hw)
  exact ⟨r, t, hrun, hdevice, htold⟩

/-- The daemon has not started, so the device is up without power. -/
theorem session_tells_daemonless :
    let v := { session ⟨true, false⟩ [(.enable, refusing (.propertySet (.start .bluetoothd)))]
      (off fun _ _ => none) with answers := fun _ _ => none }
    v.device.hciUp = true ∧ ∃ r t, btIsEnabled ⟨true, false⟩ v = (.ok r, t) ∧
      Told ⟨true, false⟩ v t r := by
  intro v
  obtain ⟨r, t, hrun, -, htold⟩ := session_tells ⟨true, false⟩ (w := off fun _ _ => none)
    (Or.inl rfl) [(.enable, refusing (.propertySet (.start .bluetoothd)))] fun _ _ => none
  exact ⟨by decide +kernel, r, t, hrun, htold⟩

/-! ### Queries in which nothing fails -/

/-- Power and HCI device are both on, or both off. -/
structure Level (b : Build) (k : Nat) (on : Bool) (d : Device) : Prop where
  power : b.rfkill → ∃ node, d.node k = some node ∧ node.state = level on
  up : d.hciUp = on

theorem AllOn.level {b : Build} {k : Nat} {d : Device} (h : AllOn b k d) : Level b k true d :=
  ⟨h.power, h.up⟩

theorem AllOff.level {b : Build} {k : Nat} {d : Device} (h : AllOff b k d) : Level b k false d :=
  ⟨h.power, h.down⟩

/-- The node that is remembered is the one whose power is known. -/
theorem Level.state {b : Build} {k j : Nat} {on : Bool} {d : Device} {t : World} {node : Node}
    (h : Level b k on d) (hb : b.rfkill) (hswitch : Switch d k) (hsame : t.device = d)
    (hj : Remembers t j) (hnode : d.node j = some node) : node.state = level on := by
  obtain ⟨other, hother, hstate⟩ := h.power hb
  obtain rfl := hj.unique (hsame ▸ hswitch)
  rw [hnode] at hother
  rwa [Option.some.inj hother]

theorem btIsEnabled_exact (b : Build) {w : World} {k : Nat} {on : Bool}
    (hswitch : Switch w.device k) (hw : Statics w) (hnone : ∀ c n, w.answers c n = none)
    (hlevel : Level b k on w.device) :
    ∃ t, btIsEnabled b w = (.ok (if on then 1 else 0), t) ∧ t.device = w.device := by
  obtain ⟨r, t, hrun, hdevice, -, htold⟩ := btIsEnabled_tells b hw
  refine ⟨t, ?_, hdevice⟩
  rw [hrun]
  cases htold with
  | on power up =>
      obtain rfl : true = on := up.symm.trans hlevel.up
      rfl
  | powerless rfkill j node remembers here off =>
      have hstate := hlevel.state rfkill hswitch hdevice remembers here
      rw [off] at hstate
      cases on with
      | true => exact absurd hstate (by decide)
      | false => rfl
  | down power down =>
      obtain rfl : false = on := down.symm.trans hlevel.up
      rfl
  | unknown power fails => exact absurd (hnone _ 0) fails
  | noPower rfkill fails =>
      obtain ⟨u, node, hread, hnode, -⟩ :=
        checkBluetoothPower_succeeds (ε := Int × Int) hswitch hw fun c n _ => hnone c n
      obtain ⟨other, hother, hstate⟩ := hlevel.power rfkill
      rw [hnode] at hother
      rw [hread, Option.some.inj hother, hstate] at fails
      cases on <;> cases fails
  | noSocket fails => exact absurd (hnone _ 0) fails

end Bluedroid
