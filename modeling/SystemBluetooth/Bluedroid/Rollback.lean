import SystemBluetooth.Bluedroid.Report

/-!
# What a failure leaves behind

Each failing exit of `bt_enable` takes back some of the steps before it. Started from
everything off, and with undo calls that succeed, the exits that take back all of them are
those of a power that stays off, of a transport that does not start, and, in builds that
start a daemon for the transport, of a device that does not come up.
-/

namespace Bluedroid

open Effect

/-- The power of every Bluetooth node is off. -/
def PowerOff (d : Device) : Prop :=
  ∀ i node, d.node i = some node → node.Bluetooth → node.state = '0'

/-- As before a call: the power is off and the transport is stopped. -/
def RolledBack (b : Build) (d : Device) : Prop := PowerOff d ∧ transportOn b d = false

/-- Every step of the forward path succeeds. -/
def AllSucceed (b : Build) (w : World) : Prop :=
  PowersOn b w ∧ TransportStarts b w ∧ ComesUp w ∧ DaemonStarts w

/-- Switching the power on and off again leaves it off. -/
theorem PowerOff.powered {b : Build} {d e : Device} {k : Nat} (h : PowerOff d)
    (hnodes : e.nodes = (powered b k true d).nodes) : PowerOff (powered b k false e) := by
  intro i node hnode hbt
  by_cases hb : b.rfkill = true
  · have he : e.node i = (d.setState k (level true)).node i := by
      rw [Bluedroid.powered, if_pos hb] at hnodes
      rw [Device.node, hnodes, Device.node]
    rw [Bluedroid.powered, if_pos hb, node_setState, he, node_setState] at hnode
    by_cases hk : k = i
    · simp only [if_pos hk, Option.map_eq_some_iff] at hnode
      obtain ⟨_, _, rfl⟩ := hnode
      rfl
    · simp only [if_neg hk] at hnode
      exact h i node hnode hbt
  · rw [Bluedroid.powered, if_neg hb] at hnode hnodes
    rw [Device.node, hnodes] at hnode
    exact h i node hnode hbt

theorem transportOn_powered (b : Build) (k : Nat) (on : Bool) (d : Device) :
    transportOn b (powered b k on d) = transportOn b d := by
  rcases b with ⟨_ | _, _⟩ <;> rfl

/-- Stopping the daemon stops the transport where the daemon is what was started. -/
theorem transportOn_stop (b : Build) (k : Nat) (d : Device) :
    transportOn b ((started b k d).setProperty (.stop .hciattach)) =
      b.hciattachUsingProperty := by
  rcases b with ⟨_, _ | _⟩ <;> rfl

/-- Started from power and transport off, with undo calls that succeed: a failure is rolled
back exactly if it is one of those named above. -/
theorem btEnable_rollsBack (b : Build) {w : World} (hw : Statics w) (hpower : PowerOff w.device)
    (htransport : transportOn b w.device = false) (hundo : UndoSucceeds w.answers) :
    (¬ AllSucceed b w → RolledBack b (btEnable b w).2.device) ↔
      (AllSucceed b w ∨ ¬ PowersOn b w ∨ ¬ TransportStarts b w ∨
        TimesOut w ∧ b.hciattachUsingProperty = false) := by
  have hleft : ∀ {d : Device}, transportOn b d = true → ¬ RolledBack b d := by
    intro d hon hrolled
    rw [hrolled.2] at hon
    exact absurd hon (by decide)
  cases btEnable_cases b hw with
  | noPower t run fails device =>
      rw [run, device]
      exact ⟨fun _ => Or.inr (Or.inl fails), fun _ _ => ⟨hpower, htransport⟩⟩
  | noTransport k t run power fails device =>
      rw [run, device hundo]
      refine ⟨fun _ => Or.inr (Or.inr (Or.inl fails)), fun _ _ => ⟨hpower.powered rfl, ?_⟩⟩
      rw [transportOn_powered, transportOn_powered, htransport]
  | noSocket k t run power transport fails device =>
      have hfailed : ¬ AllSucceed b w := fun h => fails.not_comesUp h.2.2.1
      have hno : ¬ TimesOut w := by
        rintro ⟨hsockets, _⟩
        obtain ⟨j, hj, _, _, hsocket⟩ := fails
        exact hsocket (hsockets j hj)
      rw [run, device]
      constructor
      · intro h
        exact absurd (h hfailed) (hleft (transportOn_started b k w.device))
      · rintro (h | h | h | h)
        · exact absurd h hfailed
        · exact absurd power h
        · exact absurd transport h
        · exact absurd h.1 hno
  | timeout k t run power transport fails device =>
      have hfailed : ¬ AllSucceed b w := fun h => fails.not_comesUp h.2.2.1
      rw [run, device hundo]
      constructor
      · intro h
        refine Or.inr (Or.inr (Or.inr ⟨fails, ?_⟩))
        have hoff := (h hfailed).2
        rwa [transportOn_powered, transportOn_stop] at hoff
      · rintro (h | h | h | ⟨_, hdaemon⟩) _
        · exact absurd h hfailed
        · exact absurd power h
        · exact absurd transport h
        · refine ⟨hpower.powered (k := k) ?_, ?_⟩
          · rw [setProperty_nodes, node_started]
          · rw [transportOn_powered, transportOn_stop, hdaemon]
  | noDaemon k r t run power transport comesUp fails zero device =>
      have hfailed : ¬ AllSucceed b w := fun h => fails h.2.2.2
      rw [run, device hundo]
      constructor
      · intro h
        refine absurd (h hfailed) (hleft ?_)
        rw [transportOn_powered]
        exact transportOn_started b k w.device
      · rintro (h | h | h | h)
        · exact absurd h hfailed
        · exact absurd power h
        · exact absurd transport h
        · exact absurd comesUp h.1.not_comesUp
  | success k t run power transport comesUp daemon =>
      have hall : AllSucceed b w := ⟨power, transport, comesUp, daemon⟩
      exact ⟨fun _ => Or.inl hall, fun _ h => absurd hall h⟩

/-- The first socket cannot be created: the transport stays started. -/
theorem btEnable_socketless :
    ¬ (¬ AllSucceed ⟨true, false⟩ (off (refusing .socket)) →
      RolledBack ⟨true, false⟩ (btEnable ⟨true, false⟩ (off (refusing .socket))).2.device) := by
  intro h
  have hfails : SocketFails (off (refusing .socket)) :=
    ⟨0, by omega, by simp, by simp, by simp [off, refusing]⟩
  have hstopped := (h fun hall => hfails.not_comesUp hall.2.2.1).2
  revert hstopped
  decide

theorem btEnable_rollsBack_off :
    (¬ AllSucceed ⟨true, true⟩ (off (refusing .socket)) →
        RolledBack ⟨true, true⟩ (btEnable ⟨true, true⟩ (off (refusing .socket))).2.device) ↔
      (AllSucceed ⟨true, true⟩ (off (refusing .socket)) ∨
        ¬ PowersOn ⟨true, true⟩ (off (refusing .socket)) ∨
        ¬ TransportStarts ⟨true, true⟩ (off (refusing .socket)) ∨
        TimesOut (off (refusing .socket)) ∧
          (⟨true, true⟩ : Build).hciattachUsingProperty = false) :=
  btEnable_rollsBack ⟨true, true⟩ (Or.inl rfl)
    (by
      intro i node hnode _
      cases i with
      | zero =>
          obtain rfl : _ = node := by simpa [off, Device.node] using hnode
          rfl
      | succ i => simp [off, Device.node] at hnode)
    rfl ⟨fun _ _ => rfl, fun _ _ => rfl, fun _ => rfl, fun _ => rfl⟩

end Bluedroid
