import SystemBluetooth.Bluedroid.Report
import SystemBluetooth.Bluedroid.Sockets
import SystemBluetooth.Patchram.Handover

/-!
# Switching on, and the download behind it

`bt_enable` starts the daemon that downloads the firmware and then tries to bring the HCI device
up, which "can only succeed once hciattach has sent the firmware and then turned on hci device
via HCIUARTSETPROTO ioctl". The two programs run side by side; what connects them is the kernel,
which has no device to bring up before the protocol is set on the line. The attempt that counts
is the last one that `bt_enable` has made; all those before have failed.
-/

namespace Bluedroid

open Effect
open Patchram (commands programCommands Downloaded)

/-- The device comes up, or is reported to be up, only when the protocol has been set by the
calls that the daemon has made by then: `clock n` of them before the attempt with number `n`. -/
def BehindDaemon (answers : Answers) (clock : Nat → Nat) (io : List Patchram.Io) : Prop :=
  ∀ n, ¬ Fails (answers (.ioctl .devUp) n) →
    ∃ result, 0 ≤ result ∧ .ioctl "HCIUARTSETPROTO" result ∈ io.take (clock n)

/-! ### The attempts that are made -/

/-- What the attempts to bring the device up have returned, in order. -/
def attempts (io : List Io) : List Int :=
  io.filterMap fun
    | .made (.ioctl .devUp) result => some result
    | _ => none

theorem attempts_append (a b : List Io) : attempts (a ++ b) = attempts a ++ attempts b :=
  List.filterMap_append

/-- Other calls are no attempts. -/
theorem Makes.attempts {calls : Call → Prop} {w t : World} (h : Makes calls w t)
    (hother : ¬ calls (.ioctl .devUp)) : attempts t.io = attempts w.io := by
  obtain ⟨new, ht, hnew⟩ := h.io
  have hnone : Bluedroid.attempts new = [] := by
    refine List.filterMap_eq_nil_iff.mpr fun io hio => ?_
    split
    · exact absurd (hnew _ _ hio) hother
    · rfl
  rw [ht, attempts_append, hnone, List.append_nil]

/-- An attempt is recorded with its result. -/
theorem devUp_attempts {ε : Type} (w : World) :
    wp (devUp : Effect World ε (Int × Errno))
      (fun r t => (r.1 = 0 ∨ r.1 = -1) ∧ attempts t.io = attempts w.io ++ [r.1])
      (fun _ _ => False) w := by
  simp only [devUp, make, wp_bind, wp_get, wp_modify, wp_pure, attempts_append]
  refine ⟨?_, rfl⟩
  split_ifs
  all_goals simp

/-- A loop that is left with attempts remaining has failed at all but the last it has made. -/
theorem devUpLoop_attempts (n : Nat) (hciSock ret : Int) (w : World) :
    wp (devUpLoop n hciSock ret)
      (fun a t => a.attempt ≠ 0 → a.attempt ≤ n ∧
        attempts t.io = attempts w.io ++ (List.replicate (n - a.attempt) (-1) ++ [a.ret]))
      (fun _ _ => True) w := by
  induction n generalizing hciSock ret w with
  | zero => exact fun h => absurd rfl h
  | succ n ih =>
      rw [devUpLoop]
      have hsocket : Keeps (Makes (Call.socket = ·))
          (createHciSock : Effect World (Int × Int) Int) := descriptor_makes rfl _
      refine wp_bind.mpr (wp_mono (hsocket w) (fun fd u hu => ?_) fun _ _ _ => trivial)
      refine wp_bind.mpr (wp_when.mpr ⟨fun _ => trivial, fun _ => ?_⟩)
      refine wp_bind.mpr (wp_mono (devUp_attempts u) ?_ fun _ _ h => h.elim)
      rintro ⟨ret, errno⟩ v ⟨hret, hv⟩
      rw [hu.attempts (by simp)] at hv
      by_cases hup : ret = 0 ∨ errno = EALREADY
      · simp only [if_pos hup]
        intro _
        refine ⟨Nat.le_refl _, ?_⟩
        simpa using hv
      · simp only [if_neg hup]
        obtain rfl : ret = -1 := hret.resolve_left fun h => hup (Or.inl h)
        refine wp_bind.mpr (wp_modify.mpr (wp_bind.mpr (wp_modify.mpr ?_)))
        refine wp_mono (ih fd (-1) _) (fun a t ht hattempt => ?_) fun _ _ _ => trivial
        obtain ⟨hle, hattempts⟩ := ht hattempt
        refine ⟨Nat.le_succ_of_le hle, ?_⟩
        have hsame : attempts (v.io ++ [.close fd] ++ [.usleep 100000]) = attempts v.io := by
          simp [attempts]
        change attempts t.io = attempts (v.io ++ [.close fd] ++ [.usleep 100000]) ++ _ at hattempts
        rw [hattempts, hsame, hv, Nat.succ_sub hle, List.replicate_succ]
        simp

/-- Behind the loop the device is left as it is. -/
theorem settle_makes (b : Build) (loop : Attempts) :
    Keeps (Makes (· ≠ .ioctl .devUp)) (settle b loop) := by
  have hset (p : Property) : Keeps (Makes (· ≠ .ioctl .devUp))
      (propertySet p : Effect World (Int × Int) Int) := propertySet_makes p (by simp)
  have hoff : Keeps (Makes (· ≠ .ioctl .devUp)) (powerOff b) := by
    refine .when Makes.refl (.bind Makes.trans (fun w => ?_) fun _ => .pure Makes.refl _)
    have hfile {t : World} (h : Makes Call.OnFile w t) : Makes (· ≠ .ioctl .devUp) w t := by
      refine h.mono ?_
      rintro c hc rfl
      exact hc
    exact wp_mono (setBluetoothPower_makes false w) (fun _ _ => hfile) fun _ _ => hfile
  have hundo : Keeps (Makes (· ≠ .ioctl .devUp)) (do
      powerOff b
      stop (loop.ret, loop.hciSock) : Effect World (Int × Int) Unit) :=
    .bind Makes.trans hoff fun _ => .stop Makes.refl _
  refine .bind Makes.trans (.when Makes.refl (.bind Makes.trans (hset _) fun _ => hundo))
    fun _ => ?_
  refine .bind Makes.trans (hset _) fun _ => ?_
  exact .bind Makes.trans (.when Makes.refl hundo) fun _ => .pure Makes.refl _

theorem closeAndReturn_makes {ε : Type} (r : Int × Int) :
    Keeps (Makes (· ≠ .ioctl .devUp)) (closeAndReturn r : Effect World ε Int) :=
  .bind Makes.trans (.when Makes.refl (closeFile_makes _ _)) fun _ => .pure Makes.refl _

theorem bringUp_eq (b : Build) : bringUp b = devUpLoop 100 (-1) (-1) >>= settle b := rfl

/-- The exit returns what it is left with. -/
theorem exit_ne_zero {c : Effect World (Int × Int) (Int × Int)} {w t : World}
    (h : wp c (fun r _ => r.1 ≠ 0) (fun r _ => r.1 ≠ 0) w) :
    (merge c >>= closeAndReturn : Effect World Empty Int) w ≠ (.ok 0, t) := by
  have hclose (r : Int × Int) (hr : r.1 ≠ 0) (x : World) :
      (closeAndReturn r : Effect World Empty Int) x ≠ (.ok 0, t) := by
    obtain ⟨y, hy, -⟩ := closeAndReturn_asks (ε := Empty) Call.OnFile r x
    rw [hy]
    intro heq
    exact hr (Except.ok.inj (Prod.mk.inj heq).1)
  rcases hrun : c w with ⟨r | r, x⟩
  · rw [wp_of_error hrun] at h
    rw [bind_ok (merge_error hrun)]
    exact hclose r h x
  · rw [wp_of_ok hrun] at h
    rw [bind_ok (merge_ok hrun)]
    exact hclose r h x

/-- `bt_enable` returns 0 only behind an attempt that has not failed: the first such, and the
last that it makes. -/
theorem btEnable_zero (b : Build) {w t : World} (h : btEnable b w = (.ok 0, t)) :
    ∃ n ret, ComesUpAt n w ∧
      attempts t.io = attempts w.io ++ (List.replicate n (-1) ++ [ret]) := by
  rw [btEnable_eq] at h
  obtain ⟨u, ⟨hrun, hmakes, -, -⟩ | ⟨hrun, -⟩⟩ := prepare_cases b w
  · have hsocket : u.answers .socket = w.answers .socket :=
      hmakes.uses.other fun h => h (Or.inl rfl)
    have hdevUp : u.answers (.ioctl .devUp) = w.answers (.ioctl .devUp) :=
      hmakes.uses.other fun h => h (Or.inr rfl)
    have hattempts := hmakes.attempts (fun h => h (Or.inr rfl))
    have hloop := devUpLoop_attempts 100 (-1) (-1) u
    have hlooped := devUpLoop_looped 100 (-1) u
    cases hlooped with
    | noSocket k fd x hk run sockets before now asked =>
        have hend : (prepare b >>= fun _ => bringUp b) w = (.error (-1, fd), x) := by
          rw [bind_ok hrun, bringUp, bind_error run]
        exact absurd h (exit_ne_zero (wp_of_error hend |>.mpr (by simp)))
    | timeout a x run attempt sockets before ret asked =>
        have hsettle := settle_timeout b attempt x
        refine absurd h (exit_ne_zero ?_)
        rw [wp_bind, wp_of_ok hrun, bringUp_eq, wp_bind, wp_of_ok run]
        exact wp_mono hsettle (fun _ _ h => h.elim) fun r y hr => by simp [hr.1, ret]
    | up k a x hk run attempt sockets before now ret zero device statics uses =>
        rw [wp_of_ok run] at hloop
        obtain ⟨_, hx⟩ := hloop (by omega)
        have hk' : 100 - a.attempt = k := by omega
        rw [hattempts, hk'] at hx
        refine ⟨k, a.ret, ⟨hk, hsocket ▸ sockets, hdevUp ▸ before, hdevUp ▸ now⟩, hx ▸ ?_⟩
        -- No further attempt is made behind the loop.
        have hend : (prepare b >>= fun _ => bringUp b) w = settle b a x := by
          rw [bind_ok hrun, bringUp_eq, bind_ok run]
        have hexit : Keeps (Makes (· ≠ .ioctl .devUp))
            (merge (settle b a) >>= closeAndReturn : Effect World Empty Int) :=
          .bind Makes.trans (.merge (settle_makes b a)) fun r => closeAndReturn_makes r
        have hsettled := hexit.apply x
        rw [← bind_congr (merge_congr hend), h] at hsettled
        exact hsettled.attempts (by simp)
  · have hend : (prepare b >>= fun _ => bringUp b) w = (.error (-1, -1), u) := bind_error hrun
    rw [bind_ok (merge_error hend)] at h
    cases h

/-! ### Behind the download -/

/-- When `bt_enable` returns 0, the download is over. At the last attempt it has made, which is
the one that brought the device up, the daemon had made every call of its run: the commands sent
by then are all those its options and the file ask for, with the whole file among them if there
is one, and it only waits. -/
theorem btEnable_afterDownload (b : Build) {w t : World} {d : Patchram.World}
    (hio : d.io = []) (hpending : d.pending = false) (options : List Patchram.Opt)
    (port : Option (List UInt8)) {clock : Nat → Nat}
    (hkernel : BehindDaemon w.answers clock (Patchram.main options port d).2.io)
    (henabled : btEnable b w = (.ok 0, t)) :
    let daemon := Patchram.main options port d
    ∃ n ret, ComesUpAt n w ∧ attempts t.io = attempts w.io ++ (List.replicate n (-1) ++ [ret]) ∧
      daemon.1 = .error .waiting ∧ daemon.2.io.take (clock n) = daemon.2.io ∧
      ∃ v sent, Patchram.parseOptions options (Patchram.readDefaultBdaddr d).2 = (.ok 0, v) ∧
        (v.config.hcdfileFd > 0 → Downloaded d.fileReads v.file sent) ∧
        commands (daemon.2.io.take (clock n)) = programCommands v.config sent := by
  intro daemon
  obtain ⟨n, ret, hup, hattempts⟩ := btEnable_zero b henabled
  obtain ⟨result, -, hset⟩ := hkernel n hup.2.2.2
  obtain ⟨stop, u, hrun, hu⟩ := Patchram.main_stops hio hpending options port
  have hmem : .ioctl "HCIUARTSETPROTO" result ∈ (Patchram.main options port d).2.io :=
    List.mem_of_mem_take hset
  rw [hrun] at hmem hset
  rcases hu with hnone | ⟨rfl, -, hattached⟩
  · exact absurd (hnone _ hmem) (by simp [Patchram.Io.isIoctl])
  · have hwhole := hattached.whole hset
    have hset : .ioctl "HCIUARTSETPROTO" result ∈ (Patchram.main options port d).2.io := by
      rw [hrun]
      exact hmem
    obtain ⟨v, sent, hparsed, hdownloaded, hcommands, -⟩ :=
      Patchram.main_commands hio (.inr ⟨_, _, hset⟩)
    refine ⟨n, ret, hup, hattempts, ?_⟩
    rw [show daemon = (.error .waiting, u) from hrun]
    rw [hrun] at hcommands
    exact ⟨rfl, hwhole, v, sent, hparsed, hdownloaded, by rw [hwhole]; exact hcommands⟩

/-- There is no device at the first two attempts. -/
def absentTwice : Answers := fun c n => if c = .ioctl .devUp ∧ n < 2 then some 19 else none

/-- The daemon has done nothing at the first two attempts, and all its calls at the third. -/
def idleTwice (n : Nat) : Nat := if n < 2 then 0 else 40

def startupOptions : List Patchram.Opt :=
  [.patchram [0x61, 0x2e, 0x68, 0x63, 0x64], .no2bytes, .enableHci]

/-- The calls of a run with a file of one record, and with signals in both windows. -/
def daemonCalls : List Patchram.Io :=
  (Patchram.main startupOptions (some Patchram.portName) Patchram.expiringDownload).2.io

theorem daemonCalls_set : .ioctl "HCIUARTSETPROTO" 0 ∈ daemonCalls.take 40 := by decide +kernel

theorem behindDaemon_absentTwice :
    BehindDaemon (off absentTwice).answers idleTwice daemonCalls := by
  intro n hnow
  by_cases hn : n < 2
  · exact absurd ⟨19, if_pos ⟨rfl, hn⟩, by decide⟩ hnow
  · refine ⟨0, by decide, ?_⟩
    rw [idleTwice, if_neg hn]
    exact daemonCalls_set

theorem returns_of_fst {c : Effect World Empty Int} {w : World} {r : Int}
    (h : (c w).1 = .ok r) : ∃ t, c w = (.ok r, t) :=
  ⟨(c w).2, Prod.ext h rfl⟩

/-- The third attempt brings the device up, and finds the record of the file sent. -/
theorem btEnable_afterDownload_absentTwice :
    attempts (btEnable ⟨true, false⟩ (off absentTwice)).2.io = [-1, -1, 0] ∧
      daemonCalls.take (idleTwice 2) = daemonCalls ∧
      [0x01, 0x4c, 0xfc, 0x00] ∈ commands daemonCalls := by
  have henabled : (btEnable ⟨true, false⟩ (off absentTwice)).1 = .ok 0 := by decide +kernel
  have hthird : ComesUpAt 2 (off absentTwice) := by
    refine ⟨by decide, by decide, fun j hj => ⟨19, if_pos ⟨rfl, hj⟩, by decide⟩, ?_⟩
    rintro ⟨e, he, -⟩
    cases he
  have hkernel := behindDaemon_absentTwice
  rw [daemonCalls] at hkernel ⊢
  obtain ⟨t, hrun⟩ := returns_of_fst henabled
  obtain ⟨n, -, hup, -, -, hwhole, -⟩ := btEnable_afterDownload ⟨true, false⟩
    (d := Patchram.expiringDownload) rfl rfl startupOptions (some Patchram.portName) hkernel hrun
  obtain rfl := hup.unique hthird
  exact ⟨by decide +kernel, hwhole, by decide +kernel⟩

end Bluedroid
