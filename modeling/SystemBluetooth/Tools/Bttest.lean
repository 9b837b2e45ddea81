import SystemBluetooth.Bluedroid.Query
import SystemBluetooth.Library.Session

/-!
# The command line of the switch

`bttest` calls one function of the interface, named by its argument, and exits with what the
function returns. Each run is a process of its own: the node looked up in one is not remembered
in the next, and what carries over is the state of the device. A session of such runs in which
nothing fails is the session of a switch with two positions.
-/

namespace Bttest

open Bluedroid Effect

def functionTable : List (String × Function) :=
  [("enable", .enable), ("disable", .disable), ("is_enabled", .isEnabled)]

/-- What `usage` prints. -/
def usage : List String :=
  "Usage:\n" :: functionTable.map fun entry => "\tbttest " ++ entry.1 ++ "\n"

/-- `do_enable`, `do_disable` and `do_is_enabled`: the result, and what is printed. -/
def doFunction (b : Build) (function : Function) : Effect World Empty (Int × List String) := do
  let ret ← perform b function
  return (ret, ["= " ++ toString ret ++ "\n"])

/-- The entry of the table whose name is the argument. -/
def lookup (name : String) : Option (String × Function) :=
  functionTable.find? fun entry => name == entry.1

def main (b : Build) (argv : List String) : Effect World Empty (Int × List String) :=
  match argv with
  | [_, argument] =>
      match lookup argument with
      | some (name, function) => do
          let (ret, printed) ← doFunction b function
          return (ret, (name ++ "\n") :: printed)
      | none => return (-1, usage)
  | _ => return (-1, usage)

/-! ### Runs of the program -/

structure Invocation where
  argv : List String
  answers : Answers
  descriptors : Nat → Nat

/-- A run of the program: what it exits with and prints, and the world it leaves. -/
def execute (b : Build) (w : World) (i : Invocation) : (Int × List String) × World :=
  match main b i.argv { w with
    rfkillId := -1
    rfkillStatePath := none
    answers := i.answers
    descriptors := i.descriptors } with
  | (.ok r, t) => (r, t)
  | (.error e, _) => e.elim

/-- The function that the arguments ask for. -/
def requested : List String → Option Function
  | [_, argument] => (lookup argument).map Prod.snd
  | _ => none

/-- Nothing fails in the run but attempts to bring the device up, and not all of them. -/
def Admissible (i : Invocation) : Prop :=
  match requested i.argv with
  | none => True
  | some .enable => LeadingFailures 99 i.answers
  | some _ => ∀ c n, i.answers c n = none

/-- A switch with two positions. -/
def switch (on : Bool) : Option Function → (Int × List String) × Bool
  | some .enable => ((0, ["enable\n", "= 0\n"]), true)
  | some .disable => ((0, ["disable\n", "= 0\n"]), false)
  | some .isEnabled =>
      (if on then (1, ["is_enabled\n", "= 1\n"]) else (0, ["is_enabled\n", "= 0\n"]), on)
  | none => ((-1, usage), on)

/-- The device is in one of the two positions. -/
structure Position (b : Build) (k : Nat) (on : Bool) (d : Device) : Prop where
  node : Switch d k
  allOn : on = true → AllOn b k d
  allOff : on = false → AllOff b k d

theorem Position.level {b : Build} {k : Nat} {on : Bool} {d : Device} (h : Position b k on d) :
    Level b k on d := by
  cases on with
  | true => exact (h.allOn rfl).level
  | false => exact (h.allOff rfl).level

theorem main_none (b : Build) {argv : List String} (h : requested argv = none) :
    main b argv = return (-1, usage) := by
  obtain _ | ⟨program, _ | ⟨argument, _ | ⟨extra, rest⟩⟩⟩ := argv
  · rfl
  · rfl
  · rw [requested, Option.map_eq_none_iff] at h
    rw [main, h]
  · rfl

theorem main_some (b : Build) {argv : List String} {f : Function} {w t : World} {r : Int}
    (h : requested argv = some f) (hrun : perform b f w = (.ok r, t)) :
    ∃ name, (name, f) ∈ functionTable ∧
      main b argv w = (.ok (r, [name ++ "\n", "= " ++ toString r ++ "\n"]), t) := by
  obtain _ | ⟨program, _ | ⟨argument, _ | ⟨extra, rest⟩⟩⟩ := argv
  · cases h
  · cases h
  · rw [requested, Option.map_eq_some_iff] at h
    obtain ⟨⟨name, f⟩, hlookup, rfl⟩ := h
    refine ⟨name, List.mem_of_find?_eq_some hlookup, ?_⟩
    have hdo : doFunction b f w = (.ok (r, ["= " ++ toString r ++ "\n"]), t) := by
      rw [doFunction, bind_ok hrun]
      rfl
    rw [main, hlookup]
    exact bind_ok hdo
  · cases h

/-- The world as a run finds it. -/
def atStart (w : World) (i : Invocation) : World :=
  { w with
    rfkillId := -1
    rfkillStatePath := none
    answers := i.answers
    descriptors := i.descriptors }

theorem atStart_statics (w : World) (i : Invocation) : Statics (atStart w i) := Or.inl rfl

theorem execute_none (b : Build) {w : World} {i : Invocation} (h : requested i.argv = none) :
    (execute b w i).1 = (-1, usage) ∧ (execute b w i).2.device = w.device := by
  rw [execute, main_none b h]
  exact ⟨rfl, rfl⟩

theorem execute_some (b : Build) {w t : World} {i : Invocation} {f : Function} {r : Int}
    (h : requested i.argv = some f) (hrun : perform b f (atStart w i) = (.ok r, t)) :
    ∃ name, (name, f) ∈ functionTable ∧
      execute b w i = ((r, [name ++ "\n", "= " ++ toString r ++ "\n"]), t) := by
  obtain ⟨name, hname, hmain⟩ := main_some b h hrun
  refine ⟨name, hname, ?_⟩
  rw [atStart] at hmain
  rw [execute, hmain]

/-- The node of a run stays the only Bluetooth node. -/
theorem switch_execute (b : Build) {w t : World} {i : Invocation} {k : Nat} {f : Function}
    {r : Int} (hswitch : Switch w.device k) (hrun : perform b f (atStart w i) = (.ok r, t)) :
    Switch t.device k := by
  have hstable := (perform_stable b f).apply (atStart w i)
  rw [hrun] at hstable
  exact hswitch.of_sameNodes hstable.1

/-- A run in which too little fails to matter moves the switch and answers for it. -/
theorem execute_refines (b : Build) (k : Nat) :
    Session.Refines (execute b) switch (fun i => requested i.argv) id Admissible
      (fun on w => Position b k on w.device) := by
  intro on w i hpos hadm
  rw [Admissible] at hadm
  dsimp only [id]
  cases h : requested i.argv with
  | none =>
      obtain ⟨hreply, hdevice⟩ := execute_none b (w := w) h
      exact ⟨hreply, hdevice ▸ hpos⟩
  | some f =>
      rw [h] at hadm
      cases f with
      | enable =>
          obtain ⟨t, hrun, hon, -⟩ :=
            btEnable_succeeds b (w := atStart w i) hpos.node (atStart_statics w i) (Nat.le_refl 99)
              hadm
          have hnode := switch_execute b (f := .enable) hpos.node hrun
          obtain ⟨name, hname, hexec⟩ := execute_some b h hrun
          obtain rfl : name = "enable" := by simpa [functionTable] using hname
          rw [hexec]
          exact ⟨rfl, hnode, fun _ => hon.allOn hnode, Bool.noConfusion⟩
      | disable =>
          obtain ⟨t, hrun, hoff⟩ :=
            btDisable_succeeds b (w := atStart w i) hpos.node (atStart_statics w i) hadm
          have hnode := switch_execute b (f := .disable) hpos.node hrun
          obtain ⟨name, hname, hexec⟩ := execute_some b h hrun
          obtain rfl : name = "disable" := by simpa [functionTable] using hname
          rw [hexec]
          exact ⟨rfl, hnode, Bool.noConfusion, fun _ => hoff⟩
      | isEnabled =>
          obtain ⟨t, hrun, hdevice⟩ := btIsEnabled_exact b (w := atStart w i) hpos.node
            (atStart_statics w i) hadm hpos.level
          obtain ⟨name, hname, hexec⟩ := execute_some b h hrun
          obtain rfl : name = "is_enabled" := by simpa [functionTable] using hname
          rw [hexec]
          refine ⟨?_, ?_⟩
          · cases on <;> rfl
          · rw [hdevice]
            exact hpos

/-- Whatever is asked for in a session of runs, each answers and prints what the switch does,
and the device is left in its position. -/
theorem session_switches (b : Build) {k : Nat} {on : Bool} {w : World}
    (hpos : Position b k on w.device) {invocations : List Invocation}
    (hadm : ∀ i ∈ invocations, Admissible i) :
    (Session.run (execute b) invocations w).1 =
        (Session.run switch (invocations.map fun i => requested i.argv) on).1 ∧
      Position b k (Session.run switch (invocations.map fun i => requested i.argv) on).2
        (Session.run (execute b) invocations w).2.device := by
  have h := (execute_refines b k).run hpos hadm
  rwa [List.map_id] at h

/-- The device is off; the first attempts to bring it up fail, and a word is misspelt. -/
theorem session_switches_offOnce :
    (Session.run (execute ⟨true, false⟩)
      [⟨["bttest", "enable"], twoFailures, fun n => n⟩,
        ⟨["bttest", "enabled"], fun _ _ => some 1, fun n => n⟩,
        ⟨["bttest", "is_enabled"], fun _ _ => none, fun n => n⟩] (off fun _ _ => none)).1 =
      [(0, ["enable\n", "= 0\n"]), (-1, usage), (1, ["is_enabled\n", "= 1\n"])] :=
  (session_switches ⟨true, false⟩
    (show Position ⟨true, false⟩ 0 false (off fun _ _ => none).device from
      ⟨⟨by decide, ⟨⟨bluetooth, '0'⟩, rfl, rfl⟩, by
          intro i node hnode _
          cases i with
          | zero => rfl
          | succ i => simp [off, Device.node] at hnode⟩,
        fun h => absurd h (by decide), fun _ => ⟨rfl, rfl, rfl, fun _ => ⟨_, rfl, rfl⟩⟩⟩)
    (by
      rw [List.forall_mem_cons, List.forall_mem_cons, List.forall_mem_singleton]
      refine ⟨fun c n h => ?_, trivial, fun c n => rfl⟩
      by_cases hc : c = .ioctl .devUp ∧ n < 2
      · exact ⟨hc.1, by omega⟩
      · exact absurd (if_neg hc) h)).1

end Bttest
