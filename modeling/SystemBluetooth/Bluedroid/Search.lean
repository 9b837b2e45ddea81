import Mathlib.Data.Nat.Find
import SystemBluetooth.Bluedroid.Rfkill

/-!
# The search for the Bluetooth switch

`init_rfkill` takes the first index without a node for the end of the list. So it finds the
switch exactly if no index below the smallest Bluetooth one is missing.
-/

namespace Bluedroid

open Effect

variable {ε : Type}

/-- The files of all nodes can be opened and read. -/
def Readable (w : World) : Prop :=
  ∀ id n, w.answers (.openFile (.type id) .read) n = none ∧
    w.answers (.readFile (.type id)) n = none

/-- `k` is the smallest index of a Bluetooth node. -/
structure Smallest (d : Device) (k : Nat) : Prop where
  bluetooth : ∃ node, d.node k = some node ∧ node.Bluetooth
  least : ∀ j < k, ∀ node, d.node j = some node → ¬ node.Bluetooth

theorem Smallest.unique {d : Device} {j k : Nat} (hj : Smallest d j) (hk : Smallest d k) :
    j = k := by
  obtain ⟨node, hnode, hbt⟩ := hj.bluetooth
  obtain ⟨node', hnode', hbt'⟩ := hk.bluetooth
  obtain h | h | h := Nat.lt_trichotomy j k
  · exact absurd hbt (hk.least j h node hnode)
  · exact h
  · exact absurd hbt' (hj.least k h node' hnode')

/-- Where a search from `id` on ends: at a Bluetooth node, or at an index without a node. -/
inductive Searched (d : Device) : Nat → Option Nat → Prop where
  | found {id node} (here : d.node id = some node) (bluetooth : node.Bluetooth) :
      Searched d id (some id)
  | missing {id} (here : d.node id = none) : Searched d id none
  | next {id node result} (here : d.node id = some node) (other : ¬ node.Bluetooth)
      (later : Searched d (id + 1) result) : Searched d id result

/-- What the search leaves: the node that is found is remembered. -/
structure Ended (w t : World) (r : Int) (result : Option Nat) : Prop where
  device : t.device = w.device
  value : r = if result = none then -1 else 0
  id : t.rfkillId = result.elim w.rfkillId fun k => k
  path : t.rfkillStatePath = result.elim w.rfkillStatePath fun k => some (.state k)

/-- There is no node behind the list. -/
theorem Device.node_lt {d : Device} {id : Nat} {node : Node} (h : d.node id = some node) :
    id < d.nodes.length := by
  by_contra hge
  rw [Device.node, List.getElem?_eq_none (Nat.not_lt.mp hge)] at h
  cases h

theorem Readable.asked {calls : Call → Prop} {w t : World} (h : Readable w)
    (ht : Asked calls w t) : Readable t := fun id n =>
  ⟨ht.uses.never_fails (fun m => (h id m).1) n, ht.uses.never_fails (fun m => (h id m).2) n⟩

/-- The fuel is enough to get behind the last node. -/
theorem initRfkillLoop_searched (fuel : Nat) {id : Nat} {w : World} (hread : Readable w)
    (hid : id ≤ w.device.nodes.length) (hfuel : w.device.nodes.length < id + fuel) :
    ∃ r t result, (initRfkillLoop fuel id w : Except ε Int × World) = (.ok r, t) ∧
      Searched w.device id result ∧ Ended w t r result := by
  induction fuel generalizing id w with
  | zero => omega
  | succ fuel ih =>
      cases initRfkillLoop_turn (ε := ε) id w with
      | missing t run asked why =>
          obtain hanswer | hnone := why
          · exact absurd (hread id 0).1 hanswer
          · exact ⟨-1, t, none, run fuel, .missing hnone,
              ⟨asked.device, rfl, asked.rfkillId, asked.rfkillStatePath⟩⟩
      | found node t run asked here bluetooth =>
          exact ⟨0, _, some id, run fuel, .found here bluetooth, ⟨asked.device, rfl, rfl, rfl⟩⟩
      | next node t run asked here other =>
          have hlt := Device.node_lt here
          have hnot : ¬ node.Bluetooth := fun hbt => other hbt (hread id 0).2
          have hnext : id + 1 ≤ t.device.nodes.length := by rw [asked.device]; exact hlt
          obtain ⟨r, t', result, hloop, hsearched, hended⟩ :=
            ih (hread.asked asked) hnext (by rw [asked.device]; omega)
          rw [asked.device] at hsearched
          refine ⟨r, t', result, (run fuel).trans hloop, .next here hnot hsearched,
            ⟨hended.device.trans asked.device, hended.value, ?_, ?_⟩⟩
          · rw [hended.id, asked.rfkillId]
          · rw [hended.path, asked.rfkillStatePath]

/-- More fuel changes nothing: the loop itself has come to its end. -/
theorem initRfkillLoop_ends (fuel fuel' : Nat) {id : Nat} {w : World}
    (hid : id ≤ w.device.nodes.length) (hfuel : w.device.nodes.length < id + fuel)
    (hfuel' : w.device.nodes.length < id + fuel') :
    (initRfkillLoop fuel id w : Except ε Int × World) = initRfkillLoop fuel' id w := by
  induction fuel generalizing id w fuel' with
  | zero => omega
  | succ fuel ih =>
      obtain ⟨fuel', rfl⟩ : ∃ n, fuel' = n + 1 := ⟨fuel' - 1, by omega⟩
      cases initRfkillLoop_turn (ε := ε) id w with
      | missing t run asked why => rw [run, run]
      | found node t run asked here bluetooth => rw [run, run]
      | next node t run asked here other =>
          have hlt := Device.node_lt here
          rw [run, run]
          have hnext : id + 1 ≤ t.device.nodes.length := by rw [asked.device]; exact hlt
          exact ih fuel' hnext (by rw [asked.device]; omega) (by rw [asked.device]; omega)

/-! ### What is found -/

/-- All nodes before the end of a search are there, and none is a Bluetooth node. -/
theorem Searched.before {d : Device} {id : Nat} {result : Option Nat} (h : Searched d id result) :
    ∃ k, id ≤ k ∧ (∀ j, id ≤ j → j < k → ∃ node, d.node j = some node ∧ ¬ node.Bluetooth) ∧
      (result = some k ∧ (∃ node, d.node k = some node ∧ node.Bluetooth) ∨
        result = none ∧ d.node k = none) := by
  induction h with
  | @found id node here bluetooth =>
      exact ⟨id, Nat.le_refl id, fun j hj hlt => absurd hlt (Nat.not_lt.mpr hj),
        Or.inl ⟨rfl, node, here, bluetooth⟩⟩
  | @missing id here =>
      exact ⟨id, Nat.le_refl id, fun j hj hlt => absurd hlt (Nat.not_lt.mpr hj),
        Or.inr ⟨rfl, here⟩⟩
  | @next id node result here other _ ih =>
      obtain ⟨k, hk, hbefore, hend⟩ := ih
      refine ⟨k, Nat.le_of_succ_le hk, fun j hj hlt => ?_, hend⟩
      obtain rfl | hgt := Nat.eq_or_lt_of_le hj
      · exact ⟨node, here, other⟩
      · exact hbefore j hgt hlt

theorem exists_smallest {d : Device} (h : ∃ k node, d.node k = some node ∧ node.Bluetooth) :
    ∃ k, Smallest d k := by
  classical
  refine ⟨Nat.find h, Nat.find_spec h, fun j hj node hnode hbt => ?_⟩
  exact Nat.find_min h hj ⟨node, hnode, hbt⟩

/-- `init_rfkill` comes to an end and finds the smallest Bluetooth node if there is one. -/
structure FindsSwitch (w : World) : Prop where
  ends : ∀ fuel, w.device.nodes.length < fuel →
    (initRfkillLoop fuel 0 w : Except Empty Int × World) = initRfkill w
  found : (∃ k node, w.device.node k = some node ∧ node.Bluetooth) → ∃ k t,
    (initRfkill w : Except Empty Int × World) = (.ok 0, t) ∧ Smallest w.device k ∧
      t.rfkillId = k ∧ t.rfkillStatePath = some (.state k)
  absent : (¬ ∃ k node, w.device.node k = some node ∧ node.Bluetooth) → ∃ t,
    (initRfkill w : Except Empty Int × World) = (.ok (-1), t) ∧ t.rfkillId = -1

/-- The switch is found, whatever other nodes there are, exactly if no index below it is
missing. -/
theorem initRfkill_findsSwitch {w : World} (hread : Readable w) (hid : w.rfkillId = -1) :
    FindsSwitch w ↔ ∀ k, Smallest w.device k → ∀ j < k, (w.device.node j).isSome := by
  have hlength : w.device.nodes.length < 0 + (w.device.nodes.length + 1) := by omega
  obtain ⟨r, t, result, hrun, hsearched, hended⟩ :=
    initRfkillLoop_searched (ε := Empty) _ hread (Nat.zero_le _) hlength
  change (initRfkill w : Except Empty Int × World) = (.ok r, t) at hrun
  obtain ⟨e, -, hbefore, hend⟩ := hsearched.before
  have hsmallest : result = some e → Smallest w.device e := by
    rintro rfl
    obtain ⟨_, hbt⟩ | ⟨hnone, _⟩ := hend
    · refine ⟨hbt, fun j hj node hnode hbt => ?_⟩
      obtain ⟨other, hother, hnot⟩ := hbefore j (Nat.zero_le j) hj
      obtain rfl : other = node := Option.some.inj (hother.symm.trans hnode)
      exact hnot hbt
    · cases hnone
  constructor
  · intro h k hk j hj
    obtain ⟨k', t', hfound, _⟩ := h.found ⟨k, hk.bluetooth⟩
    rw [hrun] at hfound
    obtain rfl := Except.ok.inj (Prod.mk.inj hfound).1
    obtain ⟨rfl, _⟩ | ⟨rfl, _⟩ := hend
    · obtain rfl := hk.unique (hsmallest rfl)
      obtain ⟨node, hnode, _⟩ := hbefore j (Nat.zero_le j) hj
      rw [hnode]
      rfl
    · exact absurd hended.value (by decide)
  · intro hdense
    refine ⟨fun fuel hfuel => initRfkillLoop_ends fuel _ (Nat.zero_le _) (by omega) hlength,
      fun hsome => ?_, fun hno => ?_⟩
    · obtain ⟨k, hk⟩ := exists_smallest hsome
      obtain ⟨hresult, _⟩ | ⟨_, hmissing⟩ := hend
      · have he := hsmallest hresult
        rw [hresult] at hended
        exact ⟨e, t, hrun.trans (by rw [hended.value]; rfl), he, hended.id, hended.path⟩
      · -- the search has ended before the switch, at a gap
        obtain ⟨node, hnode, hbt⟩ := hk.bluetooth
        obtain hlt | rfl | hgt := Nat.lt_trichotomy e k
        · have hsome := hdense k hk e hlt
          rw [hmissing] at hsome
          cases hsome
        · rw [hmissing] at hnode
          cases hnode
        · obtain ⟨other, hother, hnot⟩ := hbefore k (Nat.zero_le k) hgt
          obtain rfl : other = node := Option.some.inj (hother.symm.trans hnode)
          exact absurd hbt hnot
    · obtain ⟨_, hbt⟩ | ⟨hresult, _⟩ := hend
      · exact absurd ⟨e, hbt⟩ hno
      · rw [hresult] at hended
        exact ⟨t, hrun.trans (by rw [hended.value]; rfl), hended.id.trans hid⟩

/-- Nothing is known yet of the given nodes, and nothing fails. -/
def fresh (nodes : List (Option Node)) : World where
  device := ⟨nodes, false, false, false, false⟩
  rfkillId := -1
  rfkillStatePath := none
  answers := fun _ _ => none
  descriptors := fun n => n + 3
  io := []

def wlanNode : Node := ⟨['w', 'l', 'a', 'n'], '1'⟩

def bluetoothNode : Node := ⟨bluetooth, '0'⟩

theorem initRfkill_findsSwitch_dense :
    FindsSwitch (fresh [some wlanNode, some bluetoothNode]) ↔
      ∀ k, Smallest (fresh [some wlanNode, some bluetoothNode]).device k → ∀ j < k,
        ((fresh [some wlanNode, some bluetoothNode]).device.node j).isSome :=
  initRfkill_findsSwitch (fun _ _ => ⟨rfl, rfl⟩) rfl

/-- The first node is gone, and the second one is not looked at. -/
theorem initRfkill_gap : ¬ FindsSwitch (fresh [none, some bluetoothNode]) := by
  intro h
  obtain ⟨k, t, hrun, _, hid, _⟩ := h.found ⟨1, bluetoothNode, rfl, by decide⟩
  have hkept : (initRfkill (fresh [none, some bluetoothNode]) :
      Except Empty Int × World).2.rfkillId = -1 := by decide
  rw [hrun, hid] at hkept
  cases hkept

end Bluedroid
