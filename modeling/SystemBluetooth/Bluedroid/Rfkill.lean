import SystemBluetooth.Bluedroid.Basic

/-!
# Switching the power

The rfkill functions look up the id of a Bluetooth node unless they remember one. In
every case they end in one of two ways: the power of that node is set, or nothing is
changed but what is remembered.

`Uses calls w t` says that between two states only answers to the given calls were used
up. It is what a caller needs to know of a callee to predict its own next calls.
-/

namespace Bluedroid

open Effect

variable {ε : Type}

/-! ### Answers used up -/

/-- From `w` to `t` some answers were used up, to no other than the given calls. -/
def Uses (calls : Call → Prop) (w t : World) : Prop :=
  ∀ c, ∃ m, (¬ calls c → m = 0) ∧ ∀ n, t.answers c n = w.answers c (n + m)

theorem Answers.next_other {answers : Answers} {call other : Call} (h : other ≠ call) :
    answers.next call other = answers other := by
  funext n
  rw [Answers.next, if_neg h]

namespace Uses

variable {calls : Call → Prop}

theorem refl (w : World) : Uses calls w w := fun _ => ⟨0, fun _ => rfl, fun _ => rfl⟩

theorem trans (w u t : World) (h₁ : Uses calls w u) (h₂ : Uses calls u t) : Uses calls w t := by
  intro c
  obtain ⟨m₁, hm₁, hu⟩ := h₁ c
  obtain ⟨m₂, hm₂, ht⟩ := h₂ c
  refine ⟨m₂ + m₁, fun hc => ?_, fun n => ?_⟩
  · rw [hm₁ hc, hm₂ hc]
  · rw [ht, hu, Nat.add_assoc]

theorem mono {calls' : Call → Prop} {w t : World} (h : Uses calls w t)
    (hsub : ∀ c, calls c → calls' c) : Uses calls' w t := by
  intro c
  obtain ⟨m, hm, ht⟩ := h c
  exact ⟨m, fun hc => hm fun h => hc (hsub c h), ht⟩

/-- Any other call is answered as before. -/
theorem other {w t : World} (h : Uses calls w t) {c : Call} (hc : ¬ calls c) :
    t.answers c = w.answers c := by
  obtain ⟨m, hm, ht⟩ := h c
  funext n
  rw [ht, hm hc, Nat.add_zero]

/-- Calls that never fail still never fail. -/
theorem never_fails {w t : World} (h : Uses calls w t) {c : Call}
    (hw : ∀ n, w.answers c n = none) (n : Nat) : t.answers c n = none := by
  obtain ⟨m, _, ht⟩ := h c
  rw [ht, hw]

theorem of_next {w t : World} (call : Call) (hcall : calls call)
    (h : t.answers = w.answers.next call) : Uses calls w t := by
  intro c
  by_cases hc : c = call
  · exact ⟨1, fun hnot => absurd (hc ▸ hcall) hnot, fun n => by rw [h, Answers.next, if_pos hc]⟩
  · exact ⟨0, fun _ => rfl, fun n => by rw [h, Answers.next, if_neg hc, Nat.add_zero]⟩

theorem of_answers {w t : World} (h : t.answers = w.answers) : Uses calls w t :=
  fun _ => ⟨0, fun _ => rfl, fun n => by rw [h, Nat.add_zero]⟩

end Uses

/-- A call to the file system. -/
def Call.OnFile : Call → Prop
  | .openFile .. | .readFile .. | .writeFile .. => True
  | _ => False

/-! ### Single calls -/

/-- `t` is `w` after calls that change neither the device nor what is remembered. -/
structure Asked (calls : Call → Prop) (w t : World) : Prop where
  device : t.device = w.device
  rfkillId : t.rfkillId = w.rfkillId
  rfkillStatePath : t.rfkillStatePath = w.rfkillStatePath
  uses : Uses calls w t

theorem Asked.refl (calls : Call → Prop) (w : World) : Asked calls w w :=
  ⟨rfl, rfl, rfl, .refl w⟩

theorem Asked.trans {calls : Call → Prop} {w u t : World} (h₁ : Asked calls w u)
    (h₂ : Asked calls u t) : Asked calls w t :=
  ⟨h₂.device.trans h₁.device, h₂.rfkillId.trans h₁.rfkillId,
    h₂.rfkillStatePath.trans h₁.rfkillStatePath, .trans _ _ _ h₁.uses h₂.uses⟩

theorem make_apply (call : Call) (perform : World → Option Errno → Int × Device) (w : World) :
    (make call perform w : Except ε Int × World) =
      (.ok (perform w (w.answers call 0)).1,
        { w with
          device := (perform w (w.answers call 0)).2
          answers := w.answers.next call
          io := w.io ++ [.made call (perform w (w.answers call 0)).1] }) := rfl

theorem descriptor_asks (calls : Call → Prop) (call : Call) (hcall : calls call)
    (succeeds : World → Bool) (w : World) :
    ∃ fd t, (descriptor call succeeds w : Except ε Int × World) = (.ok fd, t) ∧
      (0 ≤ fd ↔ w.answers call 0 = none ∧ succeeds w) ∧ Asked calls w t ∧
      t.answers = w.answers.next call := by
  have hmake := make_apply (ε := ε) call (fun w answer =>
    (if answer = none ∧ succeeds w then (w.descriptors 0 : Int) else -1, w.device)) w
  by_cases h : w.answers call 0 = none ∧ succeeds w
  · simp only [if_pos h] at hmake
    let t : World :=
      { w with
        answers := w.answers.next call
        descriptors := fun n => w.descriptors (n + 1)
        io := w.io ++ [.made call (w.descriptors 0)] }
    refine ⟨w.descriptors 0, t, ?_, by simp [h], ⟨rfl, rfl, rfl, .of_next _ hcall rfl⟩, rfl⟩
    rw [descriptor, bind_ok hmake, when_pos (by omega)]
    rfl
  · simp only [if_neg h] at hmake
    let t : World :=
      { w with answers := w.answers.next call, io := w.io ++ [.made call (-1)] }
    refine ⟨-1, t, ?_, by simp [h], ⟨rfl, rfl, rfl, .of_next _ hcall rfl⟩, rfl⟩
    rw [descriptor, bind_ok hmake, when_neg (by omega)]
    rfl

/-- `open` succeeds exactly if it is answered so and the node exists. -/
theorem openFile_asks (path : Path) (mode : Mode) (w : World) :
    ∃ fd t, (openFile (some path) mode w : Except ε Int × World) = (.ok fd, t) ∧
      (0 ≤ fd ↔ w.answers (.openFile path mode) 0 = none ∧ (w.device.node path.id).isSome) ∧
      Asked Call.OnFile w t ∧ t.answers = w.answers.next (.openFile path mode) :=
  descriptor_asks Call.OnFile (.openFile path mode) trivial _ w

theorem closeFile_asks (calls : Call → Prop) (fd : Int) (w : World) :
    ∃ t, (closeFile fd w : Except ε Unit × World) = (.ok (), t) ∧ Asked calls w t ∧
      t.answers = w.answers :=
  ⟨{ w with io := w.io ++ [.close fd] }, rfl, ⟨rfl, rfl, rfl, .of_answers rfl⟩, rfl⟩

theorem closeAndReturn_asks (calls : Call → Prop) (r : Int × Int) (w : World) :
    ∃ t, (closeAndReturn r w : Except ε Int × World) = (.ok r.1, t) ∧ Asked calls w t ∧
      t.answers = w.answers := by
  by_cases h : r.2 ≥ 0
  · obtain ⟨t, ht, hasked, hanswers⟩ := closeFile_asks (ε := ε) calls r.2 w
    refine ⟨t, ?_, hasked, hanswers⟩
    rw [closeAndReturn, when_pos h, bind_ok ht]
    rfl
  · refine ⟨w, ?_, .refl calls w, rfl⟩
    rw [closeAndReturn, when_neg h]
    rfl

theorem readFile_asks (path : Path) (n : Nat) {node : Node} {w : World}
    (hnode : w.device.node path.id = some node) :
    ∃ sz t, (readFile path n w : Except ε (Int × List Char) × World) =
        (.ok (sz, (path.content node).take n), t) ∧
      (w.answers (.readFile path) 0 = none → sz = ((path.content node).take n).length) ∧
      Asked Call.OnFile w t ∧ t.answers = w.answers.next (.readFile path) := by
  let sz : Int := if w.answers (.readFile path) 0 = none then
    ((path.content node).take n).length else -1
  let t : World :=
    { w with
      answers := w.answers.next (.readFile path)
      io := w.io ++ [.made (.readFile path) sz] }
  have hcall : Call.OnFile (.readFile path) := trivial
  refine ⟨sz, t, ?_, fun h => if_pos h, ⟨rfl, rfl, rfl, .of_next _ hcall rfl⟩, rfl⟩
  rw [readFile, gets_bind_apply, hnode]
  rfl

theorem writeFile_asks (path : Path) (value : Char) (w : World) :
    ∃ sz t, (writeFile path value w : Except ε Int × World) = (.ok sz, t) ∧
      (0 ≤ sz ∧ t.device = w.device.setState path.id value ∨
        sz < 0 ∧ t.device = w.device ∧ w.answers (.writeFile path value) 0 ≠ none) ∧
      t.rfkillId = w.rfkillId ∧ t.rfkillStatePath = w.rfkillStatePath ∧
      t.answers = w.answers.next (.writeFile path value) := by
  have hrun := make_apply (ε := ε) (.writeFile path value) (fun w answer =>
    if answer = none then (1, w.device.setState path.id value) else (-1, w.device)) w
  refine ⟨_, _, hrun, ?_, rfl, rfl, rfl⟩
  by_cases h : w.answers (.writeFile path value) 0 = none
  · exact Or.inl (by simp [h])
  · exact Or.inr (by simp [h])

/-- `t` is `w` with the device `d`, after calls that did not touch what is remembered. -/
structure Went (w t : World) (d : Device) : Prop where
  device : t.device = d
  rfkillId : t.rfkillId = w.rfkillId
  rfkillStatePath : t.rfkillStatePath = w.rfkillStatePath
  uses : Uses (fun _ => True) w t

theorem make_went {call : Call} {perform : World → Option Errno → Int × Device} {w : World}
    {r : Int} {d : Device} (h : perform w (w.answers call 0) = (r, d)) :
    ∃ t, (make call perform w : Except ε Int × World) = (.ok r, t) ∧ Went w t d := by
  let t : World :=
    { w with device := d, answers := w.answers.next call, io := w.io ++ [.made call r] }
  refine ⟨t, ?_, rfl, rfl, rfl, .of_next call trivial rfl⟩
  rw [make_apply, h]

theorem propertySet_succeeds {p : Property} {w : World}
    (hnone : ∀ n, w.answers (.propertySet p) n = none) :
    ∃ t, (propertySet p w : Except ε Int × World) = (.ok 0, t) ∧
      Went w t (w.device.setProperty p) :=
  make_went (by simp only [hnone 0, if_true])

theorem devDown_succeeds {w : World} (hnone : ∀ n, w.answers (.ioctl .devDown) n = none) :
    ∃ t, (devDown w : Except ε Int × World) = (.ok 0, t) ∧
      Went w t { w.device with hciUp := false } :=
  make_went (by simp only [hnone 0, if_true])

theorem socket_succeeds {w : World} (hnone : ∀ n, w.answers .socket n = none) :
    ∃ fd t, (createHciSock w : Except ε Int × World) = (.ok fd, t) ∧ 0 ≤ fd ∧
      Went w t w.device := by
  obtain ⟨fd, t, hrun, hfd, ht, _⟩ :=
    descriptor_asks (ε := ε) (fun _ => True) .socket trivial (fun _ => true) w
  exact ⟨fd, t, hrun, hfd.mpr ⟨hnone 0, rfl⟩, ht.device, ht.rfkillId, ht.rfkillStatePath, ht.uses⟩

/-! ### Looking up the node -/

def Node.Bluetooth (node : Node) : Prop := node.type.take 9 = bluetooth

instance (node : Node) : Decidable node.Bluetooth := inferInstanceAs (Decidable (_ = _))

/-- What is remembered names a Bluetooth node. -/
def Remembers (w : World) (k : Nat) : Prop :=
  w.rfkillId = k ∧ w.rfkillStatePath = some (.state k) ∧
    ∃ node, w.device.node k = some node ∧ node.Bluetooth

/-- One turn of the loop, whatever fuel is left: there is no file, the node is a Bluetooth
node, or the loop goes on in `t`. -/
inductive Turn (ε : Type) (id : Nat) (w : World) : Prop where
  | missing (t : World)
      (run : ∀ fuel, (initRfkillLoop (fuel + 1) id w : Except ε Int × World) = (.ok (-1), t))
      (asked : Asked Call.OnFile w t)
      (why : w.answers (.openFile (.type id) .read) 0 ≠ none ∨ w.device.node id = none)
  | found (node : Node) (t : World)
      (run : ∀ fuel, (initRfkillLoop (fuel + 1) id w : Except ε Int × World) =
        (.ok 0, { t with rfkillId := id, rfkillStatePath := some (.state id) }))
      (asked : Asked Call.OnFile w t)
      (here : w.device.node id = some node) (bluetooth : node.Bluetooth)
  | next (node : Node) (t : World)
      (run : ∀ fuel, (initRfkillLoop (fuel + 1) id w : Except ε Int × World) =
        initRfkillLoop fuel (id + 1) t)
      (asked : Asked Call.OnFile w t) (here : w.device.node id = some node)
      (other : node.Bluetooth → w.answers (.readFile (.type id)) 0 ≠ none)

theorem initRfkillLoop_turn (id : Nat) (w : World) : Turn ε id w := by
  obtain ⟨fd, v, hopen, hfd, hv, hvanswers⟩ := openFile_asks (ε := ε) (.type id) .read w
  by_cases hneg : fd < 0
  · refine .missing v (fun fuel => ?_) hv ?_
    · rw [initRfkillLoop, bind_ok hopen, if_pos hneg]
      rfl
    · by_contra hboth
      obtain ⟨hanswer, hnode⟩ := not_or.mp hboth
      have := hfd.mpr ⟨not_not.mp hanswer, Option.isSome_iff_ne_none.mpr hnode⟩
      omega
  obtain ⟨node, hnode⟩ := Option.isSome_iff_exists.mp (hfd.mp (by omega)).2
  have hnode' : v.device.node id = some node := by rw [hv.device]; exact hnode
  obtain ⟨sz, u, hread, hsz, hu, _⟩ := readFile_asks (ε := ε) (.type id) 16 hnode'
  obtain ⟨t, hclose, ht, _⟩ := closeFile_asks (ε := ε) Call.OnFile fd u
  have hasked := (hv.trans hu).trans ht
  have hrun (fuel : Nat) : (initRfkillLoop (fuel + 1) id w : Except ε Int × World) =
      (if sz ≥ 9 ∧ (node.type.take 16).take 9 = bluetooth then
        (do
          modify fun w => { w with rfkillId := id, rfkillStatePath := some (.state id) }
          return 0 : Effect World ε Int)
      else initRfkillLoop fuel (id + 1)) t := by
    rw [initRfkillLoop, bind_ok hopen, if_neg hneg, bind_ok hread]
    exact bind_ok hclose
  by_cases hfound : sz ≥ 9 ∧ (node.type.take 16).take 9 = bluetooth
  · refine .found node t (fun fuel => ?_) hasked hnode ?_
    · rw [hrun, if_pos hfound]
      rfl
    · simpa [Node.Bluetooth, List.take_take] using hfound.2
  · refine .next node t (fun fuel => ?_) hasked hnode fun hbt hanswer => hfound ⟨?_, ?_⟩
    · rw [hrun, if_neg hfound]
    · have hlen : 9 ≤ node.type.length := by
        have h := congrArg List.length hbt
        rw [List.length_take] at h
        have : bluetooth.length = 9 := rfl
        omega
      have hvread : v.answers (.readFile (.type id)) 0 = none := by
        rw [hvanswers, Answers.next_other (by simp), hanswer]
      rw [hsz hvread]
      simp [Path.content]
      omega
    · rw [List.take_take]
      exact hbt

/-- The loop either finds a node and remembers it, or changes nothing. -/
theorem initRfkillLoop_cases (fuel id : Nat) (w : World) :
    ∃ r t, (initRfkillLoop fuel id w : Except ε Int × World) = (.ok r, t) ∧
      t.device = w.device ∧ Uses Call.OnFile w t ∧
      (r = 0 ∧ (∃ k, Remembers t k) ∨
        r = -1 ∧ t.rfkillId = w.rfkillId ∧ t.rfkillStatePath = w.rfkillStatePath) := by
  induction fuel generalizing id w with
  | zero => exact ⟨-1, w, rfl, rfl, .refl w, Or.inr ⟨rfl, rfl, rfl⟩⟩
  | succ fuel ih =>
      cases initRfkillLoop_turn (ε := ε) id w with
      | missing t run asked why =>
          exact ⟨-1, t, run fuel, asked.device, asked.uses,
            Or.inr ⟨rfl, asked.rfkillId, asked.rfkillStatePath⟩⟩
      | found node t run asked here bluetooth =>
          refine ⟨0, _, run fuel, asked.device, asked.uses.trans _ _ _ (.of_answers rfl),
            Or.inl ⟨rfl, id, rfl, rfl, node, ?_, bluetooth⟩⟩
          exact (congrArg (Device.node · id) asked.device).trans here
      | next node t run asked here other =>
          obtain ⟨r, t', hloop, hdevice, huses, hcases⟩ := ih (id + 1) t
          rw [asked.rfkillId, asked.rfkillStatePath] at hcases
          exact ⟨r, t', (run fuel).trans hloop, hdevice.trans asked.device,
            asked.uses.trans _ _ _ huses, hcases⟩

/-- When nothing fails and no id is missing before a Bluetooth node, the loop gets there. -/
theorem initRfkillLoop_finds (fuel : Nat) {id k : Nat} {w : World} (hid : id ≤ k)
    (hfuel : k < id + fuel)
    (hopen : ∀ path mode n, w.answers (.openFile path mode) n = none)
    (hread : ∀ path n, w.answers (.readFile path) n = none)
    (hnodes : ∀ i ≤ k, (w.device.node i).isSome)
    {node : Node} (hk : w.device.node k = some node) (hbt : node.Bluetooth) :
    ∃ t, (initRfkillLoop fuel id w : Except ε Int × World) = (.ok 0, t) := by
  induction fuel generalizing id w with
  | zero => omega
  | succ fuel ih =>
      cases initRfkillLoop_turn (ε := ε) id w with
      | missing t run asked why =>
          obtain hanswer | hnone := why
          · exact absurd (hopen _ _ 0) hanswer
          · have hsome := hnodes id hid
            rw [hnone] at hsome
            cases hsome
      | found other t run asked here bluetooth => exact ⟨_, run fuel⟩
      | next other t run asked here hother =>
          have hne : id ≠ k := by
            rintro rfl
            obtain rfl : other = node := by simpa [hk] using here.symm
            exact hother hbt (hread _ 0)
          have hnext : id + 1 ≤ k := by omega
          rw [← asked.device] at hnodes hk
          obtain ⟨t', hloop⟩ := ih hnext (by omega)
            (fun p m n => asked.uses.never_fails (hopen p m) n)
            (fun p n => asked.uses.never_fails (hread p) n) hnodes hk
          exact ⟨t', (run fuel).trans hloop⟩

/-! ### Setting and checking the power -/

/-- Nothing is remembered, or a Bluetooth node. -/
def Statics (w : World) : Prop := w.rfkillId = -1 ∨ ∃ k, Remembers w k

/-- The lookup is skipped or made; a failing one ends the function. -/
theorem ensureRfkill_cases {w : World} (hw : Statics w) :
    ∃ t, t.device = w.device ∧ Uses Call.OnFile w t ∧
      (ensureRfkill w = (.ok (), t) ∧ (∃ k, Remembers t k) ∨
        ensureRfkill w = (.error (-1, -1), t) ∧ Statics t) := by
  by_cases hid : w.rfkillId = -1
  · obtain ⟨r, t, hloop, hdevice, huses, hcases⟩ :=
      initRfkillLoop_cases (ε := Int × Int) (w.device.nodes.length + 1) 0 w
    refine ⟨t, hdevice, huses, ?_⟩
    have hinit : (initRfkill w : Except (Int × Int) Int × World) = (.ok r, t) := hloop
    rw [ensureRfkill, gets_bind_apply, when_pos hid, bind_ok hinit]
    obtain ⟨rfl, hk⟩ | ⟨rfl, hsame, _⟩ := hcases
    · exact Or.inl ⟨rfl, hk⟩
    · exact Or.inr ⟨rfl, Or.inl (hsame.trans hid)⟩
  · refine ⟨w, rfl, .refl w, Or.inl ⟨?_, hw.resolve_left hid⟩⟩
    rw [ensureRfkill, gets_bind_apply, when_neg hid]
    rfl

theorem node_setState (d : Device) (k i : Nat) (c : Char) :
    (d.setState k c).node i =
      if k = i then (d.node i).map fun n => { n with state := c } else d.node i := by
  simp only [Device.node, Device.setState, List.getElem?_modify]
  by_cases h : k = i
  · simp only [if_pos h]
    cases d.nodes[i]? <;> simp
  · simp [h]

theorem Remembers.of_setState {w t : World} {k : Nat} {c : Char} (h : Remembers w k)
    (hid : t.rfkillId = w.rfkillId) (hpath : t.rfkillStatePath = w.rfkillStatePath)
    (hdevice : t.device = w.device.setState k c) : Remembers t k := by
  obtain ⟨hk, hstate, node, hnode, hbt⟩ := h
  refine ⟨hid.trans hk, hpath.trans hstate, { node with state := c }, ?_, hbt⟩
  rw [hdevice, node_setState, if_pos rfl, hnode, Option.map_some]

theorem Remembers.of_nodes {w t : World} {k : Nat} (h : Remembers w k)
    (hid : t.rfkillId = w.rfkillId) (hpath : t.rfkillStatePath = w.rfkillStatePath)
    (hnodes : t.device.nodes = w.device.nodes) : Remembers t k := by
  obtain ⟨hk, hstate, node, hnode, hbt⟩ := h
  exact ⟨hid.trans hk, hpath.trans hstate, node, by rw [Device.node, hnodes]; exact hnode, hbt⟩

theorem Remembers.of_device {w t : World} {k : Nat} (h : Remembers w k)
    (hid : t.rfkillId = w.rfkillId) (hpath : t.rfkillStatePath = w.rfkillStatePath)
    (hdevice : t.device = w.device) : Remembers t k :=
  h.of_nodes hid hpath (congrArg Device.nodes hdevice)

/-- What a call of `set_bluetooth_power` comes to, once the node `k` is remembered in `v`. -/
structure Switched (on : Bool) (k : Nat) (v t : World) (r : Int) : Prop where
  uses : Uses Call.OnFile v t
  remembers : Remembers t k
  result : r = 0 ∧ t.device = v.device.setState k (level on) ∨ r = -1 ∧ t.device = v.device
  opened : ∀ n, t.answers (.openFile (.state k) .write) n =
    v.answers (.openFile (.state k) .write) (n + 1)
  succeeds : v.answers (.openFile (.state k) .write) 0 = none →
    v.answers (.writeFile (.state k) (level on)) 0 = none → r = 0

theorem setBluetoothPower_switches (on : Bool) {w v : World} {k : Nat}
    (hensure : ensureRfkill w = (.ok (), v)) (hv : Remembers v k) :
    ∃ r t, (setBluetoothPower on w : Except ε Int × World) = (.ok r, t) ∧
      Switched on k v t r := by
  obtain ⟨node, hnode, _⟩ := hv.2.2
  obtain ⟨fd, u, hopen, hfd, hu, hanswers⟩ :=
    openFile_asks (ε := Int × Int) (.state k) .write v
  have hopened : ∀ n, u.answers (.openFile (.state k) .write) n =
      v.answers (.openFile (.state k) .write) (n + 1) := by
    intro n
    rw [hanswers, Answers.next, if_pos rfl]
  have hru := hv.of_device hu.rfkillId hu.rfkillStatePath hu.device
  by_cases hneg : fd < 0
  · obtain ⟨t, hclose, ht, hta⟩ := closeAndReturn_asks (ε := ε) Call.OnFile (-1, fd) u
    refine ⟨-1, t, ?_, .trans _ _ _ hu.uses ht.uses,
      hru.of_device ht.rfkillId ht.rfkillStatePath ht.device,
      Or.inr ⟨rfl, ht.device.trans hu.device⟩, fun n => by rw [hta, hopened], ?_⟩
    · refine (bind_ok (merge_error ?_)).trans hclose
      rw [bind_ok hensure, gets_bind_apply, hv.2.1, bind_ok hopen, when_pos hneg]
      rfl
    · intro hok _
      have := hfd.mpr ⟨hok, by rw [show (Path.state k).id = k from rfl, hnode]; rfl⟩
      omega
  · obtain ⟨sz, x, hwrite, hcases, hid, hpath, hnext⟩ :=
      writeFile_asks (ε := Int × Int) (.state k) (level on) u
    have hcall : Call.OnFile (.writeFile (.state k) (level on)) := trivial
    have huses : Uses Call.OnFile v x := hu.uses.trans _ _ _ (.of_next _ hcall hnext)
    have hlater : ∀ n, x.answers (.openFile (.state k) .write) n =
        v.answers (.openFile (.state k) .write) (n + 1) := by
      intro n
      rw [hnext, Answers.next, if_neg (by simp), hopened]
    obtain ⟨hsz, hdevice⟩ | ⟨hsz, hdevice, hfails⟩ := hcases
    · obtain ⟨t, hclose, ht, hta⟩ := closeAndReturn_asks (ε := ε) Call.OnFile (0, fd) x
      have hx : Remembers x k := hru.of_setState hid hpath hdevice
      refine ⟨0, t, ?_, huses.trans _ _ _ ht.uses,
        hx.of_device ht.rfkillId ht.rfkillStatePath ht.device, Or.inl ⟨rfl, ?_⟩,
        fun n => by rw [hta, hlater], fun _ _ => rfl⟩
      · refine (bind_ok (merge_ok ?_)).trans hclose
        rw [bind_ok hensure, gets_bind_apply, hv.2.1, bind_ok hopen, when_neg hneg,
          pure_bind_apply, Option.getD_some, bind_ok hwrite, when_neg (by omega)]
        rfl
      · rw [ht.device, hdevice, hu.device]
        rfl
    · obtain ⟨t, hclose, ht, hta⟩ := closeAndReturn_asks (ε := ε) Call.OnFile (-1, fd) x
      have hx : Remembers x k := hru.of_device hid hpath hdevice
      refine ⟨-1, t, ?_, huses.trans _ _ _ ht.uses,
        hx.of_device ht.rfkillId ht.rfkillStatePath ht.device, Or.inr ⟨rfl, ?_⟩,
        fun n => by rw [hta, hlater], fun _ hok => ?_⟩
      · refine (bind_ok (merge_error ?_)).trans hclose
        rw [bind_ok hensure, gets_bind_apply, hv.2.1, bind_ok hopen, when_neg hneg,
          pure_bind_apply, Option.getD_some, bind_ok hwrite, when_pos hsz]
        rfl
      · rw [ht.device, hdevice, hu.device]
      · rw [hanswers, Answers.next, if_neg (by simp)] at hfails
        exact absurd hok hfails

/-- With a node remembered, the lookup is skipped. -/
theorem setBluetoothPower_remembered (on : Bool) {w : World} {k : Nat} (hw : Remembers w k) :
    ∃ r t, (setBluetoothPower on w : Except ε Int × World) = (.ok r, t) ∧
      Switched on k w t r := by
  have hid : w.rfkillId ≠ -1 := by
    rw [hw.1]
    omega
  refine setBluetoothPower_switches on ?_ hw
  rw [ensureRfkill, gets_bind_apply, when_neg hid]
  rfl

/-- Either the power of a Bluetooth node is set, or the device is as it was. -/
theorem setBluetoothPower_cases (on : Bool) {w : World} (hw : Statics w) :
    ∃ r t, (setBluetoothPower on w : Except ε Int × World) = (.ok r, t) ∧
      Uses Call.OnFile w t ∧ Statics t ∧
      ((∃ k, r = 0 ∧ Remembers t k ∧ t.device = w.device.setState k (level on) ∧
          ∀ p, (∀ n, w.answers (.openFile p .write) (n + 1) = none) →
            p = .state k → ∀ n, t.answers (.openFile p .write) n = none) ∨
        r = -1 ∧ t.device = w.device) := by
  obtain ⟨v, hdevice, huses, ⟨hensure, k, hk⟩ | ⟨hensure, hv⟩⟩ := ensureRfkill_cases hw
  · obtain ⟨r, t, hrun, hs⟩ := setBluetoothPower_switches (ε := ε) on hensure hk
    refine ⟨r, t, hrun, huses.trans _ _ _ hs.uses, Or.inr ⟨k, hs.remembers⟩, ?_⟩
    obtain ⟨hr, ht⟩ | ⟨hr, ht⟩ := hs.result
    · refine Or.inl ⟨k, hr, hs.remembers, by rw [ht, hdevice], ?_⟩
      rintro p hnone rfl n
      obtain ⟨m, _, hm⟩ := huses (.openFile (.state k) .write)
      rw [hs.opened, hm, show n + 1 + m = n + m + 1 by omega]
      exact hnone _
    · exact Or.inr ⟨hr, ht.trans hdevice⟩
  · obtain ⟨t, hclose, ht, _⟩ := closeAndReturn_asks (ε := ε) Call.OnFile (-1, -1) v
    refine ⟨-1, t, ?_, huses.trans _ _ _ ht.uses, ?_, Or.inr ⟨rfl, ht.device.trans hdevice⟩⟩
    · refine (bind_ok (merge_error ?_)).trans hclose
      rw [bind_error hensure]
    · obtain hv | ⟨k, hk⟩ := hv
      · exact Or.inl (ht.rfkillId.trans hv)
      · exact Or.inr ⟨k, hk.of_device ht.rfkillId ht.rfkillStatePath ht.device⟩

/-- A remembered node whose power is on is reported as on. -/
theorem checkBluetoothPower_on {w : World} {k : Nat} {node : Node} (hw : Remembers w k)
    (hnode : w.device.node k = some node) (hon : node.state = '1')
    (hopen : w.answers (.openFile (.state k) .read) 0 = none)
    (hread : w.answers (.readFile (.state k)) 0 = none) :
    ∃ t, (checkBluetoothPower w : Except ε Int × World) = (.ok 1, t) ∧
      Asked Call.OnFile w t := by
  have hid : w.rfkillId ≠ -1 := by
    rw [hw.1]
    omega
  have hensure : ensureRfkill w = (.ok (), w) := by
    rw [ensureRfkill, gets_bind_apply, when_neg hid]
    rfl
  obtain ⟨fd, u, hopened, hfd, hu, hanswers⟩ :=
    openFile_asks (ε := Int × Int) (.state k) .read w
  have hfd : ¬ fd < 0 := by
    have := hfd.mpr ⟨hopen, by rw [show (Path.state k).id = k from rfl, hnode]; rfl⟩
    omega
  have hunode : u.device.node k = some node := by rw [hu.device]; exact hnode
  obtain ⟨sz, x, hreads, hsz, hx, _⟩ := readFile_asks (ε := Int × Int) (.state k) 1 hunode
  have hone : sz = 1 := hsz (by rw [hanswers, Answers.next_other (by simp)]; exact hread)
  obtain ⟨t, hclose, ht, _⟩ := closeAndReturn_asks (ε := ε) Call.OnFile (1, fd) x
  refine ⟨t, ?_, (hu.trans hx).trans ht⟩
  refine (bind_ok (merge_ok ?_)).trans hclose
  rw [bind_ok hensure, gets_bind_apply, hw.2.1, bind_ok hopened, when_neg hfd, pure_bind_apply,
    Option.getD_some, bind_ok hreads]
  dsimp only
  rw [when_neg (by omega), pure_bind_apply]
  simp [Path.content, hon]

end Bluedroid
