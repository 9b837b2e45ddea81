import SystemBluetooth.Bluedroid.Enable
import SystemBluetooth.Library.Monitor

/-!
# Descriptors are closed once

A monitor follows the calls of the interface and keeps the descriptors that are open on its
behalf; to close any other is a violation. `Moves before after` says that calls turn one
list of open descriptors into another, whatever else is open. All functions end with nothing
open and without a violation, except for `bt_enable` when all attempts have failed: the
socket of the last one is closed in the loop and once more at the exit.
-/

namespace Bluedroid

open Effect

/-! ### Open descriptors -/

/-- The descriptors that are open after one more call; `none` if one is closed that is not. -/
def watch : Option (List Int) → Io → Option (List Int)
  | none, _ => none
  | some fds, .made .socket fd => if 0 ≤ fd then some (fd :: fds) else some fds
  | some fds, .made (.openFile _ _) fd => if 0 ≤ fd then some (fd :: fds) else some fds
  | some fds, .close fd => if fd ∈ fds then some (fds.erase fd) else none
  | some fds, _ => some fds

/-- Everything that is opened between two states is closed once, and nothing else is. -/
def ClosedOnce (w t : World) : Prop :=
  ∃ added, t.io = w.io ++ added ∧ Monitor.run watch (some []) added = some []

/-- From `w` to `t` the open descriptors turn from `before` to `after`. -/
def Moves (before after : List Int) (w t : World) : Prop :=
  ∃ added, t.io = w.io ++ added ∧
    ∀ fds, Monitor.run watch (some (before ++ fds)) added = some (after ++ fds)

/-- What is open if a call that opens has returned this number. -/
def held (fd : Int) : List Int := if 0 ≤ fd then [fd] else []

theorem held_of_neg {fd : Int} (h : fd < 0) : held fd = [] := if_neg (Int.not_le.mpr h)

namespace Moves

variable {before middle after : List Int} {w u t : World}

theorem refl (fds : List Int) (w : World) : Moves fds fds w w :=
  ⟨[], (List.append_nil _).symm, fun _ => rfl⟩

theorem trans (h₁ : Moves before middle w u) (h₂ : Moves middle after u t) :
    Moves before after w t := by
  obtain ⟨as, hu, has⟩ := h₁
  obtain ⟨bs, ht, hbs⟩ := h₂
  refine ⟨as ++ bs, by rw [ht, hu, List.append_assoc], fun fds => ?_⟩
  rw [Monitor.run_append, has, hbs]

/-- What is open besides stays open. -/
theorem frame (h : Moves before after w t) (more : List Int) :
    Moves (before ++ more) (after ++ more) w t := by
  obtain ⟨added, hio, hrun⟩ := h
  refine ⟨added, hio, fun fds => ?_⟩
  rw [List.append_assoc, hrun, List.append_assoc]

theorem closedOnce (h : Moves [] [] w t) : ClosedOnce w t := by
  obtain ⟨added, hio, hrun⟩ := h
  exact ⟨added, hio, hrun []⟩

theorem one {io : Io} (hio : t.io = w.io ++ [io])
    (h : ∀ fds, watch (some (before ++ fds)) io = some (after ++ fds)) : Moves before after w t :=
  ⟨[io], hio, fun fds => h fds⟩

end Moves

/-! ### Calls and functions -/

section Functions

variable {ε α β : Type}

/-- `c` returns, with the same descriptors open as before. -/
def Neutral (c : Effect World ε α) : Prop :=
  ∀ w, wp c (fun _ t => Moves [] [] w t) (fun _ _ => False) w

namespace Neutral

theorem pure (a : α) : Neutral (Pure.pure a : Effect World ε α) := fun w => Moves.refl [] w

theorem gets (f : World → α) : Neutral (Effect.gets f : Effect World ε α) :=
  fun w => Moves.refl [] w

/-- The recorded calls stay as they are. -/
theorem modify {f : World → World} (h : ∀ w, (f w).io = w.io) :
    Neutral (Effect.modify f : Effect World ε Unit) :=
  fun w => ⟨[], by rw [h, List.append_nil], fun _ => rfl⟩

theorem bind {c : Effect World ε α} {f : α → Effect World ε β} (first : Neutral c)
    (second : ∀ a, Neutral (f a)) : Neutral (c >>= f) := by
  intro w
  refine wp_bind.mpr (wp_mono (first w) (fun a u hu => ?_) fun _ _ h => h)
  exact wp_mono (second a u) (fun _ t ht => hu.trans ht) fun _ _ h => h

theorem when {p : Prop} [Decidable p] {c : Effect World ε Unit} (h : Neutral c) :
    Neutral (Effect.when p c) :=
  fun w => wp_when.mpr ⟨fun _ => h w, fun _ => Moves.refl [] w⟩

end Neutral

/-- A call that opens nothing. -/
theorem make_neutral {call : Call} {perform : World → Option Errno → Int × Device}
    (h : ∀ fds fd, watch (some fds) (.made call fd) = some fds) :
    Neutral (make call perform : Effect World ε Int) :=
  fun _ => Moves.one rfl fun fds => h fds _

theorem propertySet_neutral (p : Property) :
    Neutral (propertySet p : Effect World ε Int) := make_neutral fun _ _ => rfl

theorem writeFile_neutral (path : Path) (value : Char) :
    Neutral (writeFile path value : Effect World ε Int) := make_neutral fun _ _ => rfl

theorem devDown_neutral : Neutral (devDown : Effect World ε Int) := make_neutral fun _ _ => rfl

theorem devUp_neutral : Neutral (devUp : Effect World ε (Int × Errno)) :=
  fun _ => Moves.one rfl fun _ => rfl

theorem usleep_neutral (usec : Nat) : Neutral (usleep usec : Effect World ε Unit) :=
  fun _ => Moves.one rfl fun _ => rfl

theorem getDevInfo_neutral : Neutral (getDevInfo : Effect World ε (Int × Bool)) :=
  .bind (make_neutral fun _ _ => rfl) fun _ => .bind (.gets _) fun _ => .pure _

theorem readFile_neutral (path : Path) (n : Nat) :
    Neutral (readFile path n : Effect World ε (Int × List Char)) :=
  .bind (.gets _) fun _ => .bind (make_neutral fun _ _ => rfl) fun _ => .pure _

/-- The descriptor that is returned is open. -/
theorem descriptor_moves {call : Call} (succeeds : World → Bool)
    (h : ∀ fds fd, watch (some fds) (.made call fd) = some (held fd ++ fds)) (w : World) :
    wp (descriptor call succeeds : Effect World ε Int) (fun fd t => Moves [] (held fd) w t)
      (fun _ _ => False) w := by
  have hnext : Neutral (Effect.modify fun w : World =>
      { w with descriptors := fun n => w.descriptors (n + 1) } : Effect World ε Unit) :=
    .modify fun _ => rfl
  let fd : Int := if w.answers call 0 = none ∧ succeeds w then (w.descriptors 0 : Int) else -1
  have hmade : Moves [] (held fd) w
      { w with answers := w.answers.next call, io := w.io ++ [.made call fd] } :=
    Moves.one rfl fun fds => h fds fd
  rw [descriptor, wp_bind, wp_of_ok (make_apply call _ w), wp_bind]
  refine wp_mono (hnext.when _) (fun _ t ht => hmade.trans ?_) fun _ _ h => h
  simpa using ht.frame (held fd)

theorem openFile_moves (path : Option Path) (mode : Mode) (w : World) :
    wp (openFile path mode : Effect World ε Int) (fun fd t => Moves [] (held fd) w t)
      (fun _ _ => False) w := by
  cases path with
  | none => exact Moves.refl [] w
  | some path =>
      apply descriptor_moves
      intro fds fd
      rw [watch, held]
      split <;> rfl

theorem createHciSock_moves (w : World) :
    wp (createHciSock : Effect World ε Int) (fun fd t => Moves [] (held fd) w t)
      (fun _ _ => False) w := by
  apply descriptor_moves
  intro fds fd
  rw [watch, held]
  split <;> rfl

theorem closeFile_moves {fd : Int} (h : 0 ≤ fd) (w : World) :
    wp (closeFile fd : Effect World ε Unit) (fun _ t => Moves (held fd) [] w t)
      (fun _ _ => False) w := by
  refine Moves.one rfl fun fds => ?_
  rw [held, if_pos h]
  simp [watch]

theorem closeAndReturn_moves (r : Int × Int) (w : World) :
    wp (closeAndReturn r : Effect World ε Int) (fun _ t => Moves (held r.2) [] w t)
      (fun _ _ => False) w := by
  rw [closeAndReturn, wp_bind, wp_when]
  constructor
  · intro h
    exact closeFile_moves h w
  · intro h
    rw [held_of_neg (Int.not_le.mp h)]
    exact Moves.refl [] w

end Functions

/-! ### Functions with an exit -/

section Exits

variable {ε α : Type} {fds : List Int}

/-- With `fds` open, `c` ends with the descriptor that the exit closes. -/
def Ends (fds : List Int) (c : Effect World (Int × Int) (Int × Int)) : Prop :=
  ∀ w, wp c (fun r t => Moves fds (held r.2) w t) (fun r t => Moves fds (held r.2) w t) w

/-- `c` returns with `fds` open as before, or leaves for the exit. -/
def Passes (fds : List Int) (c : Effect World (Int × Int) α) : Prop :=
  ∀ w, wp c (fun _ t => Moves fds fds w t) (fun r t => Moves fds (held r.2) w t) w

theorem Neutral.passes {c : Effect World (Int × Int) α} (h : Neutral c) : Passes fds c := by
  intro w
  refine wp_mono (h w) (fun _ t ht => ?_) fun _ _ h => h.elim
  simpa using ht.frame fds

theorem Passes.stop {r : Int × Int} (h : held r.2 = fds) :
    Passes fds (Effect.stop r : Effect World (Int × Int) α) := by
  intro w
  subst h
  exact Moves.refl _ w

theorem Passes.when {p : Prop} [Decidable p] {c : Effect World (Int × Int) Unit}
    (h : Passes fds c) : Passes fds (Effect.when p c) :=
  fun w => wp_when.mpr ⟨fun _ => h w, fun _ => Moves.refl _ w⟩

theorem Passes.bind {β : Type} {c : Effect World (Int × Int) α}
    {f : α → Effect World (Int × Int) β} (first : Passes fds c) (second : ∀ a, Passes fds (f a)) :
    Passes fds (c >>= f) := by
  intro w
  refine wp_bind.mpr (wp_mono (first w) (fun a u hu => ?_) fun _ _ h => h)
  exact wp_mono (second a u) (fun _ t ht => hu.trans ht) fun _ t ht => hu.trans ht

theorem Ends.pure {r : Int × Int} (h : held r.2 = fds) :
    Ends fds (Pure.pure r : Effect World (Int × Int) (Int × Int)) := by
  intro w
  subst h
  exact Moves.refl _ w

theorem Passes.ends {c : Effect World (Int × Int) α} {f : α → Effect World (Int × Int) (Int × Int)}
    (first : Passes fds c) (second : ∀ a, Ends fds (f a)) : Ends fds (c >>= f) := by
  intro w
  refine wp_bind.mpr (wp_mono (first w) (fun a u hu => ?_) fun _ _ h => h)
  exact wp_mono (second a u) (fun _ t ht => hu.trans ht) fun _ t ht => hu.trans ht

/-- The rest of a function that opens a descriptor ends with it. -/
theorem Ends.opened {c : Effect World (Int × Int) Int}
    {f : Int → Effect World (Int × Int) (Int × Int)}
    (first : ∀ w, wp c (fun fd t => Moves [] (held fd) w t) (fun _ _ => False) w)
    (second : ∀ fd, Ends (held fd) (f fd)) : Ends [] (c >>= f) := by
  intro w
  refine wp_bind.mpr (wp_mono (first w) (fun fd u hu => ?_) fun _ _ h => h.elim)
  exact wp_mono (second fd u) (fun _ t ht => hu.trans ht) fun _ t ht => hu.trans ht

/-- The exit closes what is left. -/
theorem Ends.neutral {c : Effect World (Int × Int) (Int × Int)} (h : Ends [] c) :
    Neutral (merge c >>= closeAndReturn : Effect World ε Int) := by
  intro w
  have hclose (r : Int × Int) (u : World) (hu : Moves [] (held r.2) w u) :
      wp (closeAndReturn r : Effect World ε Int) (fun _ t => Moves [] [] w t)
        (fun _ _ => False) u :=
    wp_mono (closeAndReturn_moves r u) (fun _ t ht => hu.trans ht) fun _ _ h => h
  have hend := h w
  rcases hrun : c w with ⟨r | r, u⟩
  · rw [wp_of_error hrun] at hend
    rw [wp_bind, wp_of_ok (merge_error hrun)]
    exact hclose r u hend
  · rw [wp_of_ok hrun] at hend
    rw [wp_bind, wp_of_ok (merge_ok hrun)]
    exact hclose r u hend

end Exits

section Power

variable {ε : Type}

theorem initRfkillLoop_neutral (fuel id : Nat) :
    Neutral (initRfkillLoop fuel id : Effect World ε Int) := by
  induction fuel generalizing id with
  | zero => exact .pure _
  | succ fuel ih =>
      intro w
      rw [initRfkillLoop]
      refine wp_bind.mpr (wp_mono (openFile_moves _ _ w) (fun fd u hu => ?_) fun _ _ h => h)
      split
      · rename_i hneg
        rw [held_of_neg hneg] at hu
        exact hu
      · rename_i hopen
        refine wp_bind.mpr (wp_mono (readFile_neutral _ _ u) (fun r v hv => ?_) fun _ _ h => h)
        refine wp_bind.mpr (wp_mono (closeFile_moves (Int.not_lt.mp hopen) v) (fun _ x hx => ?_)
          fun _ _ h => h)
        have hclosed : Moves [] [] w x :=
          hu.trans (Moves.trans (by simpa using hv.frame (held fd)) hx)
        split
        · exact hclosed.trans (Moves.refl [] x)
        · exact wp_mono (ih (id + 1) x) (fun _ t ht => hclosed.trans ht) fun _ _ h => h

theorem initRfkill_neutral : Neutral (initRfkill : Effect World ε Int) :=
  .bind (.gets _) fun _ => initRfkillLoop_neutral _ _

theorem ensureRfkill_passes : Passes [] ensureRfkill := by
  refine .bind (Neutral.passes (.gets _)) fun id => .when (.bind initRfkill_neutral.passes ?_)
  exact fun failed => .when (.stop rfl)

theorem setBluetoothPower_neutral (on : Bool) :
    Neutral (setBluetoothPower on : Effect World ε Int) := by
  apply Ends.neutral
  refine ensureRfkill_passes.ends fun _ => (Neutral.passes (.gets _)).ends fun path => ?_
  apply Ends.opened (openFile_moves path .write)
  intro fd
  refine (Passes.when (.stop rfl)).ends fun _ => (writeFile_neutral _ _).passes.ends fun sz => ?_
  exact (Passes.when (.stop rfl)).ends fun _ => .pure rfl

theorem checkBluetoothPower_neutral : Neutral (checkBluetoothPower : Effect World ε Int) := by
  apply Ends.neutral
  refine ensureRfkill_passes.ends fun _ => (Neutral.passes (.gets _)).ends fun path => ?_
  apply Ends.opened (openFile_moves path .read)
  intro fd
  refine (Passes.when (.stop rfl)).ends fun _ => (readFile_neutral _ _).passes.ends fun r => ?_
  exact (Passes.when (.stop rfl)).ends fun _ => .pure rfl

end Power

/-! ### The interface -/

theorem btDisable_neutral (b : Build) : Neutral (btDisable b) := by
  apply Ends.neutral
  refine (propertySet_neutral _).passes.ends fun stopped => (Passes.when (.stop rfl)).ends ?_
  refine fun _ => (usleep_neutral _).passes.ends fun _ => ?_
  apply Ends.opened createHciSock_moves
  intro hciSock
  refine (Passes.when (.stop rfl)).ends fun _ => devDown_neutral.passes.ends fun _ => ?_
  refine (propertySet_neutral _).passes.ends fun stopped => (Passes.when (.stop rfl)).ends ?_
  refine fun _ => Passes.ends (.when ?_) fun _ => .pure rfl
  exact .bind (setBluetoothPower_neutral false).passes fun result => .when (.stop rfl)

theorem btIsEnabled_neutral (b : Build) : Neutral (btIsEnabled b) := by
  apply Ends.neutral
  refine Passes.ends (.when ?_) fun _ => ?_
  · exact .bind checkBluetoothPower_neutral.passes fun ret => .when (.stop rfl)
  · apply Ends.opened createHciSock_moves
    intro hciSock
    refine (Passes.when (.stop rfl)).ends fun _ => getDevInfo_neutral.passes.ends fun r => ?_
    exact (Passes.when (.stop rfl)).ends fun _ => .pure rfl

/-! ### Up to the loop -/

section Prepare

variable {ε α : Type}

/-- From `w` to `t` no other than the given calls were made. -/
structure Makes (calls : Call → Prop) (w t : World) : Prop where
  uses : Uses calls w t
  io : ∃ new, t.io = w.io ++ new ∧ ∀ call result, .made call result ∈ new → calls call

namespace Makes

variable {calls : Call → Prop} {w t : World}

theorem refl (w : World) : Makes calls w w := ⟨.refl w, [], by simp⟩

theorem trans (w u t : World) (h₁ : Makes calls w u) (h₂ : Makes calls u t) : Makes calls w t := by
  obtain ⟨new₁, hu, hnew₁⟩ := h₁.io
  obtain ⟨new₂, ht, hnew₂⟩ := h₂.io
  refine ⟨h₁.uses.trans _ _ _ h₂.uses, new₁ ++ new₂, by rw [ht, hu, List.append_assoc], ?_⟩
  intro call result hmem
  exact (List.mem_append.mp hmem).elim (hnew₁ call result) (hnew₂ call result)

theorem mono {calls' : Call → Prop} (h : Makes calls w t) (hsub : ∀ c, calls c → calls' c) :
    Makes calls' w t := by
  obtain ⟨new, ht, hnew⟩ := h.io
  exact ⟨h.uses.mono hsub, new, ht, fun call result hmem => hsub _ (hnew call result hmem)⟩

theorem of_quiet (answers : t.answers = w.answers) (io : t.io = w.io) : Makes calls w t :=
  ⟨.of_answers answers, [], by simp [io]⟩

end Makes

theorem make_makes {calls : Call → Prop} {call : Call} (hcall : calls call)
    (perform : World → Option Errno → Int × Device) :
    Keeps (Makes calls) (make call perform : Effect World ε Int) := by
  refine fun w => ⟨.of_next call hcall rfl, [.made call (perform w (w.answers call 0)).1], rfl, ?_⟩
  intro other result hmem
  obtain ⟨rfl, _⟩ : other = call ∧ _ := by simpa using hmem
  exact hcall

theorem propertySet_makes (p : Property) {calls : Call → Prop} (h : calls (.propertySet p)) :
    Keeps (Makes calls) (propertySet p : Effect World ε Int) :=
  make_makes h _

theorem descriptor_makes {calls : Call → Prop} {call : Call} (hcall : calls call)
    (succeeds : World → Bool) :
    Keeps (Makes calls) (descriptor call succeeds : Effect World ε Int) := by
  refine .bind Makes.trans (make_makes hcall _) fun fd => ?_
  refine .bind Makes.trans (.when Makes.refl ?_) fun _ => .pure Makes.refl _
  exact Keeps.modify fun w => .of_quiet rfl rfl

theorem openFile_makes (path : Option Path) (mode : Mode) :
    Keeps (Makes Call.OnFile) (openFile path mode : Effect World ε Int) := by
  cases path with
  | none => exact .pure Makes.refl _
  | some path => exact descriptor_makes trivial _

theorem closeFile_makes (calls : Call → Prop) (fd : Int) :
    Keeps (Makes calls) (closeFile fd : Effect World ε Unit) :=
  Keeps.modify fun w => ⟨.of_answers rfl, [.close fd], rfl, by simp⟩

theorem initRfkillLoop_makes (fuel id : Nat) :
    Keeps (Makes Call.OnFile) (initRfkillLoop fuel id : Effect World ε Int) := by
  induction fuel generalizing id with
  | zero => exact .pure Makes.refl _
  | succ fuel ih =>
      refine .bind Makes.trans (openFile_makes _ _) fun fd => ?_
      split
      · exact .pure Makes.refl _
      · refine .bind Makes.trans (.bind Makes.trans (.gets Makes.refl _) fun _ => ?_) fun r => ?_
        · exact .bind Makes.trans (make_makes trivial _) fun _ => .pure Makes.refl _
        · refine .bind Makes.trans (closeFile_makes _ fd) fun _ => ?_
          split
          · refine .bind Makes.trans (Keeps.modify fun w => .of_quiet rfl rfl) fun _ => ?_
            exact .pure Makes.refl _
          · exact ih (id + 1)

theorem setBluetoothPower_makes (on : Bool) :
    Keeps (Makes Call.OnFile) (setBluetoothPower on : Effect World ε Int) := by
  refine .bind Makes.trans (.merge ?_) fun r => ?_
  · refine .bind Makes.trans (.bind Makes.trans (.gets Makes.refl _) fun id => ?_) fun _ => ?_
    · refine .when Makes.refl (.bind Makes.trans ?_ fun _ => .when Makes.refl (.stop Makes.refl _))
      exact .bind Makes.trans (.gets Makes.refl _) fun _ => initRfkillLoop_makes _ _
    · refine .bind Makes.trans (.gets Makes.refl _) fun path => ?_
      refine .bind Makes.trans (openFile_makes path .write) fun fd => ?_
      refine .bind Makes.trans (.when Makes.refl (.stop Makes.refl _)) fun _ => ?_
      refine .bind Makes.trans (make_makes trivial _) fun sz => ?_
      exact .bind Makes.trans (.when Makes.refl (.stop Makes.refl _)) fun _ => .pure Makes.refl _
  · refine .bind Makes.trans (.when Makes.refl ?_) fun _ => .pure Makes.refl _
    exact closeFile_makes _ _

/-- `c` returns a value with `Q`, or leaves for the exit with -1. -/
def Exits (Q : α → Prop) (c : Effect World (Int × Int) α) : Prop :=
  ∀ w, wp c (fun a _ => Q a) (fun r _ => r.1 = -1) w

namespace Exits

variable {β : Type} {P : α → Prop} {Q : β → Prop} {c : Effect World (Int × Int) α}

/-- A call that returns takes no exit. -/
theorem of_returns {R : α → World → World → Prop}
    (h : ∀ w, wp c (fun a t => R a w t) (fun _ _ => False) w) : Exits (fun _ => True) c :=
  fun w => wp_mono (h w) (fun _ _ _ => trivial) fun _ _ h => h.elim

theorem bind {f : α → Effect World (Int × Int) β} (first : Exits P c)
    (second : ∀ a, Exits Q (f a)) : Exits Q (c >>= f) :=
  fun w => wp_bind.mpr (wp_mono (first w) (fun a u _ => second a u) fun _ _ h => h)

theorem when {p : Prop} [Decidable p] {c : Effect World (Int × Int) Unit}
    (h : Exits (fun _ => True) c) : Exits (fun _ => True) (Effect.when p c) :=
  fun w => wp_when.mpr ⟨fun _ => h w, fun _ => trivial⟩

theorem stop (fd : Int) :
    Exits (fun _ => True) (Effect.stop (-1, fd) : Effect World (Int × Int) α) := fun _ => rfl

end Exits

/-- What the exit looks at is what is returned. -/
theorem exit_result {P : Int → Prop} {c : Effect World (Int × Int) (Int × Int)} {w : World}
    (h : wp c (fun r _ => P r.1) (fun r _ => P r.1) w) :
    wp (merge c >>= closeAndReturn : Effect World ε Int) (fun r _ => P r) (fun _ _ => False) w := by
  have hclose (r : Int × Int) (u : World) (hr : P r.1) :
      wp (closeAndReturn r : Effect World ε Int) (fun r _ => P r) (fun _ _ => False) u := by
    rw [closeAndReturn, wp_bind, wp_when]
    exact ⟨fun _ => hr, fun _ => hr⟩
  rcases hrun : c w with ⟨r | r, u⟩
  · rw [wp_of_error hrun] at h
    rw [wp_bind, wp_of_ok (merge_error hrun)]
    exact hclose r u h
  · rw [wp_of_ok hrun] at h
    rw [wp_bind, wp_of_ok (merge_ok hrun)]
    exact hclose r u h

/-- The power is on, or -1 is returned. -/
theorem setBluetoothPower_result (on : Bool) (w : World) :
    wp (setBluetoothPower on : Effect World ε Int) (fun r _ => r = 0 ∨ r = -1)
      (fun _ _ => False) w := by
  have hinit : Exits (fun _ => True) (initRfkill : Effect World (Int × Int) Int) :=
    .of_returns initRfkill_neutral
  have hensure : Exits (fun _ => True) ensureRfkill :=
    .bind (.of_returns (Neutral.gets _)) fun _ => .when (.bind hinit fun _ => .when (.stop _))
  apply exit_result
  refine wp_mono (Q := fun r _ => r.1 = 0) (E := fun r _ => r.1 = -1) ?_
    (fun _ _ => Or.inl) fun _ _ => Or.inr
  refine Exits.bind hensure (fun _ => .bind (.of_returns (Neutral.gets _)) fun path => ?_) w
  refine .bind (.of_returns (openFile_moves path .write)) fun fd => .bind (.when (.stop _)) ?_
  refine fun _ => .bind (.of_returns (writeFile_neutral _ _)) fun sz => .bind (.when (.stop _)) ?_
  exact fun _ _ => rfl

/-- A call that returns. -/
theorem Neutral.returns {c : Effect World ε α} (h : Neutral c) (w : World) :
    wp c (fun _ _ => True) (fun _ _ => False) w :=
  wp_mono (h w) (fun _ _ _ => trivial) fun _ _ h => h

/-- `bt_enable` up to the loop. -/
def prepare (b : Build) : Effect World (Int × Int) Unit := do
  when b.rfkill do
    let result ← setBluetoothPower true
    when (result < 0) (stop (-1, -1))
  let started ← propertySet (transport b true)
  when (started < 0) do
    powerOff b
    stop (-1, -1)

theorem btEnable_eq (b : Build) :
    btEnable b = merge (prepare b >>= fun _ => bringUp b) >>= closeAndReturn := by
  simp only [btEnable, prepare, bringUp, bind_assoc]

theorem powerOff_neutral (b : Build) : Neutral (powerOff b) :=
  .when (.bind (setBluetoothPower_neutral false) fun _ => .pure _)

theorem prepare_passes (b : Build) : Passes [] (prepare b) := by
  refine .bind (.when (.bind (setBluetoothPower_neutral true).passes ?_)) fun _ => ?_
  · exact fun result => .when (.stop rfl)
  · refine .bind (propertySet_neutral _).passes fun started => .when (.bind ?_ fun _ => .stop rfl)
    exact (powerOff_neutral b).passes

/-- The power is switched on, or the function is left. -/
theorem power_cases (b : Build) (w : World) : ∃ v, Makes Call.OnFile w v ∧
    ((when b.rfkill do
        let result ← setBluetoothPower true
        when (result < 0) (stop (-1, -1)) : Effect World (Int × Int) Unit) w = (.ok (), v) ∧
        PowersOn b w ∨
      (when b.rfkill do
        let result ← setBluetoothPower true
        when (result < 0) (stop (-1, -1)) : Effect World (Int × Int) Unit) w =
          (.error (-1, -1), v) ∧ ¬ PowersOn b w) := by
  by_cases hb : b.rfkill = true
  · have huses := (setBluetoothPower_makes (ε := Int × Int) true).apply w
    have hresult := setBluetoothPower_result (ε := Int × Int) true w
    rcases hrun : (setBluetoothPower true w : Except (Int × Int) Int × World) with ⟨e | r, v⟩
    · rw [wp_of_error hrun] at hresult
      exact hresult.elim
    · rw [hrun] at huses
      rw [wp_of_ok hrun] at hresult
      refine ⟨v, huses, ?_⟩
      rw [when_pos hb, bind_ok hrun]
      obtain rfl | rfl := hresult
      · refine Or.inl ⟨rfl, fun _ => ?_⟩
        rw [hrun]
      · refine Or.inr ⟨rfl, fun hpower => ?_⟩
        have hzero := hpower hb
        rw [hrun] at hzero
        exact absurd (Except.ok.inj hzero) (by decide)
  · refine ⟨w, .refl w, Or.inl ⟨?_, fun h => absurd h hb⟩⟩
    rw [when_neg hb]
    rfl

/-- The loop is reached if the power is on and the transport is started. -/
theorem prepare_cases (b : Build) (w : World) :
    ∃ u, prepare b w = (.ok (), u) ∧ Makes (fun c => ¬ c.OnDevice) w u ∧
        PowersOn b w ∧ TransportStarts b w ∨
      prepare b w = (.error (-1, -1), u) ∧ ¬ (PowersOn b w ∧ TransportStarts b w) := by
  obtain ⟨v, huses, ⟨hpower, hpowers⟩ | ⟨hpower, hfails⟩⟩ := power_cases b w
  · obtain ⟨r, u, hset, hstarts, _, _, hanswers⟩ :=
      propertySet_asks (ε := Int × Int) (transport b true) v
    have hsame : v.answers (.propertySet (transport b true)) =
        w.answers (.propertySet (transport b true)) := huses.uses.other id
    rw [hsame] at hstarts
    obtain ⟨hr, htransport, _⟩ | ⟨hr, htransport, _⟩ := hstarts
    · refine ⟨u, Or.inl ⟨?_, ?_, hpowers, htransport⟩⟩
      · rw [prepare, bind_ok hpower, bind_ok hset, when_neg (by omega)]
        rfl
      · have hother : ¬ (Call.propertySet (transport b true)).OnDevice := by
          rintro (hc | hc) <;> cases hc
        have hmakes : Makes (fun c => ¬ c.OnDevice) v
            (propertySet (transport b true) v : Except (Int × Int) Int × World).2 :=
          (propertySet_makes _ hother).apply v
        rw [hset] at hmakes
        refine (huses.mono ?_).trans _ _ _ hmakes
        rintro c hc (rfl | rfl) <;> exact hc
    · have hoff := (powerOff_neutral b).returns u
      rcases hrun : powerOff b u with ⟨e | ⟨⟩, x⟩
      · rw [wp_of_error hrun] at hoff
        exact hoff.elim
      · refine ⟨x, Or.inr ⟨?_, fun h => htransport h.2⟩⟩
        rw [prepare, bind_ok hpower, bind_ok hset, when_pos hr, bind_ok hrun]
        rfl
  · refine ⟨v, Or.inr ⟨?_, fun h => hfails h.1⟩⟩
    rw [prepare, bind_error hpower]

end Prepare

/-! ### The loop -/

/-- The loop ends with the socket of the last attempt open, unless it was the last of all. -/
theorem devUpLoop_moves (n : Nat) {hciSock : Int} (ret : Int) (hsock : n = 0 → 0 ≤ hciSock)
    (w : World) :
    wp (devUpLoop n hciSock ret)
      (fun a t => (a.attempt = 0 → Moves [] [] w t ∧ 0 ≤ a.hciSock) ∧
        (a.attempt ≠ 0 → Moves [] (held a.hciSock) w t))
      (fun r t => Moves [] (held r.2) w t) w := by
  induction n generalizing hciSock ret w with
  | zero => exact ⟨fun _ => ⟨Moves.refl [] w, hsock rfl⟩, fun h => absurd rfl h⟩
  | succ n ih =>
      rw [devUpLoop]
      refine wp_bind.mpr (wp_mono (createHciSock_moves w) (fun fd u hu => ?_) fun _ _ h => h.elim)
      refine wp_bind.mpr (wp_when.mpr ⟨fun _ => hu, fun hopen => ?_⟩)
      refine wp_bind.mpr (wp_mono (devUp_neutral u) (fun r v hv => ?_) fun _ _ h => h.elim)
      have hheld : Moves [] (held fd) w v := hu.trans (by simpa using hv.frame (held fd))
      obtain ⟨ret, errno⟩ := r
      by_cases hup : ret = 0 ∨ errno = EALREADY
      · simp only [if_pos hup]
        exact ⟨fun h => absurd h (Nat.succ_ne_zero n), fun _ => hheld⟩
      · -- the socket is closed before the next attempt
        simp only [if_neg hup]
        refine wp_bind.mpr (wp_mono (closeFile_moves (Int.not_lt.mp hopen) v) (fun _ x hx => ?_)
          fun _ _ h => h.elim)
        refine wp_bind.mpr (wp_mono (usleep_neutral _ x) (fun _ y hy => ?_) fun _ _ h => h.elim)
        have hclosed : Moves [] [] w y := hheld.trans (hx.trans hy)
        refine wp_mono (ih ret (fun _ => Int.not_lt.mp hopen) y) (fun a t ht => ?_)
          fun _ t ht => hclosed.trans ht
        exact ⟨fun ha => ⟨hclosed.trans (ht.1 ha).1, (ht.1 ha).2⟩,
          fun ha => hclosed.trans (ht.2 ha)⟩

/-- `bt_enable` behind the loop. -/
def settle (b : Build) (loop : Attempts) : Effect World (Int × Int) (Int × Int) := do
  when (loop.attempt = 0) do
    let _ ← propertySet (.stop .hciattach)
    powerOff b
    stop (loop.ret, loop.hciSock)
  let started ← propertySet (.start .bluetoothd)
  when (started < 0) do
    powerOff b
    stop (loop.ret, loop.hciSock)
  return (0, loop.hciSock)

theorem settle_ends (b : Build) (loop : Attempts) : Ends (held loop.hciSock) (settle b loop) := by
  have hundo : Passes (held loop.hciSock) (do
      powerOff b
      stop (loop.ret, loop.hciSock) : Effect World (Int × Int) Unit) :=
    .bind (powerOff_neutral b).passes fun _ => .stop rfl
  refine Passes.ends (.when (.bind (propertySet_neutral _).passes fun _ => hundo)) fun _ => ?_
  exact (propertySet_neutral _).passes.ends fun _ => (Passes.when hundo).ends fun _ => .pure rfl

/-- After the last attempt the exit is reached with the socket of that attempt. -/
theorem settle_timeout (b : Build) {loop : Attempts} (h : loop.attempt = 0) (w : World) :
    wp (settle b loop) (fun _ _ => False)
      (fun r t => r = (loop.ret, loop.hciSock) ∧ Moves [] [] w t) w := by
  rw [settle, when_pos h, bind_assoc]
  refine wp_bind.mpr (wp_mono (propertySet_neutral _ w) (fun _ u hu => ?_) fun _ _ h => h.elim)
  rw [bind_assoc]
  refine wp_bind.mpr (wp_mono (powerOff_neutral b u) (fun _ t ht => ?_) fun _ _ h => h.elim)
  exact ⟨rfl, hu.trans ht⟩

/-- To close what is not open is a violation. -/
theorem not_closedOnce {fd : Int} {w u t : World} (h : Moves [] [] w u)
    (hclose : t.io = u.io ++ [.close fd]) : ¬ ClosedOnce w t := by
  rintro ⟨added, hio, hrun⟩
  obtain ⟨before, hu, hbefore⟩ := h
  rw [hclose, hu, List.append_assoc] at hio
  have hnone : Monitor.run watch (some []) before = some [] := hbefore []
  rw [← List.append_cancel_left hio, Monitor.run_append, hnone] at hrun
  cases hrun

/-- The exit closes the descriptor that is left. -/
theorem exit_closedOnce {c : Effect World (Int × Int) (Int × Int)} {w u : World}
    (h : wp c (fun r t => Moves [] (held r.2) w t) (fun r t => Moves [] (held r.2) w t) u) :
    ClosedOnce w ((merge c >>= closeAndReturn : Effect World Empty Int) u).2 := by
  have hclose (r : Int × Int) (t : World) (ht : Moves [] (held r.2) w t) :
      ClosedOnce w (closeAndReturn r t : Except Empty Int × World).2 := by
    apply wp_end
    exact wp_mono (closeAndReturn_moves r t) (fun _ _ hx => (ht.trans hx).closedOnce)
      fun _ _ h => h.elim
  rcases hrun : c u with ⟨r | r, t⟩
  · rw [wp_of_error hrun] at h
    rw [bind_ok (merge_error hrun)]
    exact hclose r t h
  · rw [wp_of_ok hrun] at h
    rw [bind_ok (merge_ok hrun)]
    exact hclose r t h

/-- From the loop on, everything is closed once unless all attempts fail. -/
theorem bringUp_closedOnce (b : Build) {w u : World} (h : Moves [] [] w u) :
    ClosedOnce w ((merge (bringUp b) >>= closeAndReturn : Effect World Empty Int) u).2 ↔
      ¬ TimesOut u := by
  have hnone : 100 = 0 → 0 ≤ (-1 : Int) := fun h => absurd h (by decide)
  have hmoves := devUpLoop_moves 100 (-1) hnone u
  have hbringUp : bringUp b = devUpLoop 100 (-1) (-1) >>= settle b := rfl
  have hlooped := devUpLoop_looped 100 (-1) u
  cases hlooped with
  | noSocket k fd t hk run sockets before now asked =>
      rw [wp_of_error run] at hmoves
      refine iff_of_true (exit_closedOnce ?_) fun htimeout => now (htimeout.1 k hk)
      rw [hbringUp, wp_of_error (bind_error run)]
      exact h.trans hmoves
  | up k a t hk run attempt sockets before now ret zero device statics uses =>
      rw [wp_of_ok run] at hmoves
      refine iff_of_true (exit_closedOnce ?_) fun htimeout => now (htimeout.2 k hk)
      rw [hbringUp, wp_bind, wp_of_ok run]
      have hheld : Moves [] (held a.hciSock) w t := h.trans (hmoves.2 (by omega))
      exact wp_mono (settle_ends b a t) (fun _ _ hx => hheld.trans hx)
        fun _ _ hx => hheld.trans hx
  | timeout a t run attempt sockets before ret asked =>
      rw [wp_of_ok run] at hmoves
      refine iff_of_false ?_ (not_not_intro ⟨sockets, before⟩)
      obtain ⟨hclosed, hopen⟩ := hmoves.1 attempt
      have hsettle := settle_timeout b attempt t
      rcases hrun : settle b a t with ⟨r | r, x⟩
      · rw [wp_of_error hrun] at hsettle
        have hend : bringUp b u = (.error r, x) := by rw [hbringUp, bind_ok run, hrun]
        rw [bind_ok (merge_error hend), closeAndReturn, hsettle.1, when_pos hopen]
        exact not_closedOnce ((h.trans hclosed).trans hsettle.2) rfl
      · rw [wp_of_ok hrun] at hsettle
        exact hsettle.elim

/-- `bt_enable` closes everything once, unless the power is on, the transport is started, and
all attempts to bring the device up get a socket and fail. -/
theorem btEnable_closedOnce (b : Build) (w : World) :
    ClosedOnce w (btEnable b w).2 ↔
      ¬ (PowersOn b w ∧ TransportStarts b w ∧ TimesOut w) := by
  have hmoves := prepare_passes b w
  rw [btEnable_eq]
  obtain ⟨u, ⟨hrun, huses, hpower, htransport⟩ | ⟨hrun, hfails⟩⟩ := prepare_cases b w
  · rw [wp_of_ok hrun] at hmoves
    have hsame : TimesOut w ↔ TimesOut u := by
      rw [TimesOut, TimesOut, huses.uses.other (c := .socket) fun h => h (Or.inl rfl),
        huses.uses.other (c := .ioctl .devUp) fun h => h (Or.inr rfl)]
    have hstart : (merge (prepare b >>= fun _ => bringUp b) >>= closeAndReturn :
        Effect World Empty Int) w = (merge (bringUp b) >>= closeAndReturn) u :=
      bind_congr (merge_congr (bind_ok hrun))
    rw [hstart, bringUp_closedOnce b hmoves, ← hsame]
    exact ⟨fun hno h => hno h.2.2, fun hno h => hno ⟨hpower, htransport, h⟩⟩
  · rw [wp_of_error hrun] at hmoves
    refine iff_of_true (exit_closedOnce ?_) fun h => hfails ⟨h.1, h.2.1⟩
    rw [wp_of_error (bind_error hrun)]
    exact hmoves

/-- The one exception is `bt_enable` when all attempts fail. -/
theorem interface_closedOnce (b : Build) (w : World) :
    (ClosedOnce w (btEnable b w).2 ↔ ¬ (PowersOn b w ∧ TransportStarts b w ∧ TimesOut w)) ∧
      ClosedOnce w (btDisable b w).2 ∧ ClosedOnce w (btIsEnabled b w).2 := by
  have hclosed {c : Effect World Empty Int} (h : Neutral c) : ClosedOnce w (c w).2 :=
    wp_end (wp_mono (h w) (fun _ _ ht => ht.closedOnce) fun _ _ h => h.elim)
  exact ⟨btEnable_closedOnce b w, hclosed (btDisable_neutral b), hclosed (btIsEnabled_neutral b)⟩

/-- Everything succeeds except for `HCIDEVUP`, which always fails. -/
def staysDown : World where
  device := ⟨[], false, false, false, false⟩
  rfkillId := -1
  rfkillStatePath := none
  answers := fun call _ => if call = .ioctl .devUp then some 5 else none
  descriptors := fun n => n + 3
  io := []

/-- The descriptor of the last socket is closed twice. -/
theorem btEnable_staysDown : ¬ ClosedOnce staysDown (btEnable ⟨false, false⟩ staysDown).2 := by
  rw [btEnable_closedOnce, not_not]
  refine ⟨fun h => absurd h (by decide), rfl, fun _ _ => rfl, fun _ _ => ⟨5, rfl, by decide⟩⟩

end Bluedroid
