import Mathlib.Data.List.Induction
import SystemBluetooth.Library.Monitor
import SystemBluetooth.Patchram.Status

/-!
# When an alarm is pending

The handler runs only while an alarm is pending, and arms it again. `proc_reset` arms it right
behind its command and cancels it after the event. `Steady` is what every other part of the
program keeps: the alarm stays as it is, and the handler runs only if it was pending at the
start, once for each signal that is used up.
-/

namespace Patchram

open Effect Monitor

/-! ### The alarm as the calls show it -/

def Io.rearm (pending : Bool) : Io → Bool
  | .alarm seconds => seconds != 0
  | _ => pending

/-- The last call of `alarm` has set one. It may have expired since: then the handler is about
to set it again. -/
def armed (io : List Io) : Bool := Monitor.run Io.rearm false io

/-- A command of the handler, which shows that the alarm has expired. -/
def Io.isExpiry : Io → Bool
  | .write .handler _ _ => true
  | _ => false

def Io.isReset : Io → Bool
  | .write _ frame _ => frame == hciReset
  | _ => false

/-- A call of the main flow that leaves the alarm alone. -/
def Io.Plain : Io → Prop
  | .write .handler _ _ => False
  | .alarm _ => False
  | _ => True

/-- A plain call that does not read the file. -/
def Io.Fileless : Io → Prop
  | .readFile .. => False
  | e => e.Plain

/-- A call of `read_event`. -/
def Io.Heard : Io → Prop
  | .readUart .. => True
  | .event _ => True
  | _ => False

theorem Io.Heard.listens {e : Io} (h : e.Heard) : e.Listens := by
  cases e <;> first | exact h.elim | trivial

def Io.SetsSpeed : Io → Prop
  | .tcsetattr _ => True
  | _ => False

theorem Io.SetsSpeed.fileless {e : Io} (h : e.SetsSpeed) : e.Fileless := by
  cases e <;> first | exact h.elim | trivial

theorem Io.Heard.fileless {e : Io} (h : e.Heard) : e.Fileless := by
  cases e <;> first | exact h.elim | trivial

theorem Io.Fileless.plain {e : Io} (h : e.Fileless) : e.Plain := by
  cases e <;> first | exact h.elim | exact h

def Io.ReadsFile : Io → Prop
  | .readFile .. => True
  | _ => False

theorem Io.Fileless.not_reads {e : Io} (h : e.Fileless) : ¬ e.ReadsFile := by
  cases e <;> first | exact h.elim | exact id

theorem Io.Plain.not_expiry {e : Io} (h : e.Plain) : e.isExpiry = false := by
  cases e with
  | write caller frame count =>
      cases caller with
      | main => rfl
      | handler => exact h.elim
  | _ => rfl

theorem armed_append (a b : List Io) : armed (a ++ b) = Monitor.run Io.rearm (armed a) b :=
  run_append a b

/-- Plain calls leave the alarm as it is. -/
theorem armed_plain {io new : List Io} (h : ∀ e ∈ new, e.Plain) :
    armed (io ++ new) = armed io := by
  rw [armed_append]
  generalize armed io = pending
  induction new with
  | nil => rfl
  | cons e new ih =>
      rw [List.forall_mem_cons] at h
      have he : Io.rearm pending e = pending := by
        cases e <;> first | rfl | exact h.1.elim
      rw [run_cons, he]
      exact ih h.2

/-- `read_event` and the handler leave an alarm pending. -/
theorem armed_listens {io new : List Io} (hio : armed io = true) (h : ∀ e ∈ new, e.Listens) :
    armed (io ++ new) = true := by
  rw [armed_append, hio]
  induction new with
  | nil => rfl
  | cons e new ih =>
      rw [List.forall_mem_cons] at h
      have he : Io.rearm true e = true := by
        cases e with
        | alarm seconds =>
            obtain rfl : seconds = 4 := h.1
            rfl
        | _ => rfl
      rw [run_cons, he]
      exact ih h.2

/-! ### What leaves the alarm alone -/

/-- `t` is `w` after calls of the main flow that are as `A` says. The handler runs in between
only if the alarm is pending, once for each signal that makes it expire. -/
structure Steady (A : Io → Prop) (w t : World) : Prop where
  pending : t.pending = w.pending
  calls : ∃ new consumed, t.io = w.io ++ new ∧ w.signals = consumed ++ t.signals ∧
    new.countP Io.isExpiry = consumed.count true ∧
    ∀ e ∈ new, A e ∨ w.pending = true ∧ e.ByHandler

namespace Steady

variable {A B : Io → Prop}

theorem refl (w : World) : Steady A w w := ⟨rfl, [], [], by simp⟩

theorem trans (w u t : World) (h₁ : Steady A w u) (h₂ : Steady A u t) : Steady A w t := by
  obtain ⟨new₁, consumed₁, hio₁, hsig₁, hcount₁, hall₁⟩ := h₁.calls
  obtain ⟨new₂, consumed₂, hio₂, hsig₂, hcount₂, hall₂⟩ := h₂.calls
  refine ⟨h₂.pending.trans h₁.pending, new₁ ++ new₂, consumed₁ ++ consumed₂, ?_, ?_, ?_, ?_⟩
  · rw [hio₂, hio₁, List.append_assoc]
  · rw [hsig₁, hsig₂, List.append_assoc]
  · rw [List.countP_append, List.count_append, hcount₁, hcount₂]
  · rw [h₁.pending] at hall₂
    exact List.forall_mem_append.mpr ⟨hall₁, hall₂⟩

theorem mono {w t : World} (h : Steady A w t) (hAB : ∀ e, A e → B e) : Steady B w t := by
  obtain ⟨new, consumed, hio, hsig, hcount, hall⟩ := h.calls
  exact ⟨h.pending, new, consumed, hio, hsig, hcount, fun e he => (hall e he).imp (hAB e) id⟩

theorem keeps_mono {α : Type} {c : Host α} (h : Keeps (Steady A) c) (hAB : ∀ e, A e → B e) :
    Keeps (Steady B) c :=
  fun w => wp_mono (h w) (fun _ _ ht => ht.mono hAB) fun _ _ ht => ht.mono hAB

/-- One call of the main flow. -/
theorem one {w t : World} {e : Io} (hio : t.io = w.io ++ [e]) (hpending : t.pending = w.pending)
    (hsignals : t.signals = w.signals) (hA : A e) (hplain : e.Plain) : Steady A w t :=
  ⟨hpending, [e], [], hio, by simp [hsignals], by simp [hplain.not_expiry], by simp [hA]⟩

/-- No call. -/
theorem none {w t : World} (hpending : t.pending = w.pending) (hsignals : t.signals = w.signals)
    (hio : t.io = w.io) : Steady A w t :=
  ⟨hpending, [], [], by simp [hio], by simp [hsignals], rfl, by simp⟩

end Steady

section Steps

variable {A : Io → Prop}

theorem runHandler_steady {signals : List Bool} {w : World} (hpending : w.pending = true) :
    Steady A { w with signals := signals } (runHandler signals w) := by
  induction signals generalizing w with
  | nil => exact .none rfl rfl rfl
  | cons expires later ih =>
      cases expires with
      | false => exact ⟨rfl, [], [false], by simp [runHandler], rfl, by simp, by simp⟩
      | true =>
          have hone : Steady A { w with signals := true :: later }
              { (expired w).2 with signals := later } :=
            ⟨hpending.symm, _, [true], List.append_assoc _ _ _, rfl, rfl,
              by simp [Io.ByHandler, hpending]⟩
          exact hone.trans _ _ _ (ih (w := (expired w).2) rfl)

theorem deliver_steady : Keeps (Steady A) deliver := by
  refine Keeps.modify fun w => ?_
  split
  · rename_i hpending
    exact runHandler_steady hpending
  · exact .refl w

theorem sys_steady {α : Type} {call : Host α} (h : Keeps (Steady A) call) :
    Keeps (Steady A) (sys call) :=
  .bind Steady.trans deliver_steady fun _ => h

theorem record_steady {e : Io} (hA : A e) (hplain : e.Plain) : Keeps (Steady A) (record e) :=
  Keeps.modify fun _ => .one rfl rfl rfl hA hplain

end Steps

/-! ### One event -/

theorem readUart_steady (i len : Int) : Keeps (Steady Io.Heard) (readUart i len) := by
  refine sys_steady fun w => wp_bind.mpr (wp_get.mpr ?_)
  cases Arrivals.read len.toNat w.uart with
  | none => exact Steady.refl w
  | some answer => exact .one rfl rfl rfl trivial trivial

theorem readLoop_steady (fuel : Nat) (i len : Int) :
    Keeps (Steady Io.Heard) (readLoop fuel i len) := by
  induction fuel generalizing i len with
  | zero => exact Keeps.stop Steady.refl _
  | succ fuel ih =>
      refine Keeps.bind Steady.trans (readUart_steady i len) fun count => ?_
      split
      · exact ih _ _
      · exact Keeps.pure Steady.refl _

theorem readFull_steady (i len : Int) : Keeps (Steady Io.Heard) (readFull i len) :=
  Keeps.bind Steady.trans (Keeps.gets Steady.refl _) fun _ => readLoop_steady _ _ _

theorem readEvent_steady : Keeps (Steady Io.Heard) readEvent := by
  refine Keeps.bind Steady.trans (readFull_steady 0 3) fun _ => ?_
  refine Keeps.bind Steady.trans (Keeps.gets Steady.refl _) fun _ => ?_
  refine Keeps.bind Steady.trans (readFull_steady _ _) fun _ => ?_
  refine Keeps.bind Steady.trans (Keeps.gets Steady.refl _) fun _ => ?_
  exact Keeps.modify fun _ => .one rfl rfl rfl trivial trivial

/-! ### The steps without an alarm -/

theorem setSpeed_steady (speed : Nat) : Keeps (Steady Io.SetsSpeed) (sys (setSpeed speed)) :=
  sys_steady (Keeps.modify fun _ => .one rfl rfl rfl trivial trivial)

theorem initUart_steady : Keeps (Steady Io.SetsSpeed) initUart := by
  refine .bind Steady.trans (Keeps.modify fun w => ?_) fun _ => ?_
  · exact .none rfl rfl rfl
  apply Keeps.bind Steady.trans (.gets Steady.refl _)
  intro old
  apply Keeps.bind Steady.trans (sys_steady (record_steady (e := .tcsetattr old) trivial trivial))
  intro _
  apply Keeps.bind Steady.trans (sys_steady (record_steady (e := .tcsetattr old) trivial trivial))
  intro _
  exact setSpeed_steady _

theorem exchange_steady (frame : List UInt8) : Keeps (Steady Io.Fileless) (exchange frame) :=
  .bind Steady.trans (sys_steady (Keeps.modify fun _ => .one rfl rfl rfl trivial trivial))
    fun _ => Steady.keeps_mono readEvent_steady fun _ => Io.Heard.fileless

theorem procBaudrate_steady : Keeps (Steady Io.Fileless) procBaudrate := by
  apply Keeps.bind Steady.trans (.gets Steady.refl _)
  intro config
  exact .bind Steady.trans (exchange_steady _) fun _ =>
    Steady.keeps_mono (setSpeed_steady _) fun _ => Io.SetsSpeed.fileless

theorem procBdaddr_steady : Keeps (Steady Io.Fileless) procBdaddr :=
  .bind Steady.trans (.gets Steady.refl _) fun _ => exchange_steady _

theorem procEnableLpm_steady : Keeps (Steady Io.Fileless) procEnableLpm := exchange_steady _

theorem procScopcm_steady : Keeps (Steady Io.Fileless) procScopcm := by
  apply Keeps.bind Steady.trans (.gets Steady.refl _)
  intro config
  exact .bind Steady.trans (exchange_steady _) fun _ => exchange_steady _

theorem procI2s_steady : Keeps (Steady Io.Fileless) procI2s :=
  .bind Steady.trans (.gets Steady.refl _) fun _ => exchange_steady _

theorem ioctl_steady (name : String) : Keeps (Steady Io.Fileless) (ioctl name) := by
  refine sys_steady (.bind Steady.trans (.gets Steady.refl _) fun result => ?_)
  refine .bind Steady.trans (Keeps.modify fun _ => ?_) fun _ => .pure Steady.refl _
  exact .one rfl rfl rfl trivial trivial

theorem procEnableHci_steady : Keeps (Steady Io.Fileless) procEnableHci := by
  apply Keeps.bind Steady.trans (ioctl_steady _)
  intro result
  refine .when Steady.refl (.bind Steady.trans (ioctl_steady _) fun _ => .pure Steady.refl _)

theorem readFile_steady (i len : Int) : Keeps (Steady Io.Plain) (readFile i len) := by
  refine sys_steady (.bind Steady.trans (fun w => Steady.refl w) fun w => ?_)
  refine .bind Steady.trans (Keeps.modify fun _ => ?_) fun _ => .pure Steady.refl _
  exact .one rfl rfl rfl trivial trivial

theorem downloadLoop_steady (fuel : Nat) : Keeps (Steady Io.Plain) (downloadLoop fuel) := by
  induction fuel with
  | zero => exact .stop Steady.refl _
  | succ fuel ih =>
      refine .bind Steady.trans (readFile_steady 1 3) fun count => .when Steady.refl ?_
      refine .bind Steady.trans (Keeps.modify fun w => ?_) fun _ => ?_
      · exact .none rfl rfl rfl
      apply Keeps.bind Steady.trans (.gets Steady.refl _)
      intro len
      apply Keeps.bind Steady.trans (readFile_steady _ _)
      intro _
      apply Keeps.bind Steady.trans (.gets Steady.refl _)
      intro frame
      refine .bind Steady.trans (Steady.keeps_mono (exchange_steady frame) ?_) fun _ => ih
      exact fun _ => Io.Fileless.plain

/-! ### Windows -/

/-- The calls end inside `proc_reset`, between its `alarm(4)` and its `alarm(0)`. -/
def InWindow (io : List Io) : Prop :=
  ∃ earlier count inside, io = earlier ++ .write .main hciReset count :: .alarm 4 :: inside ∧
    ∀ e ∈ inside, e.Listens

/-- How a call may follow others. While an alarm is pending, `read_event` and the handler make
calls until the main flow cancels it; else only the call behind a reset command sets one. -/
def Follows (before : List Io) (e : Io) : Prop :=
  if armed before = true then e.Listens ∨ e = .alarm 0
  else e.Plain ∨ e = .alarm 4 ∧ ∃ earlier count, before = earlier ++ [.write .main hciReset count]

/-- No alarm has expired since the download began. -/
def Undisturbed (io : List Io) : Prop :=
  Each (fun before e => e.isExpiry = true →
    ∀ count, .write .main hciDownloadMinidriver count ∉ before) io

/-- The file is only read while the download is undisturbed. -/
def ReadsUndisturbed (io : List Io) : Prop :=
  Each (fun before e => e.ReadsFile → Undisturbed before) io

/-- The download has not begun. -/
def Before (io : List Io) : Prop :=
  ∀ e ∈ io, (∀ count, e ≠ .write .main hciDownloadMinidriver count) ∧ ¬ e.ReadsFile

/-- The download may have begun. -/
def During (io : List Io) : Prop := Undisturbed io ∧ ReadsUndisturbed io

theorem Undisturbed.plain {io new : List Io} (h : Undisturbed io) (hnew : ∀ e ∈ new, e.Plain) :
    Undisturbed (io ++ new) := by
  refine Each.append h (Each.of_forall fun before e he hexpiry => ?_)
  rw [(hnew e he).not_expiry] at hexpiry
  cases hexpiry

theorem During.plain {io new : List Io} (h : During io) (hnew : ∀ e ∈ new, e.Plain) :
    During (io ++ new) := by
  refine ⟨h.1.plain hnew, Each.append h.2 fun before e after hsplit _ => ?_⟩
  exact h.1.plain fun e' he' => hnew e' (by simp [hsplit, he'])

theorem ReadsUndisturbed.append {io new : List Io} (h : ReadsUndisturbed io)
    (hnew : ∀ e ∈ new, ¬ e.ReadsFile) : ReadsUndisturbed (io ++ new) :=
  Each.append h (Each.of_forall fun _ e he hreads => absurd hreads (hnew e he))

theorem Before.append {io new : List Io} (h : Before io)
    (hnew : ∀ e ∈ new, (∀ count, e ≠ .write .main hciDownloadMinidriver count) ∧
      ¬ e.ReadsFile) : Before (io ++ new) :=
  List.forall_mem_append.mpr ⟨h, hnew⟩

theorem Before.during {io : List Io} (h : Before io) : During io := by
  refine ⟨fun before e after hsplit _ count hmem => ?_, ?_⟩
  · exact (h _ (by simp [hsplit, hmem])).1 count rfl
  · exact Each.of_forall fun _ e he hreads => absurd hreads (h e he).2

/-- A pending alarm has been set inside a window that is still open. -/
theorem inWindow_of_armed {io : List Io} (h : Each Follows io) (harmed : armed io = true) :
    InWindow io := by
  induction io using List.reverseRecOn with
  | nil => cases harmed
  | append_singleton io e ih =>
      have he : Follows io e := h io e [] rfl
      rw [armed_append] at harmed
      by_cases hbefore : armed io = true
      · rw [Follows, if_pos hbefore] at he
        rcases he with hlistens | rfl
        · obtain ⟨earlier, count, inside, rfl, hinside⟩ := ih h.front hbefore
          refine ⟨earlier, count, inside ++ [e], by simp, ?_⟩
          exact List.forall_mem_append.mpr ⟨hinside, by simpa using hlistens⟩
        · cases harmed
      · rw [Follows, if_neg hbefore] at he
        rcases he with hplain | ⟨rfl, earlier, count, rfl⟩
        · have hsame : armed (io ++ [e]) = armed io := armed_plain (by simpa using hplain)
          rw [armed_append, harmed] at hsame
          exact absurd hsame.symm hbefore
        · exact ⟨earlier, count, [], by simp, by simp⟩

/-! ### The invariant -/

/-- The alarm is pending as told, and so do the calls say, of which `F` holds. -/
structure Watched (pending : Bool) (F : List Io → Prop) (w : World) : Prop where
  flag : w.pending = pending
  armed : armed w.io = pending
  follows : Each Follows w.io
  trace : F w.io

/-- At any point. -/
def Orderly (w : World) : Prop := ∃ pending, Watched pending ReadsUndisturbed w

namespace Watched

variable {A F G : List Io → Prop} {w t : World}

theorem mono {pending : Bool} (h : Watched pending F w) (hFG : F w.io → G w.io) :
    Watched pending G w :=
  ⟨h.flag, h.armed, h.follows, hFG h.trace⟩

theorem orderly {pending : Bool} (h : Watched pending F w) (hF : F w.io → ReadsUndisturbed w.io) :
    Orderly w :=
  ⟨pending, h.mono hF⟩

/-- Without an alarm pending, the handler does not run. -/
theorem plain {A : Io → Prop} (h : Watched false F w) (hsteady : Steady A w t)
    (hA : ∀ e, A e → e.Plain) (hFG : ∀ new, (∀ e ∈ new, A e) → F w.io → G (w.io ++ new)) :
    Watched false G t := by
  obtain ⟨new, _, hio, _, _, hall⟩ := hsteady.calls
  have hnew : ∀ e ∈ new, A e := fun e he =>
    (hall e he).resolve_right fun hhandler => by simp [h.flag] at hhandler
  have hplain : ∀ e ∈ new, e.Plain := fun e he => hA e (hnew e he)
  refine ⟨hsteady.pending.trans h.flag, ?_, ?_, hio ▸ hFG new hnew h.trace⟩
  · rw [hio, armed_plain hplain, h.armed]
  · rw [hio]
    refine Each.append h.follows fun before e after hsplit => ?_
    have hbefore : Patchram.armed (w.io ++ before) = false := by
      rw [armed_plain fun e he => hplain e (by simp [hsplit, he]), h.armed]
    change Follows (w.io ++ before) e
    rw [Follows, if_neg (by simp [hbefore])]
    exact Or.inl (hplain e (by simp [hsplit]))

/-- With an alarm pending, `read_event` and the handler keep to the window. -/
theorem listens (h : Watched true F w) (hsteady : Steady Io.Heard w t)
    (hF : ∀ new, (∀ e ∈ new, e.Listens) → F w.io → F (w.io ++ new)) : Watched true F t := by
  obtain ⟨new, _, hio, _, _, hall⟩ := hsteady.calls
  have hnew : ∀ e ∈ new, e.Listens := fun e he =>
    (hall e he).elim Io.Heard.listens fun hhandler => hhandler.2.listens
  refine ⟨hsteady.pending.trans h.flag, ?_, ?_, hio ▸ hF new hnew h.trace⟩
  · rw [hio]
    exact armed_listens h.armed hnew
  · rw [hio]
    refine Each.append h.follows fun before e after hsplit => ?_
    have hbefore : Patchram.armed (w.io ++ before) = true :=
      armed_listens h.armed fun e he => hnew e (by simp [hsplit, he])
    change Follows (w.io ++ before) e
    rw [Follows, if_pos hbefore]
    exact Or.inl (hnew e (by simp [hsplit]))

end Watched

theorem sys_unset {α : Type} {call : Host α} {w : World} (hw : w.pending = false) :
    sys call w = call w := by
  have hquiet : deliver w = (.ok (), w) := by simp [deliver, hw]
  rw [sys, bind_ok hquiet]

/-- `proc_reset` up to the window it opens. -/
theorem procReset_opens {w : World} (hw : w.pending = false) :
    ∃ v count, procReset w = (readEvent >>= fun _ => sys (alarm 0)) v ∧ v.pending = true ∧
      v.io = w.io ++ [.write .main hciReset count] ++ [.alarm 4] := by
  let u := (hciSendCmd .main hciReset w).2
  have hwrite : sys (hciSendCmd .main hciReset) w = (.ok (), u) := sys_unset hw
  have halarm : sys (alarm 4) u = (.ok (), (alarm 4 u).2) := sys_unset hw
  refine ⟨(alarm 4 u).2, w.writes.headD hciReset.length, ?_, rfl, rfl⟩
  rw [procReset, bind_ok hwrite, bind_ok halarm]

/-- What the calls of `proc_reset` are. -/
def Io.OfReset : Io → Prop
  | .write .main frame _ => frame = hciReset
  | .alarm _ => True
  | e => e.Listens

theorem Io.Listens.ofReset {e : Io} (h : e.Listens) : e.OfReset := by
  cases e with
  | write caller frame count =>
      cases caller with
      | main => exact h.elim
      | handler => exact h
  | alarm seconds => trivial
  | _ => exact h

/-- The window is closed when `proc_reset` returns. -/
theorem procReset_watched {F : List Io → Prop} (hreads : ∀ io, F io → ReadsUndisturbed io)
    (hF : ∀ io new, (∀ e ∈ new, e.OfReset) → F io → F (io ++ new)) :
    Leads (Watched false F) (Watched false F) Orderly procReset := by
  intro w hw
  obtain ⟨v, count, hrun, hpending, hio⟩ := procReset_opens hw.flag
  have hv : Watched true F v := by
    refine ⟨hpending, ?_, ?_, ?_⟩
    · rw [hio, armed_append]
      rfl
    · have hcommand : armed (w.io ++ [.write .main hciReset count]) = false := by
        rw [armed_append, hw.armed]
        rfl
      rw [hio]
      refine Each.append (Each.append hw.follows (Each.single ?_)) (Each.single ?_)
      · rw [List.append_nil, Follows, if_neg (by simp [hw.armed])]
        exact Or.inl trivial
      · rw [List.append_nil, Follows, if_neg (by simp [hcommand])]
        exact Or.inr ⟨rfl, w.io, count, rfl⟩
    · rw [hio, List.append_assoc]
      exact hF _ _ (by simp [Io.OfReset]) hw.trace
  have hlistens {x y : World} (hx : Watched true F x) (hsteady : Steady Io.Heard x y) :
      Watched true F y :=
    hx.listens hsteady fun new hnew => hF _ new fun e he => (hnew e he).ofReset
  have hstop {x : World} (hx : Watched true F x) : Orderly x := hx.orderly (hreads x.io)
  rw [wp, hrun]
  refine wp_seq (wp_mono (readEvent_steady v) (fun _ _ => hlistens hv) fun _ x hx => ?_)
    fun _ x hx => ?_
  · exact hstop (hlistens hv hx)
  · refine wp_seq (wp_mono (deliver_steady x) (fun _ _ => hlistens hx) fun _ y hy => ?_)
      fun _ y hy => ⟨rfl, ?_, ?_, hF _ _ (by simp [Io.OfReset]) hy.trace⟩
    · exact hstop (hlistens hx hy)
    · change armed (y.io ++ [.alarm 0]) = false
      rw [armed_append]
      rfl
    · refine Each.append hy.follows (Each.single ?_)
      rw [List.append_nil, Follows, if_pos hy.armed]
      exact Or.inr rfl

/-! ### Runs of the program -/

/-- A part of the program that sets no alarm. -/
theorem steady_watched {α : Type} {c : Host α} {A : Io → Prop} {F G : List Io → Prop}
    (h : Keeps (Steady A) c) (hA : ∀ e, A e → e.Plain)
    (hFG : ∀ io new, (∀ e ∈ new, A e) → F io → G (io ++ new))
    (hreads : ∀ io, G io → ReadsUndisturbed io) :
    Leads (Watched false F) (Watched false G) Orderly c :=
  fun w hw => wp_mono (h w) (fun _ _ ht => hw.plain ht hA fun new => hFG w.io new)
    fun _ t ht => (hw.plain ht hA fun new => hFG w.io new).orderly (hreads t.io)

/-- Until the file has been read, plain calls do not disturb the download. -/
theorem during_watched {α : Type} {c : Host α} (h : Keeps (Steady Io.Plain) c) :
    Leads (Watched false During) (Watched false During) Orderly c :=
  steady_watched h (fun _ => id) (fun _ _ hnew hio => hio.plain hnew) fun _ hio => hio.2

/-- Afterwards the file is not read any more. -/
theorem after_watched {α : Type} {c : Host α} (h : Keeps (Steady Io.Fileless) c) :
    Leads (Watched false ReadsUndisturbed) (Watched false ReadsUndisturbed) Orderly c :=
  steady_watched h (fun _ => Io.Fileless.plain)
    (fun _ _ hnew hio => hio.append fun e he => (hnew e he).not_reads) fun _ => id

theorem fileless_plain {α : Type} {c : Host α} (h : Keeps (Steady Io.Fileless) c) :
    Keeps (Steady Io.Plain) c :=
  Steady.keeps_mono h fun _ => Io.Fileless.plain

theorem Io.OfReset.not_download {e : Io} (h : e.OfReset) :
    (∀ count, e ≠ .write .main hciDownloadMinidriver count) ∧ ¬ e.ReadsFile := by
  constructor
  · rintro count rfl
    have hsame : hciDownloadMinidriver = hciReset := h
    exact absurd hsame (by decide)
  · cases e <;> first | exact id | exact fun _ => h

theorem initUart_watched :
    Leads (Watched false Before) (Watched false Before) Orderly initUart := by
  refine steady_watched initUart_steady (fun _ he => he.fileless.plain) (fun _ _ hnew hio => ?_)
    fun _ hio => hio.during.2
  refine hio.append fun e he => ⟨?_, (hnew e he).fileless.not_reads⟩
  rintro count rfl
  exact hnew _ he

theorem procPatchram_watched :
    Leads (Watched false During) (Watched false ReadsUndisturbed) Orderly procPatchram := by
  have option {p : Prop} [Decidable p] {c : Host Unit} (h : Keeps (Steady Io.Plain) c) :
      Leads (Watched false During) (Watched false During) Orderly (Effect.when p c) :=
    during_watched (.when Steady.refl h)
  refine .bind (during_watched (fileless_plain (exchange_steady _))) fun _ => ?_
  refine .bind (.gets _) fun config => ?_
  have hconfirmation := Steady.keeps_mono (readUart_steady 0 2) fun _ he => he.fileless.plain
  refine .bind (option (.bind Steady.trans hconfirmation fun _ => .pure Steady.refl _)) fun _ => ?_
  refine .bind (option (sys_steady (record_steady (e := .usleep config.tosleep) trivial trivial)))
    fun _ => ?_
  refine .bind (during_watched (.bind Steady.trans (.gets Steady.refl _) downloadLoop_steady))
    fun _ => ?_
  refine .bind (option (Steady.keeps_mono (setSpeed_steady _) fun _ he => he.fileless.plain))
    fun _ => ?_
  refine Leads.consequence (procReset_watched (fun _ => id) fun _ _ hnew hio => ?_)
    (fun w hw => hw.mono And.right) fun _ hw => hw
  exact hio.append fun e he => (hnew e he).not_download.2

/-- From the first call on, an alarm is pending only in a window of `proc_reset`, and none
disturbs the download. -/
theorem program_watched :
    Leads (Watched false Before) (Watched false ReadsUndisturbed) Orderly program := by
  have hreset : Leads (Watched false Before) (Watched false Before) Orderly procReset := by
    refine procReset_watched (fun _ hio => hio.during.2) fun _ _ hnew hio => ?_
    exact hio.append fun e he => (hnew e he).not_download
  have option {p : Prop} [Decidable p] {c : Host Unit} (h : Keeps (Steady Io.Fileless) c) :
      Leads (Watched false ReadsUndisturbed) (Watched false ReadsUndisturbed) Orderly
        (Effect.when p c) :=
    after_watched (.when Steady.refl h)
  refine .bind initUart_watched fun _ => .bind hreset fun _ => ?_
  refine .bind (.gets _) fun config => ?_
  refine .bind (R := Watched false During) ?_ fun _ => ?_
  · refine Leads.consequence (P := Watched false During) (during_watched ?_)
      (fun _ hw => hw.mono Before.during) fun _ hw => hw
    exact .when Steady.refl (.when Steady.refl (fileless_plain procBaudrate_steady))
  refine .bind (.when (fun _ => procPatchram_watched) fun _ _ hw => hw.mono And.right) fun _ => ?_
  refine .bind (option procBaudrate_steady) fun _ => .bind (option procBdaddr_steady) fun _ => ?_
  refine .bind (option procEnableLpm_steady) fun _ => .bind (option procScopcm_steady) fun _ => ?_
  refine .bind (option procI2s_steady) fun _ => ?_
  have hstop {α : Type} (e : Stop) : Leads (Watched false ReadsUndisturbed)
      (Watched false ReadsUndisturbed) Orderly (Effect.stop e : Host α) :=
    after_watched (.stop Steady.refl e)
  refine .bind (.when (fun _ => ?_) fun _ _ hw => hw) fun _ => hstop _
  exact .bind (after_watched procEnableHci_steady) fun _ => hstop _

/-- The handler that runs where the program waits keeps to the window as well. -/
theorem Orderly.deliver {w : World} (h : Orderly w) : Orderly (deliver w).2 := by
  have hsteady : Steady Io.Heard w (Patchram.deliver w).2 := wp_end (deliver_steady w)
  obtain ⟨pending, h⟩ := h
  cases pending with
  | false =>
      exact ⟨false, h.plain hsteady (fun _ he => he.fileless.plain) fun new hnew hio =>
        hio.append fun e he => (hnew e he).fileless.not_reads⟩
  | true =>
      exact ⟨true, h.listens hsteady fun new hnew hio =>
        hio.append fun e he => (hnew e he).ofReset.not_download.2⟩

theorem main_orderly {w : World} (hio : w.io = []) (hpending : w.pending = false)
    (options : List Opt) (port : Option (List UInt8)) : Orderly (main options port w).2 := by
  have hstart : ∀ u, Parsed w u → Watched false Before u := by
    intro u hu
    have hsilent : u.io = [] := by rw [hu.state]; exact hio
    refine ⟨by rw [hu.state]; exact hpending, ?_, ?_, ?_⟩
    · rw [hsilent]
      rfl
    · rw [hsilent]
      exact Each.nil
    · rw [hsilent]
      exact fun e he => nomatch he
  rw [main_eq]
  refine wp_end (P := Orderly) (wp_seq (wp_mono (commandLine_sets options port w)
    (fun _ _ hu => hu) fun _ u hu => ?_) fun _ u hu => ?_)
  · exact (hstart u hu.parsed).orderly fun hio => hio.during.2
  · exact wp_mono (program_watched u (hstart u hu.parsed)) (fun _ _ ht => ht.orderly id)
      fun _ _ ht => ht

/-! ### Expiries -/

/-- From `w` to `t`, `n` reset commands are written, and one for every signal that makes the
alarm expire. -/
def Resets (n : Nat) (w t : World) : Prop :=
  ∃ new consumed, t.io = w.io ++ new ∧ w.signals = consumed ++ t.signals ∧
    new.countP Io.isReset = n + consumed.count true

theorem Resets.trans {n m : Nat} {w u t : World} (h₁ : Resets n w u) (h₂ : Resets m u t) :
    Resets (n + m) w t := by
  obtain ⟨new₁, consumed₁, hio₁, hsig₁, hcount₁⟩ := h₁
  obtain ⟨new₂, consumed₂, hio₂, hsig₂, hcount₂⟩ := h₂
  refine ⟨new₁ ++ new₂, consumed₁ ++ consumed₂, ?_, ?_, ?_⟩
  · rw [hio₂, hio₁, List.append_assoc]
  · rw [hsig₁, hsig₂, List.append_assoc]
  · rw [List.countP_append, List.count_append, hcount₁, hcount₂]
    omega

theorem Steady.resets {w t : World} (h : Steady Io.Heard w t) : Resets 0 w t := by
  obtain ⟨new, consumed, hio, hsig, hcount, hall⟩ := h.calls
  refine ⟨new, consumed, hio, hsig, ?_⟩
  rw [Nat.zero_add, ← hcount]
  apply List.countP_congr
  intro e he
  rcases hall e he with hheard | ⟨_, hhandler⟩
  · cases e <;> first | exact hheard.elim | exact Iff.rfl
  · cases e with
    | write caller frame count =>
        cases caller with
        | main => exact hhandler.elim
        | handler =>
            obtain rfl : frame = hciReset := hhandler
            exact Iff.rfl
    | alarm seconds => exact Iff.rfl
    | _ => exact hhandler.elim

theorem sys_resets {f : World → World} {n : Nat} (h : ∀ w, Resets n w (f w)) :
    Keeps (Resets n) (sys (modify f : Host Unit)) := by
  intro w
  have hdeliver : Steady Io.Heard w (deliver w).2 := wp_end (deliver_steady w)
  have hcall : Resets (0 + n) w (f (deliver w).2) := hdeliver.resets.trans (h _)
  rwa [Nat.zero_add] at hcall

/-- A call of `proc_reset` writes its own command, and one for every expiry. -/
theorem procReset_resets : Keeps (Resets 1) procReset := by
  have htrans : ∀ w u t, Resets 0 w u → Resets 0 u t → Resets 0 w t := fun _ _ _ => Resets.trans
  have halarm (seconds : Nat) : Keeps (Resets 0) (sys (alarm seconds)) :=
    sys_resets fun w => ⟨[.alarm seconds], [], rfl, rfl, rfl⟩
  have hevent : Keeps (Resets 0) readEvent := fun w =>
    wp_mono (readEvent_steady w) (fun _ _ ht => ht.resets) fun _ _ ht => ht.resets
  have hwindow : Keeps (Resets 0) (sys (alarm 4) >>= fun _ => readEvent >>= fun _ =>
      sys (alarm 0)) :=
    .bind htrans (halarm 4) fun _ => .bind htrans hevent fun _ => halarm 0
  have hcommand : Keeps (Resets 1) (sys (hciSendCmd .main hciReset)) :=
    sys_resets fun w => ⟨[.write .main hciReset (w.writes.headD 4)], [], rfl, rfl, rfl⟩
  intro w
  refine wp_seq (hcommand w) fun _ u hu => ?_
  exact wp_mono (hwindow u) (fun _ _ ht => hu.trans ht) fun _ _ ht => hu.trans ht

/-- The timeout handler never disturbs a download. The run starts without an alarm; `later` are
the signals that arrive where it has come to its end or waits. An alarm is pending only between
`alarm(4)` and `alarm(0)` of one `proc_reset`, and only there the handler writes; it writes
nothing from Download_Minidriver to the last read of the file; and each call of `proc_reset`
writes one reset more than the alarm expires. -/
theorem main_undisturbed {w : World} (hio : w.io = []) (hpending : w.pending = false)
    (options : List Opt) (port : Option (List UInt8)) (later : List Bool) :
    let t := (deliver { (main options port w).2 with signals := later }).2
    t.pending = armed t.io ∧
      (∀ before after, t.io = before ++ after → armed before = true → InWindow before) ∧
      (∀ before e after, t.io = before ++ e :: after → armed before = true →
        e.Listens ∨ e = .alarm 0) ∧
      (∀ before frame count after, t.io = before ++ .write .handler frame count :: after →
        armed before = true) ∧
      (∀ before count between i len result after, t.io = before ++
          .write .main hciDownloadMinidriver count :: between ++ .readFile i len result :: after →
        ∀ e ∈ between, e.isExpiry = false) ∧
      ∀ v : World, Resets 1 v (procReset v).2 := by
  intro t
  obtain ⟨pending, hmain⟩ := main_orderly hio hpending options port
  have hlater : Orderly { (main options port w).2 with signals := later } :=
    ⟨pending, hmain.flag, hmain.armed, hmain.follows, hmain.trace⟩
  obtain ⟨pending', ht⟩ := hlater.deliver
  refine ⟨ht.flag.trans ht.armed.symm, ?_, ?_, ?_, ?_, fun v => wp_end (procReset_resets v)⟩
  · intro before after hsplit harmed
    refine inWindow_of_armed (Each.front (b := after) ?_) harmed
    rw [← hsplit]
    exact ht.follows
  · intro before e after hsplit harmed
    have hfollows : Follows before e := ht.follows before e after hsplit
    rwa [Follows, if_pos harmed] at hfollows
  · intro before frame count after hsplit
    have hfollows : Follows before _ := ht.follows before _ after hsplit
    by_contra harmed
    rw [Follows, if_neg harmed] at hfollows
    rcases hfollows with hplain | ⟨halarm, _⟩
    · exact hplain
    · cases halarm
  · intro before count between i len result after hsplit e he
    have hundisturbed :
        Undisturbed (before ++ .write .main hciDownloadMinidriver count :: between) :=
      ht.trace _ _ after hsplit trivial
    obtain ⟨first, second, rfl⟩ := List.append_of_mem he
    by_contra hexpiry
    rw [Bool.not_eq_false] at hexpiry
    refine hundisturbed (before ++ .write .main hciDownloadMinidriver count :: first) e second
      (by simp) hexpiry count (by simp)

/-- The alarm expires between the first event and `alarm(0)`, and twice in the window behind the
download. -/
def expiringDownload : World :=
  { World.start {} (List.replicate 4 (.bytes [0x0e, 0x00, 0x00])) [] with
    opens := [some (3, [0x4c, 0xfc, 0x00]), some (4, [])]
    signals := [false, false, true, false, true, true] }

theorem main_undisturbed_expiring :
    let options := [.patchram [0x61, 0x2e, 0x68, 0x63, 0x64], .no2bytes]
    let t := (deliver { (main options (some portName) expiringDownload).2 with signals := [] }).2
    t.io.countP Io.isExpiry = 3 ∧ t.pending = armed t.io ∧
      ∀ before frame count after, t.io = before ++ .write .handler frame count :: after →
        InWindow before := by
  intro options t
  obtain ⟨hflag, hwindow, -, hexpiry, -⟩ := main_undisturbed (w := expiringDownload) rfl rfl
    options (some portName) []
  refine ⟨by decide +kernel, hflag, fun before frame count after hsplit => ?_⟩
  exact hwindow before _ hsplit (hexpiry before frame count after hsplit)

end Patchram
