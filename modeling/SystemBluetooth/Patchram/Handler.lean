import SystemBluetooth.Patchram.Event

/-!
# The handler between two steps

A signal can arrive before any system call of the main flow, and any number of times.
All the handler leaves behind is a number of reset commands, an armed alarm, and fewer
answers to come; it touches neither the buffer nor the file nor the UART input.

`Handled` is that relation between two states, and `Listened` the one of `read_event`,
which also takes bytes from the UART and writes them to the buffer, whatever they are and
however the reads end.
-/

namespace Patchram

open Effect

/-- A system call of the handler. -/
def Io.ByHandler : Io → Prop
  | .write .handler frame _ => frame = hciReset
  | .alarm seconds => seconds = 4
  | _ => False

/-- A system call of the handler, or one of `read_event`. -/
def Io.Listens : Io → Prop
  | .readUart .. => True
  | .event _ => True
  | e => e.ByHandler

theorem Io.ByHandler.listens {e : Io} (h : e.ByHandler) : e.Listens := by
  cases e <;> first | exact h | exact h.elim

/-- `t` is `w` after the handler has run any number of times. -/
structure Handled (w t : World) : Prop where
  state : t = { w with
    pending := t.pending, signals := t.signals, writes := t.writes, io := t.io }
  handler : ∃ new, t.io = w.io ++ new ∧ ∀ e ∈ new, e.ByHandler
  quiet : w.signals = [] → t.signals = []

theorem Handled.refl (w : World) : Handled w w := ⟨rfl, ⟨[], by simp, by simp⟩, id⟩

theorem Handled.trans {w u t : World} (h₁ : Handled w u) (h₂ : Handled u t) : Handled w t := by
  obtain ⟨n₁, hn₁, ha₁⟩ := h₁.handler
  obtain ⟨n₂, hn₂, ha₂⟩ := h₂.handler
  refine ⟨?_, ⟨n₁ ++ n₂, by rw [hn₂, hn₁, List.append_assoc], ?_⟩, fun h => h₂.quiet (h₁.quiet h)⟩
  · rw [h₂.state, h₁.state]
  · intro e he
    exact (List.mem_append.mp he).elim (ha₁ e) (ha₂ e)

theorem runHandler_handled {signals : List Bool} {w : World}
    (hsig : w.signals = [] → signals = []) : Handled w (runHandler signals w) := by
  induction signals generalizing w with
  | nil => exact ⟨rfl, ⟨[], by simp [runHandler], by simp⟩, fun _ => rfl⟩
  | cons expires later ih =>
      have hsome : w.signals ≠ [] := fun h => absurd (hsig h) (by simp)
      cases expires with
      | false => exact ⟨rfl, ⟨[], by simp [runHandler], by simp⟩, fun h => absurd h hsome⟩
      | true =>
          have hone : Handled w (expired w).2 :=
            ⟨rfl, ⟨_, List.append_assoc _ _ _, by simp [Io.ByHandler]⟩, fun h => absurd h hsome⟩
          exact hone.trans (ih (w := (expired w).2) fun h => absurd h hsome)

/-- A system call is made in a state that differs by what the handler does first. -/
theorem sys_handled {α : Type} (call : Host α) (w : World) :
    ∃ v, Handled w v ∧ sys call w = call v := by
  refine ⟨(deliver w).2, ?_, rfl⟩
  by_cases hpending : w.pending = true
  · simpa [deliver, hpending] using runHandler_handled (w := w) id
  · simpa [deliver, hpending] using Handled.refl w

/-- A handler that runs before a system call either only takes a signal away, or writes a
command first of all. -/
theorem sys_cases {α : Type} (call : Host α) (w : World) :
    ∃ v, sys call w = call v ∧ ((∃ s, v = { w with signals := s }) ∨ Handled w v ∧
      ∃ count new, v.io = w.io ++ .write .handler hciReset count :: new ∧
        ∀ e ∈ new, e.ByHandler) := by
  refine ⟨(deliver w).2, rfl, ?_⟩
  by_cases hpending : w.pending = true
  · rcases hsignals : w.signals with _ | ⟨_ | _, later⟩
    · exact Or.inl ⟨[], by simp [deliver, hpending, hsignals, runHandler]⟩
    · exact Or.inl ⟨later, by simp [deliver, hpending, hsignals, runHandler]⟩
    · right
      have hrun : (deliver w).2 = runHandler later (expired w).2 := by
        simp [deliver, hpending, hsignals, runHandler]
      have hhandled : Handled (expired w).2 (runHandler later (expired w).2) :=
        runHandler_handled fun h => absurd (hsignals.symm.trans h) (by simp)
      have hfirst : Handled w (expired w).2 :=
        ⟨rfl, ⟨_, List.append_assoc _ _ _, by simp [Io.ByHandler]⟩,
          fun h => absurd (hsignals.symm.trans h) (by simp)⟩
      obtain ⟨new, hnew, hall⟩ := hhandled.handler
      rw [hrun]
      refine ⟨hfirst.trans hhandled, w.writes.headD hciReset.length, .alarm 4 :: new, ?_, ?_⟩
      · rw [hnew]
        change (w.io ++ [_]) ++ [_] ++ new = _
        simp
      · exact List.forall_mem_cons.mpr ⟨rfl, hall⟩
  · exact Or.inl ⟨w.signals, if_neg hpending⟩

/-! ### What `read_event` can change -/

/-- `t` is `w` after UART reads into the buffer, with the handler in between. -/
structure Listened (w t : World) : Prop where
  state : t = { w with
    uart := t.uart, buffer := t.buffer, pending := t.pending, signals := t.signals,
    writes := t.writes, io := t.io }
  listens : ∃ new, t.io = w.io ++ new ∧ ∀ e ∈ new, e.Listens

namespace Listened

theorem refl (w : World) : Listened w w := ⟨rfl, [], by simp, by simp⟩

theorem trans (w u t : World) (h₁ : Listened w u) (h₂ : Listened u t) : Listened w t := by
  obtain ⟨n₁, hn₁, ha₁⟩ := h₁.listens
  obtain ⟨n₂, hn₂, ha₂⟩ := h₂.listens
  refine ⟨?_, n₁ ++ n₂, by rw [hn₂, hn₁, List.append_assoc], ?_⟩
  · rw [h₂.state, h₁.state]
  · intro e he
    exact (List.mem_append.mp he).elim (ha₁ e) (ha₂ e)

theorem of_handled {w t : World} (h : Handled w t) : Listened w t := by
  obtain ⟨new, hnew, hall⟩ := h.handler
  exact ⟨by rw [h.state], new, hnew, fun e he => (hall e he).listens⟩

theorem file {w t : World} (h : Listened w t) : t.file = w.file := by
  rw [h.state]

theorem fileReads {w t : World} (h : Listened w t) : t.fileReads = w.fileReads := by
  rw [h.state]

end Listened

theorem sys_listens {α : Type} {call : Host α} (h : Keeps Listened call) :
    Keeps Listened (sys call) := by
  intro w
  obtain ⟨v, hhandled, hcall⟩ := sys_handled call w
  have hv : Listened w v := .of_handled hhandled
  rw [wp, hcall]
  exact wp_mono (h v) (fun _ t => hv.trans w v t) (fun _ t => hv.trans w v t)

theorem readUart_listens (i len : Int) : Keeps Listened (readUart i len) := by
  refine sys_listens fun w => wp_bind.mpr (wp_get.mpr ?_)
  cases Arrivals.read len.toNat w.uart with
  | none => exact Listened.refl w
  | some answer => exact ⟨rfl, _, rfl, by simp [Io.Listens]⟩

theorem readLoop_listens (fuel : Nat) (i len : Int) : Keeps Listened (readLoop fuel i len) := by
  induction fuel generalizing i len with
  | zero => exact Keeps.stop Listened.refl _
  | succ fuel ih =>
      refine Keeps.bind Listened.trans (readUart_listens i len) (fun count => ?_)
      split
      · exact ih _ _
      · exact Keeps.pure Listened.refl _

theorem readFull_listens (i len : Int) : Keeps Listened (readFull i len) :=
  Keeps.bind Listened.trans (Keeps.gets Listened.refl _) fun _ => readLoop_listens _ _ _

theorem readEvent_listens : Keeps Listened readEvent := by
  refine Keeps.bind Listened.trans (readFull_listens 0 3) (fun _ => ?_)
  refine Keeps.bind Listened.trans (Keeps.gets Listened.refl _) (fun _ => ?_)
  refine Keeps.bind Listened.trans (readFull_listens _ _) (fun _ => ?_)
  refine Keeps.bind Listened.trans (Keeps.gets Listened.refl _) (fun _ => ?_)
  exact Keeps.modify fun w => ⟨rfl, _, rfl, by simp [Io.Listens]⟩

/-! ### The steps of the program -/

/-- What every step of the program keeps, the program keeps. -/
theorem program_leads {P E : World → Prop} (stops : ∀ w, P w → E w) (init : Leads P P E initUart)
    (reset : Leads P P E procReset) (baudrate : Leads P P E procBaudrate)
    (patchram : Leads P P E procPatchram) (bdaddr : Leads P P E procBdaddr)
    (lpm : Leads P P E procEnableLpm) (scopcm : Leads P P E procScopcm)
    (i2s : Leads P P E procI2s) (hci : Leads P P E procEnableHci) : Leads P P E program := by
  have option {p : Prop} [Decidable p] {c : Host Unit} (h : Leads P P E c) :
      Leads P P E (Effect.when p c) := .when (fun _ => h) fun _ _ hw => hw
  refine .bind init fun _ => .bind reset fun _ => .bind (.gets _) fun config => ?_
  apply Leads.bind (option (option baudrate))
  intro _
  apply Leads.bind (option patchram)
  intro _
  apply Leads.bind (option baudrate)
  intro _
  apply Leads.bind (option bdaddr)
  intro _
  apply Leads.bind (option lpm)
  intro _
  apply Leads.bind (option scopcm)
  intro _
  apply Leads.bind (option i2s)
  intro _
  exact .bind (option (.bind hci fun _ => .stop stops _)) fun _ => .stop stops _

end Patchram
