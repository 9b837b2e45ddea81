import SystemBluetooth.Patchram.Download

/-!
# How the UART splits its input

`read_event` asks again until it has what it needs, so where the reads fall does not
matter to it. The confirmation bytes after the minidriver event are read in one call
that is not repeated. Two runs of `proc_patchram` on the same stream of events therefore
agree exactly if that one read goes alike in both; they do not if it takes one byte in
one run and two in the other, because everything after it is then framed differently.
-/

namespace Patchram

open Effect Arrivals

/-- Commands and events, as the debug output shows them. -/
def Io.message : Io → Option Message
  | .write .main frame count => some (.command (frame.take count.toNat))
  | .event data => some (.event data)
  | _ => none

/-- Every command with the event that is taken for its answer. -/
def transcript (io : List Io) : List Message := io.filterMap Io.message

@[simp] theorem transcript_append (a b : List Io) :
    transcript (a ++ b) = transcript a ++ transcript b := by
  simp [transcript]

/-- A message that is a command or an event. -/
def Message.framed : Message → Bool
  | stray _ => false
  | _ => true

theorem Reads.transcript {reads : List Io} {data : List UInt8} (h : Reads reads data) :
    transcript reads = [] := by
  rw [Patchram.transcript, List.filterMap_eq_nil_iff]
  intro e he
  obtain ⟨i, len, l, rfl⟩ := h.1 e he
  rfl

theorem Dialogue.transcript {ms : List Message} {io : List Io} (h : Dialogue ms io) :
    transcript io = ms.filter Message.framed := by
  induction h with
  | nil => rfl
  | @silent e _ _ hs _ ih =>
      cases e <;> first | exact hs.elim | exact ih
  | command _ ih =>
      rw [List.filter_cons_of_pos (by rfl), ← ih]
      simp [Patchram.transcript, Io.message]
  | event hr _ ih =>
      rw [transcript_append, hr.transcript, List.filter_cons_of_pos (by rfl), ← ih]
      rfl
  | stray hr _ ih =>
      rw [transcript_append, hr.transcript, List.filter_cons_of_neg (by simp [Message.framed])]
      exact ih

/-- A conversation that gets to its end has no stray bytes. -/
theorem framed_of_answers {fs : List (List UInt8)} {s rest : List UInt8}
    (h : (answers fs s).2 = some rest) :
    (answers fs s).1.filter Message.framed = (answers fs s).1 := by
  induction fs generalizing s with
  | nil => rfl
  | cons f fs ih =>
      cases hdecode : Block.decode s with
      | none => simp [answers, hdecode] at h
      | some r =>
          obtain ⟨e, tail⟩ := r
          simp only [answers, hdecode] at h ⊢
          rw [List.filter_cons_of_pos (by rfl), List.filter_cons_of_pos (by rfl), ih h]

/-- What a run of `proc_patchram` comes to: whether it returns, the commands and events,
and the bytes it has taken from the UART. -/
def outcome (w : World) : Except Stop Unit × List Message × List UInt8 :=
  ((procPatchram w).1, transcript (procPatchram w).2.io, received (procPatchram w).2.io)

/-- The part of `outcome` that a conversation on a given stream determines. -/
def ending : Option (List UInt8) → Except Stop Unit
  | some _ => .ok ()
  | none => .error .waiting

theorem Converses.ends {c : Host Unit} {w : World} {ms : List Message}
    {rest : Option (List UInt8)} (h : Converses c w ms rest) :
    (c w).1 = ending rest ∧ ∃ new, (c w).2.io = w.io ++ new ∧ Dialogue ms new := by
  cases rest with
  | some rest =>
      obtain ⟨t, ht, hafter, _⟩ := h
      exact ⟨by rw [ht, ending], by rw [ht]; exact hafter.dialogue⟩
  | none =>
      obtain ⟨t, new, ht, hio, hdial⟩ := h
      exact ⟨by rw [ht, ending], new, by rw [ht, hio], hdial⟩

/-- The outcome of a run that goes on after `io` with the minidriver event, takes the
confirmation bytes `l` and ends with the conversation `r`. -/
def outcomeAfter (io : List Io) (minidriver l : List UInt8)
    (r : List Message × Option (List UInt8)) :
    Except Stop Unit × List Message × List UInt8 :=
  (ending r.2,
    transcript io ++ (.command hciDownloadMinidriver :: .event minidriver ::
      r.1.filter Message.framed),
    received io ++ (minidriver ++ (l ++ r.1.flatMap Message.bytes)))

/-- Confirmation bytes are awaited, and a read boundary falls between them. -/
def Divided (w : World) (minidriver : Block) : Prop :=
  w.config.no2bytes = false ∧ Cut w.uart (minidriver.encode.length + 1)

/-- `l` are the confirmation bytes that the one read takes. Everything else is
determined by what they leave on the stream. -/
theorem procPatchram_outcome {w : World} (hw : Ordinary w) (records : List Block)
    (minidriver : Block) (confirmation tail : List UInt8)
    (hfile : w.file = records.flatMap Block.encode)
    (hconfirm : confirmation.length = if w.config.no2bytes then 0 else 2)
    (hstream : stream w.uart = minidriver.encode ++ (confirmation ++ tail)) :
    ∃ l, (¬ Divided w minidriver → l = confirmation) ∧
      (Divided w minidriver → l = confirmation.take 1) ∧
      outcome w = outcomeAfter w.io minidriver.encode l
        (answers (downloadFrames records) ((confirmation ++ tail).drop l.length)) := by
  obtain ⟨v, l, heq, hvfile, hafter, hall, hone⟩ :=
    procPatchram_confirmed hw minidriver confirmation tail hconfirm hstream
  refine ⟨l, fun h => hall ?_, fun h => hone h.1 h.2, ?_⟩
  · by_cases hno : w.config.no2bytes = true
    · exact Or.inl hno
    · exact Or.inr fun hcut => h ⟨by simpa using hno, hcut⟩
  have hleft : stream v.uart = (confirmation ++ tail).drop l.length := by
    have h := hafter.stream
    rw [hstream] at h
    have h' : confirmation ++ tail = l ++ stream v.uart := by
      simpa [Message.bytes] using h
    rw [h', List.drop_left]
  obtain ⟨hresult, new, hnew, hdial⟩ := (sleepAndDownload_converses hafter.ordinary w.config
    records (hvfile.trans hfile)).ends
  obtain ⟨first, hfirst, hdial'⟩ := hafter.dialogue
  rw [hleft] at hresult hdial
  have hwhole := hdial'.append hdial
  have hio : (procPatchram w).2.io = w.io ++ (first ++ new) := by
    rw [heq, hnew, hfirst, List.append_assoc]
  rw [outcome, hio, transcript_append, received_append, hwhole.transcript, hwhole.received, heq,
    hresult]
  simp [outcomeAfter, Message.framed, Message.bytes, List.filter_cons]

theorem ending_ok {rest : Option (List UInt8)} (h : ending rest = .ok ()) :
    ∃ s, rest = some s := by
  cases rest with
  | some s => exact ⟨s, rfl⟩
  | none => simp [ending] at h

/-- A run that returns and a run that takes fewer or more confirmation bytes differ: if
both return with the same events, they have not taken the same bytes. -/
theorem outcomeAfter_ne {io : List Io} {minidriver l₁ l₂ s₁ s₂ rest : List UInt8}
    {frames : List (List UInt8)} (hreturns : (answers frames s₁).2 = some rest)
    (hlen : l₁.length ≠ l₂.length) :
    outcomeAfter io minidriver l₁ (answers frames s₁) ≠
      outcomeAfter io minidriver l₂ (answers frames s₂) := by
  intro heq
  simp only [outcomeAfter, Prod.mk.injEq] at heq
  obtain ⟨hend, hms, hbytes⟩ := heq
  obtain ⟨rest', hreturns'⟩ := ending_ok (hend.symm.trans (by rw [hreturns, ending]))
  rw [framed_of_answers hreturns, framed_of_answers hreturns'] at hms
  have hsame : (answers frames s₁).1 = (answers frames s₂).1 := by simpa using hms
  rw [hsame] at hbytes
  have hl : l₁ = l₂ := by simpa using hbytes
  exact hlen (congrArg List.length hl)

/-- The download on a stream of one event per command: two ways to split the stream give
the same outcome exactly if in both of them, or in neither, a read boundary divides the
confirmation bytes that are awaited. -/
theorem procPatchram_chunking {w : World} {cs₁ cs₂ : List (Arrival UInt8)}
    (hw₁ : Ordinary { w with uart := cs₁ }) (hw₂ : Ordinary { w with uart := cs₂ })
    (records events : List Block) (minidriver reset : Block) (confirmation : List UInt8)
    (hfile : w.file = records.flatMap Block.encode) (hevents : events.length = records.length)
    (hconfirm : confirmation.length = if w.config.no2bytes then 0 else 2)
    (hs₁ : stream cs₁ = minidriver.encode ++ (confirmation ++
      (events ++ [reset]).flatMap Block.encode))
    (hs₂ : stream cs₂ = minidriver.encode ++ (confirmation ++
      (events ++ [reset]).flatMap Block.encode)) :
    outcome { w with uart := cs₁ } = outcome { w with uart := cs₂ } ↔
      (Divided { w with uart := cs₁ } minidriver ↔ Divided { w with uart := cs₂ } minidriver) := by
  obtain ⟨l₁, hall₁, hone₁, hout₁⟩ :=
    procPatchram_outcome hw₁ records minidriver confirmation _ hfile hconfirm hs₁
  obtain ⟨l₂, hall₂, hone₂, hout₂⟩ :=
    procPatchram_outcome hw₂ records minidriver confirmation _ hfile hconfirm hs₂
  have hreturns : (answers (downloadFrames records)
      ((confirmation ++ (events ++ [reset]).flatMap Block.encode).drop confirmation.length)).2 =
      some [] := by
    have h := answers_encode (downloadFrames records) (events ++ [reset]) []
      (by simp [downloadFrames, hevents])
    rw [List.append_nil] at h
    rw [List.drop_left, h]
  have hshorter : ∀ {v : World}, Divided v minidriver → v.config = w.config →
      confirmation.length ≠ (confirmation.take 1).length := by
    intro v hdivided hconfig
    rw [← hconfig, hdivided.1] at hconfirm
    rw [List.length_take, hconfirm]
    decide
  rw [hout₁, hout₂]
  by_cases h₁ : Divided { w with uart := cs₁ } minidriver <;>
    by_cases h₂ : Divided { w with uart := cs₂ } minidriver
  · rw [hone₁ h₁, hone₂ h₂]
    simp [h₁, h₂]
  · rw [hone₁ h₁, hall₂ h₂]
    simpa [h₁, h₂] using (outcomeAfter_ne hreturns (hshorter h₁ rfl)).symm
  · rw [hall₁ h₁, hone₂ h₂]
    simpa [h₁, h₂] using outcomeAfter_ne hreturns (hshorter h₂ rfl)
  · rw [hall₁ h₁, hall₂ h₂]
    simp [h₁, h₂]

/-- A minidriver event, two confirmation bytes and the event of the closing reset, in one
arrival and with a boundary between the confirmation bytes. -/
def together : List (Arrival UInt8) :=
  [.bytes [0x04, 0x0e, 0x00, 0x55, 0xaa, 0x04, 0x0e, 0x00]]

def apart : List (Arrival UInt8) :=
  [.bytes [0x04, 0x0e, 0x00, 0x55], .bytes [0xaa, 0x04, 0x0e, 0x00]]

/-- With no record in the file: taken apart, the bytes of the last event are read as
the header `aa 04 0e` of an event that never gets its fourteen bytes. -/
theorem procPatchram_apart :
    stream together = stream apart ∧
      outcome (World.start {} together []) ≠ outcome (World.start {} apart []) := by
  refine ⟨rfl, fun h => ?_⟩
  have hreset : transcript (procPatchram (World.start {} together [])).2.io =
      transcript (procPatchram (World.start {} apart [])).2.io :=
    congrArg (fun o => o.2.1) h
  revert hreset
  decide

theorem procPatchram_chunking_apart :
    (outcome (World.start {} together []) = outcome (World.start {} apart [])) ↔
      (Divided (World.start {} together []) ⟨0x04, 0x0e, [], by decide⟩ ↔
        Divided (World.start {} apart []) ⟨0x04, 0x0e, [], by decide⟩) :=
  procPatchram_chunking (w := World.start {} [] []) ⟨rfl, rfl, rfl, by simp [together]⟩
    ⟨rfl, rfl, rfl, by simp [apart]⟩ [] [] ⟨0x04, 0x0e, [], by decide⟩
    ⟨0x04, 0x0e, [], by decide⟩ [0x55, 0xaa] rfl rfl rfl rfl rfl

end Patchram
