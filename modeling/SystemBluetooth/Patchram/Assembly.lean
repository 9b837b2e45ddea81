import SystemBluetooth.Patchram.Failures

/-!
# Assembling an event from any pieces

`read_event` may get its bytes in any pieces, empty ones too, and the alarm handler may run
before every call of `read`. As long as no read fails, a loop ends with exactly the bytes it
asked for, and the event in front of the stream lies at the start of the buffer.
-/

namespace Patchram

open Effect Arrivals

/-- From `w`, with any buffer, `c` returns `r` after successful calls that take what they
deliver from the front of the stream. -/
structure Gathers (i : Int) (n : Nat) (c : Host (Int × Int)) (w : World) (r : Int × Int)
    (t : World) (ps : List Poll) : Prop where
  replays : Replays c w (.ok r) t ps
  polled : Polled i n ps (.ok r)
  stream : stream w.uart = delivered ps ++ stream t.uart
  clean : .error ∉ t.uart
  succeeds : ∀ p ∈ ps, p.result ≠ .error

namespace Gathers

variable {i : Int} {n : Nat} {c : Host (Int × Int)} {w t : World} {r : Int × Int}
  {ps : List Poll}

/-- The index and the last count add up to the end of the part. -/
theorem ends (h : Gathers i n c w r t ps) : r.1 + r.2 = i + n :=
  (h.polled.complete (Int.natCast_nonneg n) rfl).1

theorem length (h : Gathers i n c w r t ps) : (delivered ps).length = n := by
  have htotal := (h.polled.complete (Int.natCast_nonneg n) rfl).2
  have hzero := failures_eq_zero.mpr h.succeeds
  rw [total_eq, hzero] at htotal
  omega

theorem buffer (h : Gathers i n c w r t ps) (buffer : Int → UInt8) :
    replay ps buffer = Memory.store buffer i (delivered ps) :=
  h.polled.replay_clean h.succeeds buffer

/-- What is delivered is the front of the stream. -/
theorem split (h : Gathers i n c w r t ps) {data rest : List UInt8}
    (hstream : Arrivals.stream w.uart = data ++ rest) (hdata : data.length = n) :
    delivered ps = data ∧ Arrivals.stream t.uart = rest :=
  List.append_inj (h.stream.symm.trans hstream) (h.length.trans hdata.symm)

/-- The calls stay inside the part. -/
theorem inside (h : Gathers i n c w r t ps) (hi : 0 ≤ i) : Inside (i + n) ps := by
  rw [h.polled.inside (Int.natCast_nonneg n)]
  intro before p after hsplit
  have hbefore : failures before = 0 := by
    rw [failures_eq_zero]
    intro q hq
    exact h.succeeds q (by simp [hsplit, hq])
  rw [total_eq, hbefore]
  omega

end Gathers

/-- Enough is to come and no read fails: the loop takes exactly what it asked for. Each call
that is not the last one uses up a piece, which bounds their number. -/
theorem readLoop_gathers {fuel : Nat} {w : World} (hclean : .error ∉ w.uart)
    (hfuel : w.uart.length < fuel) (i : Int) {n : Nat} (hn : n ≤ (stream w.uart).length) :
    ∃ r t ps, Gathers i n (readLoop fuel i n) w r t ps := by
  induction fuel generalizing w i n with
  | zero => omega
  | succ fuel ih =>
      obtain ⟨u, ⟨hnone, -⟩ | ⟨result, hread, hreplays⟩⟩ := readUart_replays i n w
      · -- A read waits only for bytes that never arrive.
        obtain ⟨hnil, hpositive⟩ := read_none hnone
        rw [hnil, stream_nil, List.length_nil] at hn
        omega
      · obtain ⟨⟨l, rfl⟩, hrest⟩ := read_succeeds hread hclean
        have hfits : l.length ≤ (n : Int).toNat := read_length hread
        have hstream : stream w.uart = l ++ stream u.uart := read_stream hread
        by_cases hshort : (l.length : Int) < n
        · have hless : u.uart.length < w.uart.length :=
            read_short hread (by rw [Arrival.data_bytes]; omega)
          have hleft : n - l.length ≤ (stream u.uart).length := by
            rw [hstream, List.length_append] at hn
            omega
          have hdiff : (n : Int) - l.length = ((n - l.length : Nat) : Int) := by omega
          obtain ⟨r, t, ps, hlater⟩ := ih hrest (by omega) (i + l.length) hleft
          have hpolled : Polled i n ([⟨i, n, .bytes l⟩] ++ ps) (.ok r) := by
            refine .more hfits hshort ?_
            rw [Arrival.count_bytes, hdiff]
            exact hlater.polled
          refine ⟨r, t, _, hreplays.bind_ok ?_, hpolled, ?_, hlater.clean, ?_⟩
          · rw [Arrival.count_bytes, if_pos hshort, hdiff]
            exact hlater.replays
          · rw [hstream, hlater.stream, ← List.append_assoc]
            rfl
          · exact List.forall_mem_cons.mpr ⟨by simp, hlater.succeeds⟩
        · refine ⟨_, u, _, hreplays.bind_ok ?_, .last hfits hshort, ?_, hrest, by simp⟩
          · rw [Arrival.count_bytes, if_neg hshort]
            exact .pure _ u
          · rw [hstream]
            simp [delivered]

theorem readFull_gathers {w : World} (hclean : .error ∉ w.uart) (i : Int) {n : Nat}
    (hn : n ≤ (stream w.uart).length) :
    ∃ r t ps, Gathers i n (readFull i n) w r t ps := by
  obtain ⟨r, t, ps, hloop⟩ := readLoop_gathers hclean (Nat.lt_succ_self w.uart.length) i hn
  exact ⟨r, t, ps, ⟨fun buffer => hloop.replays.run buffer, hloop.replays.io⟩, hloop.polled,
    hloop.stream, hloop.clean, hloop.succeeds⟩

/-- An event in front of a stream without failing reads, cut in any way: `read_event` takes
that event and no more, inside the first 258 bytes of the buffer, and leaves the rest of the
buffer as it was. -/
theorem readEvent_assembles {w : World} {e : Block} {rest : List UInt8}
    (hclean : .error ∉ w.uart) (hstream : stream w.uart = e.encode ++ rest) :
    ∃ t, readEvent w = (.ok (), t) ∧ stream t.uart = rest ∧
      delivered (polls (added w t)) = e.encode ∧
      Memory.slice t.buffer 0 (3 + e.payload.length) = e.encode ∧
      (∀ j, j < 0 ∨ 3 + (e.payload.length : Int) ≤ j → t.buffer j = w.buffer j) ∧
      Inside 258 (polls (added w t)) ∧ t.io.getLast? = some (.event e.encode) := by
  have hcut : stream w.uart = [e.first, e.second, e.size] ++ (e.payload ++ rest) := hstream
  have hshort := e.short
  obtain ⟨⟨k, c⟩, u, ps, hheader⟩ := readFull_gathers hclean 0 (n := 3) (by simp [hcut])
  obtain ⟨hps, hu⟩ := hheader.split hcut rfl
  obtain ⟨⟨k', c'⟩, t, qs, hbody⟩ := readFull_gathers hheader.clean (k + c)
    (n := e.payload.length) (by simp [hu])
  obtain ⟨hqs, ht⟩ := hbody.split hu rfl
  have hend : k + c = 0 + (3 : Nat) := hheader.ends
  have hend' : k' + c' = k + c + e.payload.length := hbody.ends
  have hboth : Replays (readFull 0 3 >>= fun _ => readFull (k + c) e.payload.length) w
      (.ok (k', c')) t (ps ++ qs) := hheader.replays.bind_ok hbody.replays
  have hdelivered : delivered (ps ++ qs) = e.encode := by
    rw [delivered_append, hps, hqs]
    rfl
  have hbuffer : replay (ps ++ qs) w.buffer = Memory.store w.buffer 0 e.encode := by
    have hthree : k + c = 0 + ((delivered ps).length : Int) := by rw [hend, hheader.length]
    rw [replay_append, hbody.buffer, hheader.buffer, hthree, Memory.store_store_append,
      ← delivered_append, hdelivered]
  have hslice : Memory.slice (replay (ps ++ qs) w.buffer) 0 (3 + e.payload.length) =
      e.encode := by
    rw [hbuffer, Memory.slice_store (by rw [Block.length_encode, Nat.add_comm])]
  have hrun : readEvent w = (.ok (), { t with
      buffer := replay (ps ++ qs) w.buffer, io := t.io ++ [.event e.encode] }) := by
    have hsize : replay ps w.buffer 2 = e.size := by
      rw [hheader.buffer, hps]
      exact Memory.store_inside w.buffer 0 [e.first, e.second, e.size] (k := 2) (by simp)
    have hfirst : readFull 0 3 w = _ := hheader.replays.run w.buffer
    have hcount : (c' + k').toNat = 3 + e.payload.length := by omega
    rw [readEvent, bind_ok hfirst]
    simp only [gets_bind_apply, hsize, Block.toNat_size]
    rw [bind_ok (hbody.replays.run _), gets_bind_apply]
    simp only [hcount, ← replay_append, hslice]
    rfl
  have hcalls := hboth.added_event w.buffer e.encode
  refine ⟨_, hrun, ht, ?_, hslice, ?_, ?_, List.getLast?_concat⟩
  · exact (congrArg delivered hcalls).trans hdelivered
  · intro j hj
    change replay (ps ++ qs) w.buffer j = _
    rw [hbuffer]
    rcases hj with hbelow | habove
    · exact Memory.store_below hbelow
    · exact Memory.store_above (by rw [Block.length_encode]; omega)
  · intro p hp
    have hcall : p ∈ ps ++ qs := (congrArg (p ∈ ·) hcalls).mp hp
    rcases List.mem_append.mp hcall with hp | hp
    · have hcell := hheader.inside (Int.le_refl 0) p hp
      omega
    · have hcell := hbody.inside (by omega) p hp
      omega

/-- The pieces are empty, or reach from the header into the payload and from there into what
follows, and the alarm expires in between. -/
theorem readEvent_assembles_scattered :
    let w : World := { World.start {}
        [.bytes [], .bytes [0x04], .bytes [], .bytes [0x0e, 0x02, 0x01], .bytes [],
          .bytes [0x00, 0xff]] [] with
      pending := true, signals := [false, true, true] }
    ∃ t, readEvent w = (.ok (), t) ∧ stream t.uart = [0xff] ∧
      delivered (polls (added w t)) = [0x04, 0x0e, 0x02, 0x01, 0x00] ∧
      Memory.slice t.buffer 0 5 = [0x04, 0x0e, 0x02, 0x01, 0x00] ∧
      (∀ j : Int, j < 0 ∨ 3 + (2 : Int) ≤ j → t.buffer j = w.buffer j) ∧
      Inside 258 (polls (added w t)) ∧
      t.io.getLast? = some (.event [0x04, 0x0e, 0x02, 0x01, 0x00]) :=
  readEvent_assembles (e := ⟨0x04, 0x0e, [0x01, 0x00], by decide⟩) (by decide) rfl

end Patchram
