import SystemBluetooth.Brfpatch.Records
import SystemBluetooth.Brfpatch.Script

/-!
# From packets back to a script

Every sequence of command packets can be written as a script, one line for each packet with its
opcode and its data in quotation marks, and compiling that script gives the packets again. So
the outputs of the program are exactly the sequences of command packets, and whatever has been
compiled from, there is a script in this form with the same output.
-/

namespace Brfpatch

open Effect

/-! ### Printing -/

def hexDigit (n : Fin 16) : HexDigit where
  char := UInt8.ofNat (if n.val < 10 then 0x30 + n else 0x57 + n)
  valid := by revert n; decide

theorem digit_hexDigit (n : Fin 16) : Scan.digit (hexDigit n).char = n := by revert n; decide

def high (x : UInt8) : HexDigit := hexDigit ⟨x.toNat / 16, by have := x.toNat_lt; omega⟩

def low (x : UInt8) : HexDigit := hexDigit ⟨x.toNat % 16, Nat.mod_lt _ (by decide)⟩

theorem number_byte (x : UInt8) : number [high x, low x] = x.toNat := by
  have hvalue : number [high x, low x] =
      Scan.digit (high x).char * 16 + Scan.digit (low x).char := by
    simp [number, chars, Scan.value]
  rw [hvalue, high, low, digit_hexDigit, digit_hexDigit]
  exact Nat.div_add_mod' x.toNat 16

/-- The line of a packet. -/
def disassemble (packet : Block) : Command where
  indent := []
  name := [0x48, 0x43, 0x49]
  named := by
    rw [List.forall_mem_cons, List.forall_mem_cons, List.forall_mem_singleton]
    decide
  gap := ⟨space, []⟩
  opcode := [high packet.second, low packet.second, high packet.first, low packet.first]
  four := rfl
  args := [(⟨space, []⟩, .quoted (packet.payload.map fun x => ⟨high x, low x, false⟩))]
  trailing := []

theorem disassemble_bytes (packet : Block) : (disassemble packet).bytes = packet.payload := by
  have hbyte (x : UInt8) : (Pair.mk (high x) (low x) false).byte = [x] := by
    rw [Pair.byte, number_byte, LittleEndian.encode, LittleEndian.encode, UInt8.ofNat_toNat]
  simp only [Command.bytes, disassemble, List.flatMap_cons, List.flatMap_nil, List.append_nil,
    Arg.bytes, List.flatMap_map, hbyte]
  exact List.flatMap_singleton' _

theorem disassemble_meaning (packet : Block) : (disassemble packet).meaning = meaning packet := by
  rw [Command.meaning, disassemble_bytes, meaning, Prod.mk.injEq]
  refine ⟨?_, rfl⟩
  have hsplit := Scan.value_append 16 (chars [high packet.second, low packet.second])
    (chars [high packet.first, low packet.first])
  calc number (disassemble packet).opcode
      = number [high packet.second, low packet.second] * 256 +
          number [high packet.first, low packet.first] := hsplit
    _ = packet.second.toNat * 256 + packet.first.toNat := by rw [number_byte, number_byte]
    _ = LittleEndian.decode [packet.first, packet.second] := by
        simp only [LittleEndian.decode]
        omega

/-- Packets that say the same are the same. -/
theorem meaning_injective : Function.Injective meaning := by
  rintro ⟨a, b, payload, hshort⟩ ⟨c, d, payload', hshort'⟩ h
  simp only [meaning, LittleEndian.decode, Prod.mk.injEq] at h
  obtain ⟨hopcode, rfl⟩ := h
  have ha := a.toNat_lt
  have hc := c.toNat_lt
  obtain rfl : a = c := UInt8.toNat_inj.mp (by omega)
  obtain rfl : b = d := UInt8.toNat_inj.mp (by omega)
  rfl

theorem disassemble_fits (packet : Block) : (ScriptLine.send (disassemble packet)).Fits := by
  have hshort := packet.short
  refine ⟨?_, ?_⟩
  · have hpairs : ((packet.payload.map fun x => Pair.mk (high x) (low x) false).flatMap
        Pair.text).length = 2 * packet.payload.length := by
      rw [List.flatMap_map, List.length_flatMap]
      simp [Pair.text, Nat.mul_comm]
    simp only [ScriptLine.text, Command.text, Command.body, disassemble, argsText, Arg.text,
      Gap.text, blanks, chars, List.flatMap_cons, List.flatMap_nil, List.length_append,
      List.length_cons, List.length_nil, List.map_nil, List.map_cons, hpairs]
    omega
  · rintro c ⟨⟩
    rw [disassemble_bytes]
    omega

def disassembly (packets : List Block) : Script where
  lines := packets.map fun packet => .send (disassemble packet)
  last := none
  fits := by
    intro line hline
    rw [Option.toList_none, List.append_nil, List.mem_map] at hline
    obtain ⟨packet, -, rfl⟩ := hline
    exact disassemble_fits packet

/-! ### Compiling what has been printed -/

theorem disassembly_commands (packets : List Block) :
    (disassembly packets).commands = packets.map disassemble := by
  rw [Script.commands, disassembly, Option.toList_none, List.append_nil, List.filterMap_map]
  exact congrFun List.filterMap_eq_map packets

theorem processLines_disassembly (packets : List Block) (w : State) : ∃ v,
    processLines (fgets ⟨[], by decide⟩ (disassembly packets).text) w = (.ok (), v) ∧
      v.out = w.out ++ Block.encodeAll 0x01 packets := by
  obtain ⟨v, hrun, packets', hout, hmeaning⟩ := processLines_script (disassembly packets).lines
    (disassembly packets).last (disassembly packets).fits w
  refine ⟨v, hrun, ?_⟩
  have hcommands := disassembly_commands packets
  rw [Script.commands] at hcommands
  rw [hcommands, List.map_map,
    show Command.meaning ∘ disassemble = meaning from funext disassemble_meaning] at hmeaning
  rwa [← List.map_injective_iff.mpr meaning_injective hmeaning]

/-- Any packets are the output of a script that says them. -/
theorem main_assembles (packets : List Block) (program input output : List UInt8) (w : State) :
    ∃ v, main [program, input, output] ⟨.ok (disassembly packets).text, .ok ()⟩ w = (.ok (), v) ∧
      v.out = Block.encodeAll 0x01 packets := by
  obtain ⟨v, hrun, hout⟩ := processLines_disassembly packets { w with out := [] }
  exact ⟨v, hrun, hout⟩

/-- Whatever the program is given, and however it ends, its output is that of a script that is
compiled without failure; and the outputs are the sequences of command packets. -/
theorem main_outputs (program input output bytes : List UInt8) (w : State) :
    ((∃ content v, (main [program, input, output] ⟨.ok content, .ok ()⟩ v).2.out = bytes) ↔
        ∃ packets, bytes = Block.encodeAll 0x01 packets) ∧
      ∀ content v, (main [program, input, output] ⟨.ok content, .ok ()⟩ v).2.out = bytes →
        ∃ script : Script, ∃ t,
          main [program, input, output] ⟨.ok script.text, .ok ()⟩ w = (.ok (), t) ∧
            t.out = bytes := by
  have hpackets (content : List UInt8) (v : State) :
      ∃ packets, (main [program, input, output] ⟨.ok content, .ok ()⟩ v).2.out =
        Block.encodeAll 0x01 packets := by
    obtain ⟨_, _, packets, -, h⟩ :=
      processLines_recorded (fgets ⟨[], by decide⟩ content) { v with out := [] }
    exact ⟨packets, h.out⟩
  have hscript (packets : List Block) :
      ∃ t, main [program, input, output] ⟨.ok (disassembly packets).text, .ok ()⟩ w =
        (.ok (), t) ∧ t.out = Block.encodeAll 0x01 packets :=
    processLines_disassembly packets { w with out := [] }
  refine ⟨⟨?_, ?_⟩, ?_⟩
  · rintro ⟨content, v, rfl⟩
    exact hpackets content v
  · rintro ⟨packets, rfl⟩
    obtain ⟨t, hrun, hout⟩ := hscript packets
    exact ⟨_, w, by rw [hrun]; exact hout⟩
  · rintro content v rfl
    obtain ⟨packets, hout⟩ := hpackets content v
    rw [hout]
    exact ⟨disassembly packets, hscript packets⟩

end Brfpatch
