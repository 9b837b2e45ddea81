import SystemBluetooth.Brfpatch.Script

/-!
# The length byte

The number of bytes that a line denotes is narrowed to the length byte of its record, and
as many bytes are written as that byte says. Up to 255 bytes this is all of them. A line
has room for more than twice as many, and nothing rejects it: the check for too much data
is about the array, which no line can fill.
-/

namespace Brfpatch

/-- Where the program finds the command of a line. -/
def Buffer.start (buffer : Buffer) : List UInt8 := buffer.bytes.dropWhile Scan.isSpace

theorem Buffer.start_length (buffer : Buffer) : buffer.start.length ≤ dataSize :=
  (List.dropWhile_sublist _).length_le.trans (Nat.le_of_eq buffer.size)

/-- No payload is dropped: a record has all the bytes that its line denotes and says how many
they are, and a line that denotes too many is rejected. -/
structure KeepsPayload (buffer : Buffer) : Prop where
  written : ∀ w t, processLine buffer.start buffer.bytes w = (.ok (), t) →
    ∃ opcode bytes len, Denotes buffer.start opcode bytes ∧ len.toNat = bytes.length ∧
      t.out = w.out ++
        (0x01 :: LittleEndian.encode 2 opcode.toUInt16.toNat ++ (len : UInt8) :: bytes)
  rejected : ∀ opcode bytes, Denotes buffer.start opcode bytes → 256 ≤ bytes.length →
    ∀ w, ∃ message string t,
      processLine buffer.start buffer.bytes w = (.error (.failed message string), t)

/-- A line that denotes too many bytes is accepted all the same. -/
theorem KeepsPayload.short {buffer : Buffer} (h : KeepsPayload buffer) {opcode : UInt32}
    {bytes : List UInt8} (hbytes : Denotes buffer.start opcode bytes) : bytes.length ≤ 255 := by
  by_contra hlong
  let w : State := ⟨buffer, fun _ _ => 0, []⟩
  have haccepted : processLine buffer.start buffer.bytes w = (.ok (),
      { w with stack := fun n => w.stack (n + 1), out := w.out ++ record opcode bytes }) :=
    (processLine_eq_ok buffer.start_length).mpr ⟨opcode, bytes, hbytes, rfl⟩
  obtain ⟨message, string, t, hrejected⟩ := h.rejected opcode bytes hbytes (by omega) w
  rw [haccepted] at hrejected
  cases hrejected

/-- No payload is dropped exactly if the line denotes at most 255 bytes. -/
theorem processLine_keepsPayload (buffer : Buffer) : KeepsPayload buffer ↔
    ∀ opcode bytes, Denotes buffer.start opcode bytes → bytes.length ≤ 255 := by
  refine ⟨fun h opcode bytes hbytes => h.short hbytes, fun hshort => ⟨fun w t hrun => ?_, ?_⟩⟩
  · obtain ⟨opcode, bytes, hbytes, rfl⟩ := (processLine_eq_ok buffer.start_length).mp hrun
    have hlen : (UInt8.ofNat bytes.length).toNat = bytes.length :=
      UInt8.toNat_ofNat_of_lt' (Nat.lt_succ_of_le (hshort opcode bytes hbytes))
    refine ⟨opcode, bytes, UInt8.ofNat bytes.length, hbytes, hlen, ?_⟩
    rw [record, hlen, List.take_length]
  · intro opcode bytes hbytes hlong
    exact absurd (hshort opcode bytes hbytes) (by omega)

/-! ### A line that is too long -/

/-- `Send_ 0x0000` and 32 literals of 16 digits. -/
def longCommand : Command where
  indent := []
  name := []
  named := by simp
  gap := ⟨space, []⟩
  opcode := List.replicate 4 zero
  four := rfl
  args := List.replicate 32 (⟨space, []⟩, .literal (List.replicate 16 zero) (by decide))
  trailing := []

def longLine : Line := ⟨longCommand.text ++ [0x0a], by decide +kernel⟩

def longBuffer : Buffer := Buffer.load ⟨List.replicate 1024 0, List.length_replicate⟩ longLine

/-- The 256 bytes are written as a record without data. -/
theorem longBuffer_dropsPayload : ¬ KeepsPayload longBuffer := by
  intro h
  obtain ⟨tail, htail, hbytes⟩ := load_bytes ⟨List.replicate 1024 0, List.length_replicate⟩
    (show longLine.bytes = longCommand.text ++ [0x0a] from rfl) (Or.inr rfl)
  obtain ⟨opcode, hdenotes, _⟩ := longCommand.denotes htail
  have hstart : longBuffer.start = longCommand.body ++ tail := by
    rw [Buffer.start, longBuffer, hbytes]
    exact List.dropWhile_cons_of_neg (by decide)
  have hshort := h.short (hstart ▸ hdenotes)
  revert hshort
  decide +kernel

end Brfpatch
