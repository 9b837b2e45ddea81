import SystemBluetooth.Address.Codecs

/-!
# Addresses that are not

`parse_bdaddr` does not look at what `sscanf` returns: a byte that is not converted is what
the stack held, and the flag is set in any case. So the address is all or nothing exactly for
the strings that are the text of an address, whether an address was set before or not.
-/

namespace Patchram

open Effect

/-- A string, up to its NUL, is the text of an address. -/
def IsAddress (s : List UInt8) (t : Address.Text) : Prop := s.takeWhile (· != 0) = t.string

/-- What a string should make of the globals: the address it is the text of, or nothing. -/
structure AllOrNothing (s : List UInt8) (g h : Globals) : Prop where
  taken : ∀ t, IsAddress s t →
    h.hciWriteBdAddr = g.hciWriteBdAddr.take 4 ++ t.address.b.toList ∧ h.bdaddrFlag = true
  kept : (¬ ∃ t, IsAddress s t) →
    h.hciWriteBdAddr = g.hciWriteBdAddr ∧ h.bdaddrFlag = g.bdaddrFlag

/-- What `sscanf` stores; the other bytes are left over. -/
def converted (s : List UInt8) (stack : Nat → UInt32) : List UInt8 :=
  ((List.range 6).map fun i =>
    ((Scan.separated (Scan.hex 2) 0x3a 6 s)[5 - i]?).getD (stack i)).map UInt32.toUInt8

theorem parseBdaddr_isAddress {s : List UInt8} {t : Address.Text} (h : IsAddress s t) (w : World) :
    AllOrNothing s w.config (parseBdaddr s w).2.config := by
  have hend : ∀ c ∈ (s.dropWhile (· != 0)).head?, c = 0 := by
    intro c hc
    have hstop := List.head?_dropWhile_not (· != 0) s
    rw [Option.mem_def.mp hc] at hstop
    simpa using hstop
  constructor
  · intro t ht
    have hsplit : s = t.string ++ s.dropWhile (· != 0) := by
      rw [← ht, List.takeWhile_append_dropWhile]
    have hrun := Address.parseBdaddr_text t hend w
    rw [← hsplit] at hrun
    rw [hrun]
    exact ⟨rfl, rfl⟩
  · intro hnone
    exact absurd ⟨t, h⟩ hnone

/-- A string that is no address damages the address that was set before. -/
theorem parseBdaddr_damages {s : List UInt8} (h : ¬ ∃ t, IsAddress s t) (w : World)
    (hold : w.config.hciWriteBdAddr =
      [0x01, 0x01, 0xfc, 0x06] ++ (converted s w.stack).map (· + 1)) :
    ¬ AllOrNothing s w.config (parseBdaddr s w).2.config := by
  intro hall
  have hkept := (hall.kept h).1
  rw [parseBdaddr_apply] at hkept
  change w.config.hciWriteBdAddr.take 4 ++ converted s w.stack = _ at hkept
  rw [hold] at hkept
  have hsame := List.append_cancel_left hkept
  have hfirst := congrArg List.head? hsame
  simp [converted, List.range, List.range.loop] at hfirst

/-! ### The default address -/

/-- A file with an address: its path, the descriptor `open` returns, and 17 bytes. -/
structure DefaultFile where
  path : List UInt8
  named : path ≠ []
  fd : Nat
  content : List UInt8
  size : content.length = 17

/-- The file is there. -/
def DefaultFile.provide (file : DefaultFile) (w : World) : World :=
  { w with
    bdaddrPath := file.path
    opens := some (file.fd, file.content) :: w.opens
    bdaddrFile := .bytes file.content }

theorem readDefaultBdaddr_provide (file : DefaultFile) (w : World) :
    (readDefaultBdaddr (file.provide w)).2.config = (parseBdaddr file.content w).2.config := by
  let found := (file.provide w).afterOpen file.path
  have hfile : (file.provide w).opens.headD none = some (file.fd, file.content) := rfl
  have hopen : openFile file.path (file.provide w) =
      (.ok ((file.fd : Int), file.content), found) := openFile_some file.path hfile
  have hnamed : (file.provide w).bdaddrPath ≠ [] := file.named
  have hcount : found.bdaddrFile.count = 17 := by
    change ((file.content.length : Nat) : Int) = 17
    rw [file.size]
    rfl
  have hpath : (file.provide w).bdaddrPath = file.path := rfl
  rw [readDefaultBdaddr, gets_bind_apply, when_pos hnamed, hpath, bind_ok hopen]
  dsimp only
  rw [when_pos (Int.natCast_nonneg _), gets_bind_apply, when_pos hcount,
    bind_ok (parseBdaddr_apply _ _)]
  rfl

/-- A string and the content of the default file set all of the address or nothing exactly if
they are the text of an address, whether or not an address was set before. -/
theorem parseBdaddr_allOrNothing (s : List UInt8) (file : DefaultFile) (set : Bool) :
    ((∀ w : World, w.config.bdaddrFlag = set → w.config.hciWriteBdAddr.length = 10 →
        AllOrNothing s w.config (parseBdaddr s w).2.config) ↔ ∃ t, IsAddress s t) ∧
      ((∀ w : World, w.config.bdaddrFlag = set → w.config.hciWriteBdAddr.length = 10 →
        AllOrNothing file.content w.config (readDefaultBdaddr (file.provide w)).2.config) ↔
          ∃ t, IsAddress file.content t) := by
  have hiff (s : List UInt8) : (∀ w : World, w.config.bdaddrFlag = set →
      w.config.hciWriteBdAddr.length = 10 →
        AllOrNothing s w.config (parseBdaddr s w).2.config) ↔ ∃ t, IsAddress s t := by
    constructor
    · intro hall
      by_contra hnone
      let old := [0x01, 0x01, 0xfc, 0x06] ++ (converted s fun _ => 0).map (· + 1)
      let w := World.start { hciWriteBdAddr := old, bdaddrFlag := set } [] []
      refine parseBdaddr_damages hnone w rfl (hall w rfl ?_)
      simp [w, old, World.start, converted]
    · rintro ⟨t, ht⟩ w - -
      exact parseBdaddr_isAddress ht w
  refine ⟨hiff s, ?_⟩
  simp only [readDefaultBdaddr_provide]
  exact hiff file.content

/-- The address `00:11:22:33:44`, which lacks a group. -/
def fiveGroups : List UInt8 :=
  [0x30, 0x30, 0x3a, 0x31, 0x31, 0x3a, 0x32, 0x32, 0x3a, 0x33, 0x33, 0x3a, 0x34, 0x34]

/-- The last byte is left over from the stack, and the flag is set. -/
theorem parseBdaddr_fiveGroups :
    ¬ AllOrNothing fiveGroups {} (parseBdaddr fiveGroups (World.start {} [] [])).2.config := by
  intro hall
  have hnone : ¬ ∃ t, IsAddress fiveGroups t := by
    rintro ⟨t, ht⟩
    have hcolons := t.string_count
    rw [← ht] at hcolons
    exact absurd hcolons (by decide)
  exact absurd (hall.kept hnone).2 (by decide)

end Patchram
