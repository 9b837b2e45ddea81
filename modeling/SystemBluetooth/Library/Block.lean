import Mathlib.Data.List.Basic

/-!
# Length-prefixed blocks

A block is two header bytes, a length byte and that many bytes of payload. The
payload bound is a field, so the length byte of a block always fits. `encode` and
`decode` convert between blocks and bytes; `decodeAll` reads a concatenation of
marked blocks and fails on anything left over.
-/

/-- Two header bytes and a payload whose length one byte can hold. -/
structure Block where
  first : UInt8
  second : UInt8
  payload : List UInt8
  short : payload.length < 256
  deriving DecidableEq

namespace Block

/-- The length byte. -/
def size (b : Block) : UInt8 := UInt8.ofNat b.payload.length

@[simp] theorem toNat_size (b : Block) : b.size.toNat = b.payload.length :=
  UInt8.toNat_ofNat_of_lt' b.short

def encode (b : Block) : List UInt8 := b.first :: b.second :: b.size :: b.payload

@[simp] theorem length_encode (b : Block) : b.encode.length = b.payload.length + 3 := rfl

/-- The block at the front of some bytes, and what follows it. -/
def decode : List UInt8 → Option (Block × List UInt8)
  | first :: second :: size :: rest =>
      if h : size.toNat ≤ rest.length then
        some (⟨first, second, rest.take size.toNat, by
          have := size.toNat_lt
          rw [List.length_take]
          omega⟩, rest.drop size.toNat)
      else none
  | _ => none

/-- What was encoded is decoded, whatever follows. -/
theorem decode_encode (b : Block) (rest : List UInt8) :
    decode (b.encode ++ rest) = some (b, rest) := by
  have hle : b.size.toNat ≤ (b.payload ++ rest).length := by simp
  simp only [encode, List.cons_append, decode, dif_pos hle]
  simp only [toNat_size, List.take_left, List.drop_left]

/-- Only an encoding is decoded. -/
theorem encode_of_decode {bytes rest : List UInt8} {b : Block}
    (h : decode bytes = some (b, rest)) : bytes = b.encode ++ rest := by
  unfold decode at h
  split at h
  · rename_i first second size tail
    split at h
    · rename_i hle
      simp only [Option.some.injEq, Prod.mk.injEq] at h
      obtain ⟨rfl, rfl⟩ := h
      have hsize : UInt8.ofNat (tail.take size.toNat).length = size := by
        rw [List.length_take, Nat.min_eq_left hle, UInt8.ofNat_toNat]
      simp only [encode, Block.size, hsize, List.cons_append, List.take_append_drop]
    · exact absurd h (by simp)
  · exact absurd h (by simp)

/-- A header and as many bytes as it says are one block. -/
theorem decode_exact (x y z : UInt8) {payload : List UInt8} (h : payload.length = z.toNat) :
    (decode (x :: y :: z :: payload)).map Prod.snd = some [] := by
  rw [decode, dif_pos (by omega)]
  simp [h]

theorem decode_length {bytes rest : List UInt8} {b : Block}
    (h : decode bytes = some (b, rest)) : rest.length < bytes.length := by
  rw [encode_of_decode h, List.length_append, length_encode]
  omega

/-- A concatenation of blocks, each behind a `marker` byte. -/
def encodeAll (marker : UInt8) (bs : List Block) : List UInt8 :=
  bs.flatMap fun b => marker :: b.encode

theorem encodeAll_append (marker : UInt8) (as bs : List Block) :
    encodeAll marker (as ++ bs) = encodeAll marker as ++ encodeAll marker bs :=
  List.flatMap_append

/-- The blocks of a concatenation of marked blocks; `none` if the bytes are not one. -/
def decodeAll (marker : UInt8) : List UInt8 → Option (List Block)
  | [] => some []
  | m :: bytes =>
      if m = marker then
        match h : decode bytes with
        | none => none
        | some (b, rest) =>
            have := decode_length h
            (decodeAll marker rest).map (b :: ·)
      else none
termination_by bytes => bytes.length
decreasing_by exact Nat.lt_succ_of_lt this

theorem decodeAll_nil (marker : UInt8) : decodeAll marker [] = some [] := by
  rw [decodeAll]

theorem decodeAll_cons (marker : UInt8) (b : Block) (rest : List UInt8) :
    decodeAll marker (marker :: b.encode ++ rest) = (decodeAll marker rest).map (b :: ·) := by
  rw [List.cons_append, decodeAll, if_pos rfl]
  split
  · rename_i h
    rw [decode_encode] at h
    exact absurd h (by simp)
  · rename_i h
    rw [decode_encode] at h
    obtain ⟨rfl, rfl⟩ : _ ∧ _ := by simpa using h
    rfl

/-- The concatenation consumes entirely and yields the blocks in order. -/
theorem decodeAll_encodeAll (marker : UInt8) (bs : List Block) :
    decodeAll marker (encodeAll marker bs) = some bs := by
  induction bs with
  | nil => exact decodeAll_nil marker
  | cons b bs ih =>
      change decodeAll marker (marker :: b.encode ++ encodeAll marker bs) = _
      rw [decodeAll_cons, ih, Option.map_some]

end Block
