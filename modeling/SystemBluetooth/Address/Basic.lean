import SystemBluetooth.Library.Groups

/-!
# Addresses and their text

`ba2str` and `str2ba` of the daemon's library and `get_bdaddr` of the socket test. A pointer
into a string is the list of the bytes from there to the end of its memory; it points to no
string if there is no NUL ahead, and to read a number there is undefined: `none`.
-/

namespace Address

/-- `bdaddr_t`. -/
structure Bdaddr where
  b : Vector UInt8 6
  deriving DecidableEq

/-! ### Printing -/

def upperDigit (n : Nat) : UInt8 := UInt8.ofNat (if n < 10 then 0x30 + n else 0x37 + n)

/-- `%2.2X` for a byte: always two digits. -/
def printByte (x : UInt8) : List UInt8 := [upperDigit (x.toNat / 16), upperDigit (x.toNat % 16)]

/-- What `sprintf` returns, and the string it writes with its NUL. -/
def ba2str (ba : Bdaddr) : Int × List UInt8 :=
  let str := [0x3a].intercalate [printByte ba.b[5], printByte ba.b[4], printByte ba.b[3],
    printByte ba.b[2], printByte ba.b[1], printByte ba.b[0]]
  (str.length, str ++ [0])

/-! ### Reading -/

/-- `for (i = 5; i >= 0; i--)`, for the values of `i` that are left. -/
def str2baLoop : List (Fin 6) → List UInt8 → Bdaddr → Option Bdaddr
  | [], _, ba => some ba
  | i :: is, str, ba =>
      if 0 ∉ str then none
      else
        let (value, str) := Scan.strtoul str
        str2baLoop is str.tail ⟨ba.b.set i value.toUInt8⟩

def str2ba (str : List UInt8) (ba : Bdaddr) : Option (Int × Bdaddr) :=
  (str2baLoop [5, 4, 3, 2, 1, 0] str ba).map fun ba => (0, ba)

/-- `for(i = 0; i < 6; i++)`; the pointer `d` goes down as `i` goes up. -/
def getBdaddrLoop : List (Fin 6) → List UInt8 → Bdaddr → Option (Int × Bdaddr)
  | [], _, ba => some (0, ba)
  | i :: is, str, ba =>
      if 0 ∉ str then none
      else
        let (value, endp) := Scan.strtol str
        let ba : Bdaddr := ⟨ba.b.set (5 - i : Fin 6) (UInt8.ofInt value)⟩
        if endp.head? ≠ some 0x3a ∧ i ≠ 5 then some (-1, ⟨Vector.replicate 6 0⟩)
        else getBdaddrLoop is endp.tail ba

def getBdaddr (str : List UInt8) (ba : Bdaddr) : Option (Int × Bdaddr) :=
  getBdaddrLoop [0, 1, 2, 3, 4, 5] str ba

/-- The address with one byte written. -/
def Bdaddr.store (ba : Bdaddr) (i : Fin 6) (x : UInt8) : Bdaddr := ⟨ba.b.set i x⟩

/-! ### The text of an address -/

/-- Six groups of one or two hexadecimal digits. -/
@[ext]
structure Text where
  groups : List (Scan.Group 2)
  six : groups.length = 6
  deriving DecidableEq

namespace Text

def string (t : Text) : List UInt8 := Scan.joined 0x3a t.groups

/-- The first group is the last byte. -/
def address (t : Text) : Bdaddr where
  b := ⟨(t.groups.map fun g => UInt8.ofNat g.value).reverse.toArray, by simp [t.six]⟩

end Text

end Address
