import RoundLedger.Hash.Keccak

/-!
# Addresses as text, and the addresses of created contracts
-/

namespace RoundLedger.Address

def capitalize (letter : Char) (nibble : Nat) : Char :=
  if 8 ≤ nibble ∧ 'a' ≤ letter then Char.ofNat (letter.toNat - 32) else letter

/-- The address with its checksum written into the case of its letters. The checksum is the
hash of the lower-case digits. -/
def text (a : Address) : String :=
  let digits := Hex.digits (bytes a)
  let hash := Keccak.hash (digits.map fun c => UInt8.ofNat c.toNat)
  let nibbles := hash.flatMap fun b => [b.toNat / 16, b.toNat % 16]
  String.ofList ('0' :: 'x' :: digits.zipWith capitalize nibbles)

/-- The item of a list that stands for a count: no leading zeros, and one byte below 128 is
its own item. -/
def countItem (n : UInt64) : Bytes :=
  if n = 0 then [0x80]
  else if n < 128 then [n.toUInt8]
  else
    let significant := (BigEndian.encode64 n).dropWhile (· = 0)
    UInt8.ofNat (0x80 + significant.length) :: significant

/-- The address of the contract that `sender` creates with transaction `nonce`: the low 20
bytes of the hash of the list of the two. -/
def created (sender : Address) (nonce : UInt64) : Address :=
  let items := 0x94 :: bytes sender ++ countItem nonce
  (Keccak.digest (UInt8.ofNat (0xc0 + items.length) :: items)).setWidth 160

def firstByte (a : Address) : UInt8 := UInt8.ofNat (a.toNat >>> 152)

theorem bytes_head (a : Address) : (bytes a).head? = some (firstByte a) := rfl

end RoundLedger.Address
