import RoundLedger.Transaction

/-!
# Stored queue entries

A transaction as bytes: counts are 8 bytes, least significant first, and every string of bytes
follows its length. Reading takes the fields one after the other and leaves what is behind the
last one alone.
-/

namespace RoundLedger.Entry

/-! ## Writing -/

def count (n : UInt64) : Bytes := LittleEndian.encode 8 n.toNat

def block (bytes : Bytes) : Bytes := LittleEndian.encode 8 bytes.length ++ bytes

def destination : Option Address → Bytes
  | none => [0]
  | some address => 1 :: block (Address.bytes address)

def encode (tx : Transaction) : Bytes :=
  block (Address.bytes tx.sender) ++ destination tx.destination ++ count tx.nonce
    ++ block (Word.bytes tx.value) ++ block (Word.bytes tx.gasPrice) ++ count tx.gasLimit
    ++ block tx.data ++ count tx.height

/-! ## Reading -/

/-- Takes a value off the front of the bytes. -/
abbrev Reader (α : Type) := Bytes → Option (α × Bytes)

def take (size : Nat) : Reader Bytes := fun bytes =>
  if size ≤ bytes.length then some (bytes.take size, bytes.drop size) else none

def readCount : Reader UInt64 := fun bytes => do
  let (digits, rest) ← take 8 bytes
  some (UInt64.ofNat (LittleEndian.decode digits), rest)

def readBlock : Reader Bytes := fun bytes => do
  let (digits, rest) ← take 8 bytes
  take (LittleEndian.decode digits) rest

def readFixed (size : Nat) : Reader Bytes := fun bytes => do
  let (block, rest) ← readBlock bytes
  if block.length = size then some (block, rest) else none

def readDestination : Reader (Option Address)
  | 0 :: rest => some (none, rest)
  | 1 :: rest => do
    let (address, rest) ← readFixed 20 rest
    some (some (Address.ofBytes address), rest)
  | _ => none

/-- The transaction, or nothing when the bytes are not of this form. -/
def decode (bytes : Bytes) : Option Transaction := do
  let (sender, rest) ← readFixed 20 bytes
  let (destination, rest) ← readDestination rest
  let (nonce, rest) ← readCount rest
  let (value, rest) ← readFixed 32 rest
  let (gasPrice, rest) ← readFixed 32 rest
  let (gasLimit, rest) ← readCount rest
  let (data, rest) ← readBlock rest
  let (height, _) ← readCount rest
  some
    { sender := Address.ofBytes sender, destination, nonce, value := Word.ofBytes value,
      gasPrice := Word.ofBytes gasPrice, gasLimit, data, height }

/-! ## Round trip -/

theorem take_append (bytes rest : Bytes) : take bytes.length (bytes ++ rest) = some (bytes, rest) := by
  simp [take]

theorem readCount_count (n : UInt64) (rest : Bytes) : readCount (count n ++ rest) = some (n, rest) := by
  have htake : take 8 (count n ++ rest) = some (count n, rest) := by
    simpa [count] using take_append (count n) rest
  have hvalue : UInt64.ofNat (LittleEndian.decode (count n)) = n := by
    apply UInt64.toNat_inj.1
    have hlt := n.toNat_lt
    have hsize : BigEndian.limit 8 = 2 ^ 64 := rfl
    rw [count, LittleEndian.decode_encode, UInt64.toNat_ofNat', hsize]
    omega
  simp [readCount, htake, hvalue]

theorem readBlock_block (bytes rest : Bytes) (h : bytes.length < UInt64.size) :
    readBlock (block bytes ++ rest) = some (bytes, rest) := by
  have htake : take 8 (block bytes ++ rest) = some (LittleEndian.encode 8 bytes.length, bytes ++ rest) := by
    simpa [block] using take_append (LittleEndian.encode 8 bytes.length) (bytes ++ rest)
  have hlength : LittleEndian.decode (LittleEndian.encode 8 bytes.length) = bytes.length := by
    exact LittleEndian.decode_encode .. |>.trans (Nat.mod_eq_of_lt h)
  simp [readBlock, htake, hlength, take_append]

theorem readFixed_block (bytes rest : Bytes) (h : bytes.length < UInt64.size) :
    readFixed bytes.length (block bytes ++ rest) = some (bytes, rest) := by
  simp [readFixed, readBlock_block bytes rest h]

theorem readDestination_destination (to? : Option Address) (rest : Bytes) :
    readDestination (destination to? ++ rest) = some (to?, rest) := by
  cases to? with
  | none => rfl
  | some address =>
    have hfixed := readFixed_block (Address.bytes address) rest (by simp [UInt64.size])
    rw [Address.length_bytes] at hfixed
    simp [readDestination, destination, hfixed]

/-- What is stored can be read back, whatever stands behind it. -/
theorem decode_encode (tx : Transaction) (rest : Bytes) (h : tx.data.length < UInt64.size) :
    decode (encode tx ++ rest) = some tx := by
  have hsender := fun rest => readFixed_block (Address.bytes tx.sender) rest (by simp [UInt64.size])
  have hvalue := fun rest => readFixed_block (Word.bytes tx.value) rest (by simp [UInt64.size])
  have hprice := fun rest => readFixed_block (Word.bytes tx.gasPrice) rest (by simp [UInt64.size])
  rw [Address.length_bytes] at hsender
  rw [Word.length_bytes] at hvalue hprice
  simp [decode, encode, hsender, readDestination_destination, readCount_count, hvalue, hprice,
    readBlock_block _ _ h]

end RoundLedger.Entry
