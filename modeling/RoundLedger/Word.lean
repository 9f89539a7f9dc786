import RoundLedger.Bytes

/-!
# Words, digests and addresses

Amounts and hashes have 256 bits, addresses 160. Their `+` and `-` wrap around; the
operations that stop at the largest value, or refuse to pass it, are below. The same
operations on 64-bit counts are here too.
-/

namespace RoundLedger

abbrev Word := BitVec 256

/-- A hash of 256 bits, also the name of a storage slot or a log topic. -/
abbrev Digest := BitVec 256

abbrev Address := BitVec 160

/-! ## Order -/

instance : Std.TransOrd Address := inferInstance

instance : Std.LawfulEqOrd Address := inferInstance

namespace Word

def bytes (w : Word) : Bytes := BigEndian.encode 32 w.toNat

def ofBytes (bytes : Bytes) : Word := BitVec.ofNat 256 (BigEndian.decode bytes)

@[simp] theorem length_bytes (w : Word) : (bytes w).length = 32 := by simp [bytes]

@[simp] theorem ofBytes_bytes (w : Word) : ofBytes (bytes w) = w := by
  apply BitVec.eq_of_toNat_eq
  have h := w.isLt
  have hsize : BigEndian.limit 32 = 2 ^ 256 := rfl
  simp only [ofBytes, bytes, BitVec.toNat_ofNat, BigEndian.decode_encode, hsize]
  omega

theorem toNat_ofBytes {bytes : Bytes} (h : bytes.length = 32) :
    (ofBytes bytes).toNat = BigEndian.decode bytes := by
  have hlt := BigEndian.decode_lt bytes
  rw [h] at hlt
  exact BitVec.toNat_ofNat .. |>.trans (Nat.mod_eq_of_lt hlt)

theorem bytes_ofBytes (bytes : Bytes) (h : bytes.length = 32) :
    Word.bytes (ofBytes bytes) = bytes := by
  rw [Word.bytes, toNat_ofBytes h, ← h, BigEndian.encode_decode]

theorem bytes_inj {v w : Word} (h : bytes v = bytes w) : v = w := by
  rw [← ofBytes_bytes v, h, ofBytes_bytes]

end Word

namespace Address

def bytes (a : Address) : Bytes := BigEndian.encode 20 a.toNat

def ofBytes (bytes : Bytes) : Address := BitVec.ofNat 160 (BigEndian.decode bytes)

@[simp] theorem length_bytes (a : Address) : (bytes a).length = 20 := by simp [bytes]

@[simp] theorem ofBytes_bytes (a : Address) : ofBytes (bytes a) = a := by
  apply BitVec.eq_of_toNat_eq
  have h := a.isLt
  have hsize : BigEndian.limit 20 = 2 ^ 160 := rfl
  simp only [ofBytes, bytes, BitVec.toNat_ofNat, BigEndian.decode_encode, hsize]
  omega

theorem bytes_inj {a b : Address} (h : bytes a = bytes b) : a = b := by
  rw [← ofBytes_bytes a, h, ofBytes_bytes]

/-- The address in the low 20 bytes of a word. -/
def word (a : Address) : Word := a.setWidth 256

end Address

namespace BigEndian

def encode64 (n : UInt64) : Bytes := encode 8 n.toNat

def decode64 (bytes : Bytes) : UInt64 := UInt64.ofNat (decode bytes)

@[simp] theorem length_encode64 (n : UInt64) : (encode64 n).length = 8 := by simp [encode64]

@[simp] theorem decode64_encode64 (n : UInt64) : decode64 (encode64 n) = n := by
  apply UInt64.toNat_inj.1
  have h := n.toNat_lt
  have hsize : limit 8 = 2 ^ 64 := rfl
  simp only [decode64, encode64, decode_encode, UInt64.toNat_ofNat', hsize]
  omega

theorem toNat_decode64 {bytes : Bytes} (h : bytes.length = 8) :
    (decode64 bytes).toNat = decode bytes := by
  have hlt := decode_lt bytes
  rw [h] at hlt
  exact UInt64.toNat_ofNat' .. |>.trans (Nat.mod_eq_of_lt hlt)

theorem encode64_decode64 (bytes : Bytes) (h : bytes.length = 8) :
    encode64 (decode64 bytes) = bytes := by
  rw [encode64, toNat_decode64 h, ← h, encode_decode]

theorem encode64_inj {m n : UInt64} (h : encode64 m = encode64 n) : m = n := by
  rw [← decode64_encode64 m, h, decode64_encode64]

end BigEndian

end RoundLedger

/-! ## Arithmetic at the edge, and the order of counts -/

namespace BitVec

/-- The sum, or the largest value when it would be passed. -/
def addCapped {width : Nat} (x y : BitVec width) : BitVec width :=
  if x.uaddOverflow y then BitVec.allOnes width else x + y

/-- The product, or the largest value when it would be passed. -/
def mulCapped {width : Nat} (x y : BitVec width) : BitVec width :=
  if x.umulOverflow y then BitVec.allOnes width else x * y

/-- The product, unless it passes the largest value. -/
def mul? {width : Nat} (x y : BitVec width) : Option (BitVec width) :=
  if x.umulOverflow y then none else some (x * y)

end BitVec

namespace UInt64

instance transOrd : Std.TransOrd UInt64 := inferInstance

instance lawfulEqOrd : Std.LawfulEqOrd UInt64 := inferInstance

def top : UInt64 := 0xffffffffffffffff

/-- The sum, or the largest count when it would be passed. -/
def addCapped (x y : UInt64) : UInt64 :=
  if x.toNat + y.toNat < UInt64.size then x + y else top

/-- The difference, or zero. -/
def subFloor (x y : UInt64) : UInt64 :=
  if y ≤ x then x - y else 0

/-- The product, or the largest count when it would be passed. -/
def mulCapped (x y : UInt64) : UInt64 :=
  if x.toNat * y.toNat < UInt64.size then x * y else top

/-- The sum, unless it passes the largest count. -/
def add? (x y : UInt64) : Option UInt64 :=
  if x.toNat + y.toNat < UInt64.size then some (x + y) else none

/-- The product, unless it passes the largest count. -/
def mul? (x y : UInt64) : Option UInt64 :=
  if x.toNat * y.toNat < UInt64.size then some (x * y) else none

theorem toNat_addCapped (x y : UInt64) :
    (addCapped x y).toNat = min (x.toNat + y.toNat) (UInt64.size - 1) := by
  unfold addCapped UInt64.size
  split
  · rw [UInt64.toNat_add]; omega
  · simp [top]; omega

theorem toNat_subFloor (x y : UInt64) : (subFloor x y).toNat = x.toNat - y.toNat := by
  unfold subFloor
  split <;> rename_i h
  · exact UInt64.toNat_sub_of_le _ _ h
  · rw [UInt64.le_iff_toNat_le] at h
    simp; omega

theorem toNat_mulCapped (x y : UInt64) :
    (mulCapped x y).toNat = min (x.toNat * y.toNat) (UInt64.size - 1) := by
  unfold mulCapped UInt64.size
  split
  · rw [UInt64.toNat_mul]; omega
  · simp [top]; omega

theorem toNat_add_ofNat {x : UInt64} {n : Nat} (h : x.toNat + n < UInt64.size) :
    (x + UInt64.ofNat n).toNat = x.toNat + n := by
  have hsize : UInt64.size = 2 ^ 64 := rfl
  rw [UInt64.toNat_add, UInt64.toNat_ofNat']
  omega

end UInt64
