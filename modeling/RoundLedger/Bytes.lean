/-!
# Byte strings and fixed-width numbers

A number of a given width is written as that many bytes, most significant first or
last. `decode_encode` and `encode_decode` say that each form holds exactly the
numbers below `limit`.
-/

namespace RoundLedger

abbrev Bytes := List UInt8

/-! ## Most significant byte first -/

namespace BigEndian

/-- The low `width` bytes of `n`. Higher bytes are dropped. -/
def encode : Nat → Nat → Bytes
  | 0, _ => []
  | width + 1, n => UInt8.ofNat (n >>> (8 * width)) :: encode width n

def decode (bytes : Bytes) : Nat :=
  bytes.foldl (fun n b => n * 256 + b.toNat) 0

def limit : Nat → Nat
  | 0 => 1
  | width + 1 => 256 * limit width

@[simp] theorem length_encode (width n : Nat) : (encode width n).length = width := by
  induction width with
  | zero => rfl
  | succ width ih => simp [encode, ih]

theorem limit_pos (width : Nat) : 0 < limit width := by
  induction width with
  | zero => decide
  | succ width ih =>
    rw [limit]
    omega

private theorem shiftRight_eq_div (n width : Nat) : n >>> (8 * width) = n / limit width := by
  induction width generalizing n with
  | zero => simp [limit]
  | succ width ih =>
    have hsplit : 8 * (width + 1) = 8 + 8 * width := by omega
    rw [hsplit, Nat.shiftRight_add, ih, limit, ← Nat.div_div_eq_div_mul,
      Nat.shiftRight_eq_div_pow]

private theorem foldl_eq (bytes : Bytes) (start : Nat) :
    bytes.foldl (fun n b => n * 256 + b.toNat) start = start * limit bytes.length + decode bytes := by
  induction bytes generalizing start with
  | nil => simp [decode, limit]
  | cons b rest ih =>
    simp only [decode, List.foldl_cons, List.length_cons, limit]
    rw [ih, ih (0 * 256 + b.toNat), Nat.zero_mul, Nat.zero_add, Nat.add_mul, Nat.mul_assoc,
      Nat.add_assoc]

theorem decode_cons (b : UInt8) (rest : Bytes) :
    decode (b :: rest) = b.toNat * limit rest.length + decode rest := by
  rw [decode, List.foldl_cons, foldl_eq, Nat.zero_mul, Nat.zero_add]

theorem decode_lt (bytes : Bytes) : decode bytes < limit bytes.length := by
  induction bytes with
  | nil => simp [decode, limit]
  | cons b rest ih =>
    rw [decode_cons, List.length_cons, limit]
    have hb := b.toNat_lt
    calc b.toNat * limit rest.length + decode rest
        < b.toNat * limit rest.length + limit rest.length := by omega
      _ = (b.toNat + 1) * limit rest.length := by rw [Nat.add_mul, Nat.one_mul]
      _ ≤ 256 * limit rest.length := Nat.mul_le_mul_right _ (by omega)

theorem decode_encode (width n : Nat) : decode (encode width n) = n % limit width := by
  induction width with
  | zero => simp [encode, decode, limit, Nat.mod_one]
  | succ width ih =>
    rw [encode, decode_cons, length_encode, ih, shiftRight_eq_div, UInt8.toNat_ofNat', limit,
      Nat.mul_comm 256, Nat.mod_mul, Nat.add_comm, Nat.mul_comm]

theorem encode_decode (bytes : Bytes) : encode bytes.length (decode bytes) = bytes := by
  suffices h : ∀ k, encode bytes.length (k * limit bytes.length + decode bytes) = bytes by
    simpa using h 0
  induction bytes with
  | nil => intro k; rfl
  | cons b rest ih =>
    intro k
    have hsplit : k * limit (rest.length + 1) + decode (b :: rest)
        = (k * 256 + b.toNat) * limit rest.length + decode rest := by
      rw [decode_cons, limit, Nat.add_mul, Nat.mul_assoc]
      omega
    simp only [List.length_cons, encode]
    rw [hsplit, ih, shiftRight_eq_div, Nat.mul_comm, Nat.mul_add_div (limit_pos _),
      Nat.div_eq_of_lt (decode_lt rest)]
    congr 1
    apply UInt8.toNat_inj.1
    have hb := b.toNat_lt
    rw [UInt8.toNat_ofNat']
    omega

/-- A number that fits its width can be read back. -/
theorem encode_inj {width m n : Nat} (hm : m < limit width) (hn : n < limit width)
    (h : encode width m = encode width n) : m = n := by
  have := congrArg decode h
  rwa [decode_encode, decode_encode, Nat.mod_eq_of_lt hm, Nat.mod_eq_of_lt hn] at this

end BigEndian

/-! ## Least significant byte first -/

namespace LittleEndian

def encode (width n : Nat) : Bytes := (BigEndian.encode width n).reverse

def decode (bytes : Bytes) : Nat := BigEndian.decode bytes.reverse

@[simp] theorem length_encode (width n : Nat) : (encode width n).length = width := by
  simp [encode]

theorem decode_encode (width n : Nat) : decode (encode width n) = n % BigEndian.limit width := by
  simp [encode, decode, BigEndian.decode_encode]

theorem encode_decode (bytes : Bytes) : encode bytes.length (decode bytes) = bytes := by
  have := BigEndian.encode_decode bytes.reverse
  rw [List.length_reverse] at this
  simp [encode, decode, this]

end LittleEndian

/-! ## Shaping -/

namespace Bytes

/-- The `width` bytes from `start` on, with zeros for those past the end. -/
def window (bytes : Bytes) (start width : Nat) : Bytes :=
  let present := (bytes.drop start).take width
  present ++ List.replicate (width - present.length) 0

def padLeft (bytes : Bytes) (width : Nat) : Bytes :=
  List.replicate (width - bytes.length) 0 ++ bytes

@[simp] theorem length_window (bytes : Bytes) (start width : Nat) :
    (window bytes start width).length = width := by
  rw [window, List.length_append, List.length_replicate, List.length_take]
  omega

/-- Consecutive pieces of `size` bytes; the last one may be shorter. -/
def chunks (size : Nat) (bytes : Bytes) : List Bytes :=
  if size = 0 ∨ bytes = [] then [] else bytes.take size :: chunks size (bytes.drop size)
termination_by bytes.length
decreasing_by
  cases bytes with
  | nil => simp_all
  | cons b rest => simp at *; omega

def xor (a b : Bytes) : Bytes := a.zipWith (· ^^^ ·) b

end Bytes

/-! ## Hexadecimal text -/

namespace Hex

def digit (n : Nat) : Char :=
  if n < 10 then Char.ofNat (48 + n) else Char.ofNat (87 + n)

/-- Two digits a byte. -/
def digits (bytes : Bytes) : List Char :=
  bytes.flatMap fun b => [digit (b.toNat / 16), digit (b.toNat % 16)]

def text (bytes : Bytes) : String := String.ofList ('0' :: 'x' :: digits bytes)

def value? (c : Char) : Option Nat :=
  if '0' ≤ c ∧ c ≤ '9' then some (c.toNat - 48)
  else if 'a' ≤ c ∧ c ≤ 'f' then some (c.toNat - 87)
  else if 'A' ≤ c ∧ c ≤ 'F' then some (c.toNat - 55)
  else none

def ofDigits? : List Char → Option Bytes
  | [] => some []
  | [_] => none
  | high :: low :: rest => do
    some (UInt8.ofNat (16 * (← value? high) + (← value? low)) :: (← ofDigits? rest))

/-- The bytes that a text with `0x` in front stands for. -/
def ofText? (text : String) : Option Bytes :=
  match text.toList with
  | '0' :: 'x' :: digits => ofDigits? digits
  | _ => none

/-- A number without leading zeros behind `0x`; zero is `0x0`. -/
def minimal (n : Nat) : String := String.ofList ('0' :: 'x' :: Nat.toDigits 16 n)

end Hex

end RoundLedger
