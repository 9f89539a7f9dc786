import RoundLedger.Fault

/-!
# Account and code records

An account is stored as 48 bytes: balance (32), nonce (8) and sequence (8). Code is stored
behind a version byte and its hash. A record of any other shape is corrupt.
-/

namespace RoundLedger

/-! ## Accounts -/

structure Account where
  balance : Word := 0
  nonce : UInt64 := 0
  /-- The storage namespace, given to a contract when it is created. -/
  sequence : UInt64 := UInt64.top
  deriving DecidableEq, Repr

namespace Account

/-- The sequence of an account that never had one assigned. -/
def unassigned : UInt64 := UInt64.top

def hasSequence (a : Account) : Bool := a.sequence ≠ unassigned

def encode (a : Account) : Bytes :=
  Word.bytes a.balance ++ BigEndian.encode64 a.nonce ++ BigEndian.encode64 a.sequence

def decode (bytes : Bytes) : Except Fault Account :=
  if bytes.length = 48 then
    .ok ⟨Word.ofBytes (bytes.take 32), BigEndian.decode64 ((bytes.drop 32).take 8),
      BigEndian.decode64 (bytes.drop 40)⟩
  else .error .accountLength

@[simp] theorem length_encode (a : Account) : (encode a).length = 48 := by simp [encode]

theorem decode_encode (a : Account) : decode (encode a) = .ok a := by
  have hbalance : (Word.bytes a.balance).drop 40 = [] := List.drop_eq_nil_of_le (by simp)
  rw [decode, if_pos (length_encode a)]
  simp [encode, List.drop_append, hbalance]

theorem encode_of_decode {bytes : Bytes} {a : Account} (h : decode bytes = .ok a) :
    encode a = bytes := by
  unfold decode at h
  split at h
  · rename_i hlen
    cases h
    rw [encode, Word.bytes_ofBytes _ (by simp; omega), BigEndian.encode64_decode64 _ (by simp; omega),
      BigEndian.encode64_decode64 _ (by simp; omega)]
    have : bytes.drop 40 = (bytes.drop 32).drop 8 := by simp
    rw [this, List.append_assoc, List.take_append_drop, List.take_append_drop]
  · cases h

end Account

/-! ## Code -/

structure Code where
  hash : Digest
  body : Bytes
  deriving DecidableEq, Repr

namespace Code

def ofBody (body : Bytes) : Code := ⟨Keccak.digest body, body⟩

def version : UInt8 := 0

def encode (c : Code) : Bytes := version :: Word.bytes c.hash ++ c.body

/-- The hash is taken as it is stored. -/
def decode (bytes : Bytes) : Except Fault Code :=
  if bytes.length < 33 then .error .codeLength
  else if bytes.head? ≠ some version then .error .codeVersion
  else .ok ⟨Word.ofBytes ((bytes.drop 1).take 32), bytes.drop 33⟩

theorem decode_encode (c : Code) : decode (encode c) = .ok c := by
  rw [decode, if_neg (by simp [encode]), if_neg (by simp [encode])]
  simp [encode, List.drop_append]

theorem encode_of_decode {bytes : Bytes} {c : Code} (h : decode bytes = .ok c) :
    encode c = bytes := by
  unfold decode at h
  split at h
  · cases h
  · split at h
    · cases h
    · rename_i hlen hversion
      cases h
      cases bytes with
      | nil => simp at hlen
      | cons b rest =>
        simp only [List.head?_cons, ne_eq, Option.some.injEq, Decidable.not_not] at hversion
        subst hversion
        simp only [encode, List.drop_succ_cons, List.drop_zero]
        rw [Word.bytes_ofBytes _ (by simp at *; omega), List.cons_append, List.take_append_drop]

end Code

end RoundLedger
