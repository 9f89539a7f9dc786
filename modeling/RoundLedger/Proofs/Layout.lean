import RoundLedger.Account

/-!
# The layout of records

The records of accounts and of code are exact: what is written is read back, and a byte string is the record of what
it is read as, or a fault. All parts stand at fixed places, numbers with the most significant byte first, and what is
read is the whole number that stands there.
-/

namespace RoundLedger

/-! ## Accounts -/

namespace Account

/-- What stands where in the record of an account. -/
structure LaidOut (a : Account) (record : Bytes) : Prop where
  length : record.length = 48
  balance : a.balance.toNat = BigEndian.decode (record.extract 0 32)
  nonce : a.nonce.toNat = BigEndian.decode (record.extract 32 40)
  sequence : a.sequence.toNat = BigEndian.decode (record.extract 40 48)

theorem decode_of_length_ne {record : Bytes} (h : record.length ≠ 48) : decode record = .error .accountLength :=
  if_neg h

theorem decode_of_length {record : Bytes} (h : record.length = 48) : ∃ a, decode record = .ok a ∧ a.LaidOut record := by
  -- the last part is read up to the end, wherever that is
  have hlast : record.extract 40 48 = record.drop 40 := List.take_of_length_le (by simp; omega)
  have hdecode : decode record = .ok ⟨Word.ofBytes (record.extract 0 32),
      BigEndian.decode64 (record.extract 32 40), BigEndian.decode64 (record.extract 40 48)⟩ := by
    rw [hlast]
    exact if_pos h
  exact ⟨_, hdecode, {
    length := h
    balance := Word.toNat_ofBytes (by simp; omega)
    nonce := BigEndian.toNat_decode64 (by simp; omega)
    sequence := BigEndian.toNat_decode64 (by simp; omega) }⟩

example : (encode ⟨0x0102, 5, 0x0a0b⟩).drop 30 = [1, 2, 0, 0, 0, 0, 0, 0, 0, 5, 0, 0, 0, 0, 0, 0, 0x0a, 0x0b] := by
  decide

end Account

/-! ## Code -/

namespace Code

/-- What stands where in the record of code. All that is behind the hash is the code. -/
structure LaidOut (c : Code) (record : Bytes) : Prop where
  length : 33 ≤ record.length
  version : record.head? = some 0
  hash : c.hash.toNat = BigEndian.decode (record.extract 1 33)
  body : c.body = record.drop 33

theorem decode_of_short {record : Bytes} (h : record.length < 33) : decode record = .error .codeLength := if_pos h

theorem decode_of_version_ne {record : Bytes} (hlength : 33 ≤ record.length) (h : record.head? ≠ some 0) :
    decode record = .error .codeVersion := by
  rw [decode, if_neg (Nat.not_lt.2 hlength)]
  exact if_pos h

theorem decode_of_version {record : Bytes} (hlength : 33 ≤ record.length) (h : record.head? = some 0) :
    ∃ c, decode record = .ok c ∧ c.LaidOut record := by
  have hdecode : decode record = .ok ⟨Word.ofBytes (record.extract 1 33), record.drop 33⟩ := by
    rw [decode, if_neg (Nat.not_lt.2 hlength)]
    exact if_neg (not_not_intro h)
  exact ⟨_, hdecode, {
    length := hlength
    version := h
    hash := Word.toNat_ofBytes (by simp; omega)
    body := rfl }⟩

end Code

/-- Every account and all code is read back from its record, and a byte string that is long enough, and of the known
version where it is code, is the record of what is read. Of any other, reading stops with what is wrong with it. -/
theorem records_exact :
    (∀ a : Account, Account.decode a.encode = .ok a) ∧
    (∀ record : Bytes, if record.length = 48
      then ∃ a, Account.decode record = .ok a ∧ a.encode = record ∧ a.LaidOut record
      else Account.decode record = .error .accountLength) ∧
    (∀ c : Code, Code.decode c.encode = .ok c) ∧
    ∀ record : Bytes, if 33 ≤ record.length ∧ record.head? = some 0
      then ∃ c, Code.decode record = .ok c ∧ c.encode = record ∧ c.LaidOut record
      else Code.decode record = .error (if record.length < 33 then .codeLength else .codeVersion) := by
  refine ⟨Account.decode_encode, fun record => ?_, Code.decode_encode, fun record => ?_⟩
  · split
    next hlength =>
      obtain ⟨a, hdecode, hlaidOut⟩ := Account.decode_of_length hlength
      exact ⟨a, hdecode, Account.encode_of_decode hdecode, hlaidOut⟩
    next hlength => exact Account.decode_of_length_ne hlength
  · split
    next hform =>
      obtain ⟨c, hdecode, hlaidOut⟩ := Code.decode_of_version hform.1 hform.2
      exact ⟨c, hdecode, Code.encode_of_decode hdecode, hlaidOut⟩
    next hform =>
      split
      next hshort => exact Code.decode_of_short hshort
      next hlong =>
        have hlength := Nat.not_lt.1 hlong
        exact Code.decode_of_version_ne hlength fun hversion => hform ⟨hlength, hversion⟩

end RoundLedger
