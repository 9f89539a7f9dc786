import RoundLedger.Account
import RoundLedger.Key
import RoundLedger.Program
import RoundLedger.Status

/-!
# Typed state

Accounts, code, storage slots and creation counters as programs over the store.
-/

namespace RoundLedger

inductive NonceMismatch
  | accountNotExist
  | tooSmall
  | tooLarge
  deriving DecidableEq, Repr

def NonceMismatch.status : NonceMismatch → Status
  | accountNotExist => .accountNotExist
  | tooSmall => .nonceTooSmall
  | tooLarge => .nonceTooLarge

namespace State

open Program

/-! ## Accounts -/

/-- An account. An empty record counts as none. -/
def account (address : Address) : Program (Option Account) := do
  match ← look (Key.account address).bytes with
  | none | some [] => return none
  | some record => return some (← ofExcept (Account.decode record))

def setAccount (address : Address) (account : Account) : Program Unit :=
  write (Key.account address).bytes account.encode

def deleteAccount (address : Address) : Program Unit := delete (Key.account address).bytes

/-- The account of a sender, when the nonce is the next one to use. -/
def checkNonce (address : Address) (nonce : UInt64) : Program (Except NonceMismatch Account) := do
  match ← account address with
  | none => return .error .accountNotExist
  | some account =>
    if nonce < account.nonce then return .error .tooSmall
    else if account.nonce < nonce then return .error .tooLarge
    else return .ok account

/-! ## Code -/

def code (address : Address) : Program (Option Code) := do
  match ← look (Key.code address).bytes with
  | none => return none
  | some record => return some (← ofExcept (Code.decode record))

def setCode (address : Address) (code : Code) : Program Unit :=
  write (Key.code address).bytes code.encode

def deleteCode (address : Address) : Program Unit := delete (Key.code address).bytes

/-! ## Storage slots -/

def storage (sequence : UInt64) (slot : Digest) : Program (Option Bytes) :=
  look (Key.slot sequence slot).bytes

/-- Sets a slot. An empty value deletes it. -/
def setStorage (sequence : UInt64) (slot : Digest) (value : Bytes) : Program Unit :=
  if value = [] then delete (Key.slot sequence slot).bytes
  else write (Key.slot sequence slot).bytes value

/-! ## Creation counters -/

/-- The number of contracts created so far at addresses that start with this byte. -/
def counter (first : UInt8) : Program UInt64 := do
  match ← look (Key.counter first).bytes with
  | none => return 0
  | some record => if record.length = 8 then return BigEndian.decode64 record else fail .counterLength

def setCounter (first : UInt8) (count : UInt64) : Program Unit :=
  write (Key.counter first).bytes (BigEndian.encode64 count)

end State

end RoundLedger
