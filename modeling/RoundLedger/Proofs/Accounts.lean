import Mathlib.Data.List.Basic
import RoundLedger.Proofs.Contents
import RoundLedger.Proofs.Keys
import RoundLedger.Runner

/-!
# Accounts on contents

The accounts that contents hold, and how a nonce fits the account of its sender.
-/

namespace RoundLedger

open Step Program

/-- What every address holds. An empty record, or a corrupt one, counts as none. -/
abbrev Accounts := Address → Option Account

namespace Accounts

def set (m : Accounts) (address : Address) (account : Option Account) : Accounts :=
  fun other => if address = other then account else m other

@[simp] theorem set_same (m : Accounts) (address : Address) (account : Option Account) :
    m.set address account address = account := if_pos rfl

theorem set_other (m : Accounts) {address other : Address} (account : Option Account)
    (h : address ≠ other) : m.set address account other = m other := if_neg h

def nonce (m : Accounts) (address : Address) : UInt64 := (m address).elim 0 (·.nonce)

def balance (m : Accounts) (address : Address) : Nat := (m address).elim 0 (·.balance.toNat)

theorem nonce_getD (m : Accounts) (address : Address) :
    ((m address).getD {}).nonce = m.nonce address := by
  unfold nonce
  cases m address with
  | none => rfl
  | some account => rfl

theorem toNat_getD_balance (m : Accounts) (address : Address) :
    ((m address).getD {}).balance.toNat = m.balance address := by
  unfold balance
  cases m address with
  | none => rfl
  | some account => rfl

theorem toNat_elim_balance (m : Accounts) (address : Address) :
    ((m address).elim 0 Account.balance).toNat = m.balance address := by
  unfold balance
  cases m address with
  | none => rfl
  | some account => rfl

/-- Pays into an account. Nothing is touched when there is nothing to pay. -/
def credit (m : Accounts) (address : Address) (amount : Word) : Accounts :=
  if amount = 0 then m
  else
    let account := (m address).getD {}
    m.set address (some { account with balance := account.balance.addCapped amount })

end Accounts

namespace State

/-- The accounts that contents hold. -/
def accountsIn (f : Contents) : Accounts := fun address =>
  match f (Key.account address).bytes with
  | none | some [] => none
  | some record => (Account.decode record).toOption

theorem accountsIn_congr {f g : Contents}
    (h : ∀ address, f (Key.account address).bytes = g (Key.account address).bytes) :
    accountsIn f = accountsIn g := by
  funext address
  rw [accountsIn, accountsIn, h address]

theorem accountsIn_put (f : Contents) (address : Address) (account : Account) :
    accountsIn (f.put (Key.account address).bytes (some account.encode))
      = (accountsIn f).set address (some account) := by
  funext other
  by_cases hsame : address = other
  · subst hsame
    have hrecord : account.encode ≠ [] := by
      intro hnil
      simpa using congrArg List.length hnil
    rw [accountsIn, Contents.put_same, Accounts.set_same]
    split
    · simp_all
    · simp_all
    next record _ hsome =>
      cases hsome
      rw [Account.decode_encode]
      rfl
  · have hkey : (Key.account address).bytes ≠ (Key.account other).bytes := fun hkey =>
      hsame (Key.account_bytes_inj hkey)
    rw [accountsIn, Contents.put_other _ _ hkey, Accounts.set_other _ _ hsame]
    rfl

/-- Records that are not accounts do not matter to the accounts. -/
theorem accountsIn_put_other (f : Contents) {k : Key} (hstate : k.isState = true)
    (h : ∀ address, k ≠ .account address) (value : Option Bytes) :
    accountsIn (f.put k.bytes value) = accountsIn f := by
  refine accountsIn_congr fun address => Contents.put_other _ _ fun hkey => ?_
  exact h address (Key.bytes_inj_of_isState hstate hkey)

/-! ## Accesses -/

theorem account_ok {f f' : Contents} {address : Address} {account : Option Account}
    (h : (State.account address).eval f = .ok account f') :
    accountsIn f address = account ∧ f' = f := by
  unfold State.account at h
  rw [eval_look_bind] at h
  split at h
  next hrecord =>
    obtain ⟨rfl, rfl⟩ := eval_pure_ok.1 h
    unfold accountsIn
    rw [hrecord]
    exact ⟨rfl, rfl⟩
  next hrecord =>
    obtain ⟨rfl, rfl⟩ := eval_pure_ok.1 h
    unfold accountsIn
    rw [hrecord]
    exact ⟨rfl, rfl⟩
  next record hempty hrecord =>
    obtain ⟨account', _, hread, hdone⟩ := eval_bind_ok.1 h
    obtain ⟨hdecode, rfl⟩ := eval_ofExcept_ok.1 hread
    obtain ⟨rfl, rfl⟩ := eval_pure_ok.1 hdone
    unfold accountsIn
    rw [hrecord]
    cases record with
    | nil => exact absurd rfl hempty
    | cons first rest =>
      dsimp only
      rw [hdecode]
      exact ⟨rfl, rfl⟩

/-! ## Nonces -/

/-- Why a nonce does not fit what a sender has. -/
def Mismatches (m : Accounts) (address : Address) (nonce : UInt64) : NonceMismatch → Prop
  | .accountNotExist => m address = none
  | .tooSmall => ∃ account, m address = some account ∧ nonce < account.nonce
  | .tooLarge => ∃ account, m address = some account ∧ account.nonce < nonce

theorem checkNonce_ok {f f' : Contents} {address : Address} {nonce : UInt64}
    {checked : Except NonceMismatch Account}
    (h : (State.checkNonce address nonce).eval f = .ok checked f') :
    f' = f ∧
      match checked with
      | .error mismatch => Mismatches (accountsIn f) address nonce mismatch
      | .ok account => accountsIn f address = some account ∧ account.nonce = nonce := by
  obtain ⟨found, _, hfound, hcheck⟩ := eval_bind_ok.1 h
  obtain ⟨haccount, rfl⟩ := account_ok hfound
  cases found with
  | none =>
    obtain ⟨rfl, rfl⟩ := eval_pure_ok.1 hcheck
    exact ⟨rfl, haccount⟩
  | some account =>
    dsimp only at hcheck
    split at hcheck
    next hsmall =>
      obtain ⟨rfl, rfl⟩ := eval_pure_ok.1 hcheck
      exact ⟨rfl, account, haccount, hsmall⟩
    next hsmall =>
      split at hcheck
      next hlarge =>
        obtain ⟨rfl, rfl⟩ := eval_pure_ok.1 hcheck
        exact ⟨rfl, account, haccount, hlarge⟩
      next hlarge =>
        obtain ⟨rfl, rfl⟩ := eval_pure_ok.1 hcheck
        refine ⟨rfl, haccount, ?_⟩
        rw [UInt64.lt_iff_toNat_lt] at hsmall hlarge
        rw [← UInt64.toNat_inj]
        omega

end State

end RoundLedger
