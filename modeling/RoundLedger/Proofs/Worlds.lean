import Mathlib.Logic.Function.Basic
import RoundLedger.Proofs.Accounts
import RoundLedger.Proofs.Serial

/-!
# The typed state

What contents hold under the keys of the state: accounts, creation counters, code records and the words of
the staking contract. A write to one of them leaves the others as they are.
-/

namespace RoundLedger

open Step Program State

namespace State

/-- The number of contracts created at addresses that start with this byte. A corrupt record counts as zero. -/
def counterIn (f : Contents) (first : UInt8) : UInt64 :=
  match f (Key.counter first).bytes with
  | none => 0
  | some record => if record.length = 8 then BigEndian.decode64 record else 0

def codeIn (f : Contents) (address : Address) : Option Bytes := f (Key.code address).bytes

end State

namespace Staking

/-- The word in a slot of the contract, unless the stored value is too long. -/
def wordIn (f : Contents) (slot : Digest) : Option Word :=
  let value := (f (Key.slot sequence slot).bytes).getD []
  if value.length ≤ 32 then some (Word.ofBytes value) else none

end Staking

structure World where
  accounts : Accounts
  counters : UInt8 → UInt64
  codes : Address → Option Bytes
  /-- The words of the staking contract that can be read. -/
  words : Digest → Option Word

def worldIn (f : Contents) : World :=
  { accounts := accountsIn f, counters := counterIn f, codes := codeIn f, words := Staking.wordIn f }

theorem worldIn_accounts (f : Contents) : (worldIn f).accounts = accountsIn f := rfl

theorem Contents.SameState.worldIn_eq {f g : Contents} (h : f.SameState g) : worldIn f = worldIn g := by
  have hstate (k : Key) (hk : k.isState = true) : f k.bytes = g k.bytes :=
    h _ (Key.not_isQueue_of_isState hk)
  have haccounts : accountsIn f = accountsIn g := accountsIn_congr fun address => hstate (.account address) rfl
  have hcounters : counterIn f = counterIn g := funext fun first => by
    rw [counterIn, counterIn, hstate (.counter first) rfl]
  have hcodes : codeIn f = codeIn g := funext fun address => hstate (.code address) rfl
  have hwords : Staking.wordIn f = Staking.wordIn g := funext fun slot => by
    rw [Staking.wordIn, Staking.wordIn, hstate (.slot _ slot) rfl]
  rw [worldIn, worldIn, haccounts, hcounters, hcodes, hwords]

/-! ## Writes -/

section

variable (f : Contents) {k : Key} (value : Option Bytes)

theorem Contents.put_key_other {k' : Key} (hk : k.isState = true) (h : k ≠ k') :
    f.put k.bytes value k'.bytes = f k'.bytes :=
  Contents.put_other _ _ fun hkey => h (Key.bytes_inj_of_isState hk hkey)

theorem State.counterIn_put_other (hk : k.isState = true) (h : ∀ first, k ≠ .counter first) :
    counterIn (f.put k.bytes value) = counterIn f := by
  funext first
  rw [counterIn, counterIn, Contents.put_key_other f value hk (h first)]

theorem State.codeIn_put_other (hk : k.isState = true) (h : ∀ address, k ≠ .code address) :
    codeIn (f.put k.bytes value) = codeIn f :=
  funext fun address => Contents.put_key_other f value hk (h address)

theorem Staking.wordIn_put_other (hk : k.isState = true) (h : ∀ slot, k ≠ .slot sequence slot) :
    wordIn (f.put k.bytes value) = wordIn f := by
  funext slot
  rw [wordIn, wordIn, Contents.put_key_other f value hk (h slot)]

end

variable (f : Contents)

theorem worldIn_put_account (address : Address) (account : Account) :
    worldIn (f.put (Key.account address).bytes (some account.encode))
      = { worldIn f with accounts := (accountsIn f).set address (some account) } := by
  rw [worldIn, accountsIn_put, counterIn_put_other f _ rfl (by simp), codeIn_put_other f _ rfl (by simp),
    Staking.wordIn_put_other f _ rfl (by simp)]
  rfl

theorem worldIn_put_counter (first : UInt8) (count : UInt64) :
    worldIn (f.put (Key.counter first).bytes (some (BigEndian.encode64 count)))
      = { worldIn f with counters := Function.update (counterIn f) first count } := by
  have hcounters : counterIn (f.put (Key.counter first).bytes (some (BigEndian.encode64 count)))
      = Function.update (counterIn f) first count := by
    funext other
    by_cases hsame : other = first
    · subst hsame
      rw [counterIn, Contents.put_same, Function.update_self]
      simp
    · rw [Function.update_of_ne hsame, counterIn, counterIn,
        Contents.put_key_other f _ rfl fun hkey => hsame (Key.counter.inj hkey).symm]
  rw [worldIn, accountsIn_put_other f rfl (by simp), hcounters, codeIn_put_other f _ rfl (by simp),
    Staking.wordIn_put_other f _ rfl (by simp)]
  rfl

theorem worldIn_put_code (address : Address) (record : Bytes) :
    worldIn (f.put (Key.code address).bytes (some record))
      = { worldIn f with codes := Function.update (codeIn f) address (some record) } := by
  have hcodes : codeIn (f.put (Key.code address).bytes (some record))
      = Function.update (codeIn f) address (some record) := by
    funext other
    by_cases hsame : other = address
    · subst hsame
      rw [codeIn, Contents.put_same, Function.update_self]
    · rw [Function.update_of_ne hsame, codeIn, codeIn,
        Contents.put_key_other f _ rfl fun hkey => hsame (Key.code.inj hkey).symm]
  rw [worldIn, accountsIn_put_other f rfl (by simp), counterIn_put_other f _ rfl (by simp), hcodes,
    Staking.wordIn_put_other f _ rfl (by simp)]
  rfl

theorem worldIn_put_word (slot : Digest) (word : Word) :
    worldIn (f.put (Key.slot Staking.sequence slot).bytes
        (if word = 0 then none else some (Word.bytes word)))
      = { worldIn f with words := Function.update (Staking.wordIn f) slot (some word) } := by
  have hwords : Staking.wordIn (f.put (Key.slot Staking.sequence slot).bytes
        (if word = 0 then none else some (Word.bytes word)))
      = Function.update (Staking.wordIn f) slot (some word) := by
    funext other
    by_cases hsame : other = slot
    · subst hsame
      rw [Staking.wordIn, Contents.put_same, Function.update_self]
      split
      next hzero =>
        rw [hzero]
        rfl
      next => simp
    · rw [Function.update_of_ne hsame, Staking.wordIn, Staking.wordIn,
        Contents.put_key_other f _ rfl fun hkey => hsame (Key.slot.inj hkey).2.symm]
  rw [worldIn, accountsIn_put_other f rfl (by simp), counterIn_put_other f _ rfl (by simp),
    codeIn_put_other f _ rfl (by simp), hwords]
  rfl

/-- Contents with an amount paid into an account. -/
def Contents.credit (f : Contents) (address : Address) (amount : Word) : Contents :=
  if amount = 0 then f
  else
    let account := (accountsIn f address).getD {}
    f.put (Key.account address).bytes
      (some (Account.encode { account with balance := account.balance.addCapped amount }))

theorem worldIn_credit (address : Address) (amount : Word) :
    worldIn (f.credit address amount)
      = { worldIn f with accounts := (accountsIn f).credit address amount } := by
  unfold Contents.credit Accounts.credit
  split
  · rfl
  · exact worldIn_put_account f address _

theorem accountsIn_credit (address : Address) (amount : Word) :
    accountsIn (f.credit address amount) = (accountsIn f).credit address amount :=
  congrArg World.accounts (worldIn_credit f address amount)

theorem Contents.credit_queue (address : Address) (amount : Word) {key : Bytes} (hkey : Key.IsQueue key) :
    f.credit address amount key = f key := by
  unfold credit
  split
  · rfl
  · refine Contents.put_other _ _ fun hsame => ?_
    exact Key.not_isQueue_of_isState (k := .account address) rfl (hsame ▸ hkey)

theorem Contents.SameState.credit {f g : Contents} (h : f.SameState g) (address : Address) (amount : Word) :
    (f.credit address amount).SameState (g.credit address amount) := by
  have haccounts : accountsIn f = accountsIn g := congrArg World.accounts h.worldIn_eq
  unfold Contents.credit
  split
  · exact h
  · intro key hkey
    rw [haccounts, Contents.put, Contents.put, h key hkey]

/-! ## Accesses -/

namespace State

variable {f} {f' : Contents}

theorem code_ok {address : Address} {code : Option Code}
    (h : (State.code address).eval f = .ok code f') :
    f' = f ∧ (code.isSome ↔ (codeIn f address).isSome) := by
  unfold State.code at h
  rw [eval_look_bind] at h
  unfold codeIn
  split at h
  next hnone =>
    obtain ⟨rfl, rfl⟩ := eval_pure_ok.1 h
    rw [hnone]
    exact ⟨rfl, .rfl⟩
  next record hsome =>
    obtain ⟨_, _, hread, hdone⟩ := eval_bind_ok.1 h
    obtain ⟨-, rfl⟩ := eval_ofExcept_ok.1 hread
    obtain ⟨rfl, rfl⟩ := eval_pure_ok.1 hdone
    rw [hsome]
    simp

theorem counter_ok {first : UInt8} {count : UInt64}
    (h : (State.counter first).eval f = .ok count f') : f' = f ∧ counterIn f first = count := by
  unfold State.counter at h
  rw [eval_look_bind] at h
  unfold counterIn
  cases hrecord : f (Key.counter first).bytes with
  | none =>
    rw [hrecord] at h
    obtain ⟨rfl, rfl⟩ := eval_pure_ok.1 h
    exact ⟨rfl, rfl⟩
  | some record =>
    rw [hrecord] at h
    dsimp only at h ⊢
    by_cases hlength : record.length = 8
    · rw [if_pos hlength] at h ⊢
      obtain ⟨rfl, rfl⟩ := eval_pure_ok.1 h
      exact ⟨rfl, rfl⟩
    · rw [if_neg hlength] at h
      exact absurd h eval_fail_ok

end State

namespace Staking

theorem readWord_eval (slot : Digest) :
    (readWord slot).eval f
      = match wordIn f slot with
        | some word => .ok word f
        | none => .error .storedWordTooLong f := by
  change Program.eval (if ((f (Key.slot sequence slot).bytes).getD []).length ≤ 32
    then pure (Word.ofBytes ((f (Key.slot sequence slot).bytes).getD []))
    else fail .storedWordTooLong) f = _
  unfold wordIn
  by_cases hlength : ((f (Key.slot sequence slot).bytes).getD []).length ≤ 32
  · simp only [if_pos hlength]
    rfl
  · simp only [if_neg hlength]
    rfl

variable {f} {f' : Contents} {slot : Digest} {word : Word}

theorem readWord_iff : (readWord slot).eval f = .ok word f' ↔ wordIn f slot = some word ∧ f' = f := by
  rw [readWord_eval]
  cases wordIn f slot with
  | none => simp
  | some other => simp [eq_comm]

theorem readWord_stops {fault : Fault} (h : (readWord slot).eval f = .error fault f') :
    fault = .storedWordTooLong ∧ f' = f := by
  rw [readWord_eval] at h
  cases hword : wordIn f slot with
  | none =>
    rw [hword] at h
    cases h
    exact ⟨rfl, rfl⟩
  | some word =>
    rw [hword] at h
    cases h

theorem writeWord_iff {u : Unit} : (writeWord slot word).eval f = .ok u f' ↔
    f' = f.put (Key.slot sequence slot).bytes (if word = 0 then none else some (Word.bytes word)) := by
  have hbytes : Word.bytes word ≠ [] := fun hnil => by simpa using congrArg List.length hnil
  unfold writeWord State.setStorage
  by_cases hzero : word = 0
  · rw [if_pos hzero, if_pos hzero, if_pos rfl]
    constructor
    · rintro ⟨⟩
      rfl
    · rintro rfl
      rfl
  · rw [if_neg hzero, if_neg hzero, if_neg hbytes]
    constructor
    · rintro ⟨⟩
      rfl
    · rintro rfl
      rfl

end Staking

/-- The fee for unused gas goes to the sender. -/
theorem Runner.creditUnused_ok {f} {f' : Contents} {tx : Transaction} {gasUsed : UInt64} {refund : Word}
    (h : (creditUnused tx gasUsed).eval f = .ok refund f') :
    refund = (BitVec.ofNat 256 (tx.gasLimit.subFloor gasUsed).toNat).mulCapped tx.gasPrice ∧
      f' = f.credit tx.sender refund := by
  unfold creditUnused at h
  dsimp only at h
  unfold Contents.credit
  split at h
  next hzero =>
    obtain ⟨rfl, rfl⟩ := eval_pure_ok.1 h
    exact ⟨rfl, (if_pos hzero).symm⟩
  next hzero =>
    obtain ⟨found, _, hfound, hpaid⟩ := eval_bind_ok.1 h
    obtain ⟨rfl, rfl⟩ := account_ok hfound
    obtain ⟨_, g, hset, hdone⟩ := eval_bind_ok.1 hpaid
    obtain ⟨rfl, rfl⟩ := eval_pure_ok.1 hdone
    cases hset
    exact ⟨rfl, by rw [if_neg hzero]⟩

end RoundLedger
