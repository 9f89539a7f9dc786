import RoundLedger.Proofs.Solvency

/-!
# What stakes do to the sum of balances

A stake moves value from its sender to the contract, and back. Both accounts are looked up before one of them is
written. So a transaction of the contract to itself writes the account twice, and the second time with a balance
from before the first: what is to be moved is added and never taken away. This is the only way in which the
contract changes the sum of all balances. The stake and the total are recorded right in each case.
-/

namespace RoundLedger

open Step Program State

namespace Accounts

/-- An account that pays itself is left with the sum of both. -/
theorem total_pay_self (m : Accounts) (address : Address) (amount : Word) :
    (m.pay address address amount).total + m.balance address
      = m.total + (m.balance address + amount.toNat) % 2 ^ 256 := by
  have hpayer := total_set m address
    { (m address).getD {} with balance := ((m address).getD {}).balance - amount }
  have hreceiver := total_set
    (m.set address (some { (m address).getD {} with balance := ((m address).getD {}).balance - amount })) address
    { (m address).getD {} with balance := ((m address).getD {}).balance + amount }
  rw [balance_set, if_pos rfl] at hreceiver
  have hbalance := toNat_getD_balance m address
  have hsum : (((m address).getD {}).balance + amount).toNat = (m.balance address + amount.toNat) % 2 ^ 256 := by
    rw [BitVec.toNat_add, hbalance]
  unfold pay
  dsimp only at hpayer hreceiver ⊢
  omega

end Accounts

namespace Staking

variable {tx : Transaction} {status : Status} {w w' : World}

/-- What a transaction moves between its sender and the contract, if it ends in this status. -/
def carried (tx : Transaction) (status : Status) : Nat := if status = .success then (moved tx).natAbs else 0

theorem carried_of_fails (h : status ≠ .success) : carried tx status = 0 := if_neg h

theorem carried_stake (h : selector? tx.data = some .stake) : carried tx .success = tx.value.toNat := by
  rw [carried, if_pos rfl, moved, h]
  rfl

theorem carried_unstake {amount : Word} (h : selector? tx.data = some .unstake)
    (hamount : amountArgument tx.data = some amount) : carried tx .success = amount.toNat := by
  rw [carried, if_pos rfl, moved, h, hamount]
  exact Int.natAbs_neg _

theorem carried_view (h : selector? tx.data = some .stakeOf ∨ selector? tx.data = some .totalStaked) :
    carried tx .success = 0 := by
  rw [carried, if_pos rfl]
  rcases h with h | h <;> rw [moved, h] <;> rfl

theorem carried_lt (tx : Transaction) (status : Status) : carried tx status < 2 ^ 256 := by
  unfold carried moved
  split
  · split
    · exact tx.value.isLt
    · rw [Int.natAbs_neg]
      cases amountArgument tx.data with
      | none => decide
      | some amount => exact amount.isLt
    · decide
  · decide

/-! ## Balances -/

theorem Acts.total_of_stranger (h : Acts tx w status w') (fits : w.accounts.total < 2 ^ 256)
    (hsender : tx.sender ≠ address) : w'.accounts.total = w.accounts.total := by
  cases h with
  | refused _ _ => rfl
  | viewed _ => rfl
  | staked _ covered _ _ => exact Accounts.total_pay hsender covered fits
  | unstaked _ _ covered _ _ _ => exact Accounts.total_pay hsender.symm covered fits

theorem Acts.total_of_self (h : Acts tx w status w') (hsender : tx.sender = address) :
    w'.accounts.total + w.accounts.balance address
      = w.accounts.total + (w.accounts.balance address + carried tx status) % 2 ^ 256 := by
  have hfits : w.accounts.balance address < 2 ^ 256 := by
    rw [← Accounts.toNat_getD_balance]
    exact BitVec.isLt _
  have hstill (hnothing : carried tx status = 0) : w.accounts.total + w.accounts.balance address
      = w.accounts.total + (w.accounts.balance address + carried tx status) % 2 ^ 256 := by
    rw [hnothing, Nat.add_zero, Nat.mod_eq_of_lt hfits]
  cases h with
  | refused hfails _ => exact hstill (carried_of_fails hfails)
  | viewed hselector => exact hstill (carried_view hselector)
  | staked hselector _ _ _ =>
    rw [carried_stake hselector, hsender]
    exact Accounts.total_pay_self _ _ _
  | unstaked hselector hamount _ _ _ _ =>
    rw [carried_unstake hselector hamount, hsender]
    exact Accounts.total_pay_self _ _ _

/-! ## Records -/

/-- A word that goes up or down by a change, if it has the room. -/
def Shifted (before : Word) (change : Int) (after : Word) : Prop :=
  0 ≤ before.toNat + change → before.toNat + change < 2 ^ 256 → (after.toNat : Int) = before.toNat + change

theorem shifted_add (word amount : Word) : Shifted word amount.toNat (word + amount) := by
  intro _ hfits
  rw [BitVec.toNat_add, Nat.mod_eq_of_lt (by omega)]
  omega

theorem shifted_sub (word amount : Word) : Shifted word (-(amount.toNat : Int)) (word - amount) := by
  intro hcovers _
  rw [BitVec.toNat_sub_of_le (by rw [BitVec.le_def]; omega)]
  omega

/-- The stake of the sender and the total that are read before and after a run are shifted by what the transaction
moves. -/
def Records (tx : Transaction) (f g : Contents) : Prop :=
  ∃ stake sum stake' sum' : Word,
    (stakeOf tx.sender).eval f = .ok stake f ∧ total.eval f = .ok sum f ∧
    (stakeOf tx.sender).eval g = .ok stake' g ∧ total.eval g = .ok sum' g ∧
    Shifted stake (moved tx) stake' ∧ Shifted sum (moved tx) sum'

variable {f g : Contents}

/-- Both words are looked up before one of them is written. So even if the two slots were the same, both are read
as they are recorded. -/
theorem reads_of_change {staker : Address} {m : Accounts} {stake sum : Word} (change : Word → Word)
    (hstake : (worldIn f).words (slotOf staker) = some stake) (hsum : (worldIn f).words totalSlot = some sum)
    (h : worldIn g = ({ worldIn f with accounts := m } : World).record staker (change stake) (change sum)) :
    (stakeOf staker).eval g = .ok (change stake) g ∧ total.eval g = .ok (change sum) g := by
  by_cases hsame : slotOf staker = totalSlot
  · rw [hsame, hsum] at hstake
    obtain rfl := Option.some.inj hstake
    have hword : (worldIn g).words totalSlot = some (change sum) := by
      rw [h]
      unfold World.record
      dsimp only
      rw [Function.update_self]
    refine ⟨?_, readWord_of_word hword⟩
    rw [stakeOf, hsame]
    exact readWord_of_word hword
  · obtain ⟨hstake', hsum', -⟩ := reads_of_record hsame h
    exact ⟨hstake', hsum'⟩

theorem Acts.records (h : Acts tx (worldIn f) .success (worldIn g))
    (hselector : selector? tx.data = some .stake ∨ selector? tx.data = some .unstake) : Records tx f g := by
  generalize hw : worldIn g = w at h
  cases h with
  | refused hfails _ => exact absurd rfl hfails
  | viewed hview =>
    rcases hview with hview | hview <;> rw [hview] at hselector <;> simp at hselector
  | @staked stake sum hstakes _ hstake hsum =>
    obtain ⟨hstake', hsum'⟩ := reads_of_change (· + tx.value) hstake hsum hw
    refine ⟨stake, sum, _, _, readWord_of_word hstake, readWord_of_word hsum, hstake', hsum', ?_⟩
    rw [moved, hstakes]
    exact ⟨shifted_add _ _, shifted_add _ _⟩
  | @unstaked amount stake sum hunstakes hamount _ hstake _ hsum =>
    obtain ⟨hstake', hsum'⟩ := reads_of_change (· - amount) hstake hsum hw
    refine ⟨stake, sum, _, _, readWord_of_word hstake, readWord_of_word hsum, hstake', hsum', ?_⟩
    rw [moved, hunstakes, hamount]
    exact ⟨shifted_sub _ _, shifted_sub _ _⟩

/-! ## Transactions to the contract -/

/-- A transaction to the contract leaves the sum of all balances as it is, unless the contract itself is the sender
and moves something. Then the sum grows by what is moved, as far as the balance of the contract has room for it.
A stake that is recorded and one that is given back change the records by what is moved, whoever the sender is. -/
theorem execute_moves_value {block : Block} {outcome : SystemOutcome} (fits : (accountsIn f).total < 2 ^ 256)
    (h : (execute block tx).eval f = .ok outcome g) :
    ((accountsIn g).total = (accountsIn f).total ↔ tx.sender ≠ address ∨ carried tx outcome.status = 0) ∧
      (tx.sender = address → (accountsIn g).total + (accountsIn f).balance address
        = (accountsIn f).total + ((accountsIn f).balance address + carried tx outcome.status) % 2 ^ 256) ∧
      (outcome.status = .success → selector? tx.data = some .stake ∨ selector? tx.data = some .unstake →
        Records tx f g) := by
  have hacts := execute_ok block h
  refine ⟨⟨fun hsame => ?_, fun hnothing => ?_⟩, hacts.total_of_self, fun success hselector => ?_⟩
  · by_cases hsender : tx.sender = address
    · have hself := hacts.total_of_self hsender
      have hcarried := carried_lt tx outcome.status
      have hbalance := Accounts.balance_le_total (accountsIn f) address
      rw [worldIn_accounts, worldIn_accounts, hsame] at hself
      right
      omega
    · exact .inl hsender
  · by_cases hsender : tx.sender = address
    · have hself := hacts.total_of_self hsender
      have hbalance := Accounts.balance_le_total (accountsIn f) address
      rw [hnothing.resolve_left (not_not_intro hsender), worldIn_accounts, worldIn_accounts] at hself
      omega
    · exact hacts.total_of_stranger fits hsender
  · rw [success] at hacts
    exact hacts.records hselector

/-- A single account, and no stakes. -/
def oneAccount (address : Address) (balance : Word) : Contents :=
  Contents.put (fun _ => none) (Key.account address).bytes (some (Account.encode { balance }))

theorem accountsIn_oneAccount (address : Address) (balance : Word) :
    accountsIn (oneAccount address balance) = Accounts.set (fun _ => none) address (some { balance }) :=
  accountsIn_put _ _ _

/-- A stake of 400. -/
def deposit (sender : Address) : Transaction :=
  { Rounds.transfer 0 with
    sender, destination := some address, data := [0x3a, 0x4b, 0x66, 0xf1], value := 400 }

theorem deposit_moves_value :
    ∃ outcome g, (execute {} (deposit 1)).eval (oneAccount 1 1000) = .ok outcome g ∧ outcome.status = .success ∧
      (accountsIn g).total = 1000 ∧ Records (deposit 1) (oneAccount 1 1000) g := by
  have htotal : (accountsIn (oneAccount 1 1000)).total = 1000 := by
    rw [accountsIn_oneAccount, Accounts.total_single]
    rfl
  have hends : endsWith ((execute {} (deposit 1)).eval (oneAccount 1 1000))
      (fun outcome _ => outcome.status = .success) = true := by decide +kernel
  obtain ⟨outcome, g, hrun, htest⟩ := endsWith_iff.1 hends
  have success := of_decide_eq_true htest
  obtain ⟨hsame, -, hrecords⟩ := execute_moves_value (by rw [htotal]; decide) hrun
  exact ⟨outcome, g, hrun, success, (hsame.2 (.inl (by decide))).trans htotal, hrecords success (.inl rfl)⟩

/-- The contract has 1000 and stakes 400 of it. Then it has 1400. -/
theorem ownDeposit_mints :
    (accountsIn (oneAccount address 1000)).total = 1000 ∧
      ∃ outcome g, (execute {} (deposit address)).eval (oneAccount address 1000) = .ok outcome g ∧
        outcome.status = .success ∧ (accountsIn g).total = 1400 := by
  have htotal : (accountsIn (oneAccount address 1000)).total = 1000 := by
    rw [accountsIn_oneAccount, Accounts.total_single]
    rfl
  have hbalance : (accountsIn (oneAccount address 1000)).balance address = 1000 := by
    rw [accountsIn_oneAccount, Accounts.balance_set, if_pos rfl]
    rfl
  have hends : endsWith ((execute {} (deposit address)).eval (oneAccount address 1000))
      (fun outcome _ => outcome.status = .success) = true := by decide +kernel
  obtain ⟨outcome, g, hrun, htest⟩ := endsWith_iff.1 hends
  have success : outcome.status = .success := of_decide_eq_true htest
  have hself := (execute_ok {} hrun).total_of_self rfl
  rw [success, carried_stake rfl, worldIn_accounts, worldIn_accounts, htotal, hbalance] at hself
  refine ⟨htotal, outcome, g, hrun, success, ?_⟩
  have hvalue : (deposit address).value.toNat = 400 := rfl
  omega

end Staking

end RoundLedger
