import Mathlib.Algebra.BigOperators.Group.Finset.Basic
import Mathlib.Algebra.GroupWithZero.Nat
import Mathlib.Data.Fintype.Basic
import RoundLedger.Proofs.Effects

/-!
# Value of accounts

The sum of all balances, and what the steps of a transaction make of it. No step mints value and none
destroys it, as long as the sum fits a word.
-/

namespace RoundLedger

open Step State

/-! ## Arithmetic that does not overflow -/

theorem toNat_addCapped_of_lt {x y : Word} (h : x.toNat + y.toNat < 2 ^ 256) :
    (x.addCapped y).toNat = x.toNat + y.toNat := by
  unfold BitVec.addCapped BitVec.uaddOverflow
  rw [if_neg (by simpa using h), BitVec.toNat_add, Nat.mod_eq_of_lt h]

/-- A sum that stops at the largest word. -/
theorem toNat_addCapped_eq_min (x y : Word) : (x.addCapped y).toNat = min (x.toNat + y.toNat) (2 ^ 256 - 1) := by
  by_cases hfits : x.toNat + y.toNat < 2 ^ 256
  · rw [toNat_addCapped_of_lt hfits]
    omega
  · unfold BitVec.addCapped BitVec.uaddOverflow
    rw [if_pos (by simpa using hfits), BitVec.toNat_allOnes]
    omega

theorem toNat_mulCapped_of_lt {x y : Word} (h : x.toNat * y.toNat < 2 ^ 256) :
    (x.mulCapped y).toNat = x.toNat * y.toNat := by
  unfold BitVec.mulCapped BitVec.umulOverflow
  rw [if_neg (by simpa using h), BitVec.toNat_mul, Nat.mod_eq_of_lt h]

namespace Accounts

/-! ## The total -/

def total (m : Accounts) : Nat := ∑ i : Fin (2 ^ 160), m.balance (BitVec.ofFin i)

theorem total_eq_add (m : Accounts) (address : Address) :
    m.total = m.balance address + ∑ i ∈ Finset.univ.erase address.toFin, m.balance (BitVec.ofFin i) :=
  (Finset.add_sum_erase _ _ (Finset.mem_univ address.toFin)).symm

theorem balance_set (m : Accounts) (address other : Address) (account : Account) :
    (m.set address (some account)).balance other
      = if address = other then account.balance.toNat else m.balance other := by
  unfold balance set
  split
  · rfl
  · rfl

/-- Writing an account replaces its balance in the sum. -/
theorem total_set (m : Accounts) (address : Address) (account : Account) :
    (m.set address (some account)).total + m.balance address = m.total + account.balance.toNat := by
  have hrest : ∑ i ∈ Finset.univ.erase address.toFin,
        (m.set address (some account)).balance (BitVec.ofFin i)
      = ∑ i ∈ Finset.univ.erase address.toFin, m.balance (BitVec.ofFin i) := by
    refine Finset.sum_congr rfl fun i hi => ?_
    rw [balance_set, if_neg]
    rintro rfl
    exact (Finset.mem_erase.1 hi).1 rfl
  rw [total_eq_add _ address, total_eq_add m address, hrest, balance_set, if_pos rfl]
  omega

theorem total_single (address : Address) (account : Account) :
    (set (fun _ => none) address (some account)).total = account.balance.toNat := by
  have hset := total_set (fun _ => none) address account
  have hempty : total (fun _ => none) = 0 := Finset.sum_const_zero
  have hnone : balance (fun _ => none) address = 0 := rfl
  rw [hnone, Nat.add_zero] at hset
  rw [hset, hempty, Nat.zero_add]

theorem balance_le_total (m : Accounts) (address : Address) : m.balance address ≤ m.total := by
  rw [total_eq_add m address]
  exact Nat.le_add_right _ _

theorem balance_add_le_total (m : Accounts) {a b : Address} (h : a ≠ b) :
    m.balance a + m.balance b ≤ m.total := by
  have hset := total_set m a {}
  have hle := balance_le_total (m.set a (some {})) b
  rw [balance_set, if_neg h] at hle
  have hzero : ({} : Account).balance.toNat = 0 := rfl
  omega

/-! ## Moving value -/

theorem total_credit {m : Accounts} {address : Address} {amount : Word}
    (fits : m.total + amount.toNat < 2 ^ 256) :
    (m.credit address amount).total = m.total + amount.toNat := by
  unfold credit
  split
  next hzero =>
    have hnothing : (0 : Word).toNat = 0 := rfl
    rw [hzero, hnothing, Nat.add_zero]
  next =>
    have hle := balance_le_total m address
    have hset := total_set m address
      { (m address).getD {} with balance := ((m address).getD {}).balance.addCapped amount }
    have hbalance := toNat_getD_balance m address
    dsimp only at hset ⊢
    rw [toNat_addCapped_of_lt (by omega)] at hset
    omega

theorem total_move {m : Accounts} {payer receiver : Address} {a b : Account} {amount : Nat}
    (h : payer ≠ receiver) (ha : a.balance.toNat + amount = m.balance payer)
    (hb : b.balance.toNat = m.balance receiver + amount) :
    ((m.set payer (some a)).set receiver (some b)).total = m.total := by
  have hpayer := total_set m payer a
  have hreceiver := total_set (m.set payer (some a)) receiver b
  rw [balance_set, if_neg h] at hreceiver
  omega

theorem toNat_debited {m : Accounts} {payer : Address} {amount : Word}
    (covered : amount.toNat ≤ m.balance payer) :
    (((m payer).getD {}).balance - amount).toNat + amount.toNat = m.balance payer := by
  have hbalance := toNat_getD_balance m payer
  rw [BitVec.toNat_sub_of_le (by rw [BitVec.le_def]; omega)]
  omega

theorem toNat_credited {m : Accounts} {payer receiver : Address} {amount : Word}
    (h : payer ≠ receiver) (covered : amount.toNat ≤ m.balance payer) (fits : m.total < 2 ^ 256) :
    (((m receiver).getD {}).balance + amount).toNat = m.balance receiver + amount.toNat := by
  have hbalance := toNat_getD_balance m receiver
  have hboth := balance_add_le_total m h
  rw [BitVec.toNat_add, Nat.mod_eq_of_lt (by omega), hbalance]

/-- Value that is moved leaves the sum alone, unless an account pays itself. -/
theorem total_pay {m : Accounts} {payer receiver : Address} {amount : Word} (h : payer ≠ receiver)
    (covered : amount.toNat ≤ m.balance payer) (fits : m.total < 2 ^ 256) :
    (m.pay payer receiver amount).total = m.total :=
  total_move h (toNat_debited covered) (toNat_credited h covered fits)

theorem total_deploy {m : Accounts} {payer address : Address} {amount : Word} {sequence : UInt64}
    (h : payer ≠ address) (covered : amount.toNat ≤ m.balance payer) (fits : m.total < 2 ^ 256) :
    (m.deploy payer address amount sequence).total = m.total :=
  total_move h (toNat_debited covered) (toNat_credited h covered fits)

end Accounts

/-! ## Transactions -/

/-- The fee that was paid when the transaction was admitted. -/
def Transaction.prepaid (tx : Transaction) : Nat := tx.gasLimit.toNat * tx.gasPrice.toNat

theorem Transaction.toNat_maxFee (tx : Transaction) {fee : Word} (h : tx.maxFee = some fee) :
    fee.toNat = tx.prepaid := by
  unfold maxFee BitVec.mul? at h
  split at h
  · cases h
  next hfits =>
    cases h
    have hgas : (BitVec.ofNat 256 tx.gasLimit.toNat).toNat = tx.gasLimit.toNat := by
      have hlt := tx.gasLimit.toNat_lt
      rw [BitVec.toNat_ofNat, Nat.mod_eq_of_lt (by omega)]
    unfold BitVec.umulOverflow at hfits
    rw [hgas, decide_eq_true_eq, Nat.not_le] at hfits
    rw [BitVec.toNat_mul, hgas, Nat.mod_eq_of_lt hfits, prepaid]

/-- Whether the fee paid in advance is kept by nobody. -/
def Status.forfeits : Status → Bool
  | tooOld | accountNotExist | nonceTooSmall | nonceTooLarge => true
  | _ => false

def CommittedResult.forfeited (result : CommittedResult) : Nat :=
  if result.status.forfeits then result.tx.prepaid else 0

/-- No account can pay itself while it is looked up twice. -/
structure Transaction.Apart (tx : Transaction) : Prop where
  sender : tx.sender ≠ Staking.address
  created : tx.destination = none → Address.created tx.sender tx.nonce ≠ tx.sender

theorem Effect.total_eq {tx : Transaction} {m m' : Accounts} {created : Option Address}
    (h : Effect tx m created m') (apart : tx.Apart) (fits : m.total < 2 ^ 256) :
    m'.total = m.total := by
  cases h with
  | still => rfl
  | paid covered hother =>
    exact Accounts.total_pay (hother.resolve_left apart.sender) covered fits
  | created covered hcreate =>
    exact Accounts.total_deploy (apart.created hcreate).symm covered fits

theorem toNat_fee {g : UInt64} {price : Word} (fits : g.toNat * price.toNat < 2 ^ 256) :
    ((BitVec.ofNat 256 g.toNat).mulCapped price).toNat = g.toNat * price.toNat := by
  have hgas : (BitVec.ofNat 256 g.toNat).toNat = g.toNat := by
    have hlt := g.toNat_lt
    rw [BitVec.toNat_ofNat, Nat.mod_eq_of_lt (by omega)]
  rw [toNat_mulCapped_of_lt (by rwa [hgas]), hgas]

/-- The fee for all gas is the fee for the gas used and the fee for the gas left. -/
theorem toNat_fee_add_fee {limit used : UInt64} {price : Word} (hused : used ≤ limit)
    (fits : limit.toNat * price.toNat < 2 ^ 256) :
    ((BitVec.ofNat 256 used.toNat).mulCapped price).toNat
      + ((BitVec.ofNat 256 (limit.subFloor used).toNat).mulCapped price).toNat = limit.toNat * price.toNat := by
  have hle := UInt64.le_iff_toNat_le.1 hused
  have hleft := UInt64.toNat_subFloor limit used
  have hpart (gas : UInt64) (hgas : gas.toNat ≤ limit.toNat) : gas.toNat * price.toNat < 2 ^ 256 :=
    Nat.lt_of_le_of_lt (Nat.mul_le_mul_right _ hgas) fits
  rw [toNat_fee (hpart _ hle), toNat_fee (hpart _ (by omega)), hleft, ← Nat.add_mul]
  congr 1
  omega

theorem Ran.fee_add_refund {tx : Transaction} {m m' : Accounts} {result : CommittedResult}
    (h : Ran tx m result m') (fits : tx.prepaid < 2 ^ 256) :
    result.gasFee.toNat + result.feeRefund.toNat = tx.prepaid := by
  rw [CommittedResult.gasFee, h.feeRefund, h.tx_eq]
  exact toNat_fee_add_fee h.gasUsed fits

/-- Running a transaction turns the fee paid in advance into the fee for the gas used and what is
returned. -/
theorem Ran.total_eq {tx : Transaction} {m m' : Accounts} {result : CommittedResult}
    (h : Ran tx m result m') (apart : tx.Apart) (fits : m.total + tx.prepaid < 2 ^ 256) :
    m'.total + result.gasFee.toNat = m.total + tx.prepaid := by
  obtain ⟨account, moved, haccount, hnonce, -, heffect, rfl⟩ := h.effect
  have hfees := h.fee_add_refund (by omega)
  have hset := Accounts.total_set m tx.sender { account with nonce := tx.nonce + 1 }
  have hbalance : m.balance tx.sender = account.balance.toNat := by
    rw [Accounts.balance, haccount]
    rfl
  have hmoved := heffect.total_eq apart (by dsimp only at hset; omega)
  dsimp only at hset
  rw [Accounts.total_credit (by omega)]
  omega

theorem TurnedAway.forfeits {block : Block} {tx : Transaction} {m : Accounts} {status : Status}
    (h : TurnedAway block tx m status) : status.forfeits = true := by
  cases h with
  | expired _ => rfl
  | @mismatch mismatch _ => cases mismatch <;> rfl

theorem Ran.forfeited_eq {tx : Transaction} {m m' : Accounts} {result : CommittedResult}
    (h : Ran tx m result m') : result.forfeited = 0 := by
  have hassigned := h.assigned
  unfold CommittedResult.forfeited
  rw [if_neg]
  intro hforfeits
  revert hassigned hforfeits
  cases result.status <;> decide

/-! ## Blocks -/

def escrow (txs : List Transaction) : Nat := (txs.map (·.prepaid)).sum

@[simp] theorem escrow_nil : escrow [] = 0 := rfl

@[simp] theorem escrow_append (txs txs' : List Transaction) :
    escrow (txs ++ txs') = escrow txs + escrow txs' := by
  simp [escrow]

theorem escrow_perm {txs txs' : List Transaction} (h : txs.Perm txs') : escrow txs = escrow txs' :=
  (h.map _).sum_eq

def fees (results : List CommittedResult) : Nat := (results.map (·.gasFee.toNat)).sum

def forfeits (results : List CommittedResult) : Nat := (results.map (·.forfeited)).sum

/-- The total of a block is the exact sum when that fits a word. -/
theorem GasTotals.toNat_fee {results : List CommittedResult} (fits : fees results < 2 ^ 256) :
    (ofResults results).fee.toNat = fees results := by
  have general (results : List CommittedResult) (t : GasTotals)
      (fits : t.fee.toNat + fees results < 2 ^ 256) :
      (results.foldl add t).fee.toNat = t.fee.toNat + fees results := by
    induction results generalizing t with
    | nil => rfl
    | cons result rest ih =>
      simp only [fees, List.map_cons, List.sum_cons] at fits ⊢
      have hadd : (t.add result).fee.toNat = t.fee.toNat + result.gasFee.toNat :=
        toNat_addCapped_of_lt (by omega)
      have hfold := ih (t.add result) (by rw [hadd, fees]; omega)
      rw [List.foldl_cons, hfold, hadd, fees]
      omega
  have hzero : ({} : GasTotals).fee.toNat = 0 := rfl
  rw [ofResults, general results {} (by omega)]
  omega

/-- A serial run turns the fees paid in advance into fees for gas, and forfeits the others. -/
theorem Rounds.Serial.total_eq {r : Runner} {hashes : BlockHashes} {block : Block} {f g : Contents}
    {results : List CommittedResult} (backend : r.backend = Transfer.backend)
    (staking : r.contracts.OnlyStaking) (h : Serial r hashes block f results g)
    (apart : ∀ result ∈ results, result.tx.Apart)
    (fits : (accountsIn f).total + escrow (results.map (·.tx)) < 2 ^ 256) :
    (accountsIn g).total + fees results + forfeits results
      = (accountsIn f).total + escrow (results.map (·.tx)) := by
  induction h with
  | start => simp [fees, forfeits, escrow]
  | @next results g tx result c o _ htrial ih =>
    have htx : result.tx = tx := Runner.trial_tx htrial
    have hlast : tx.Apart := htx ▸ apart result (List.mem_append_right _ List.mem_cons_self)
    have hsums : fees (results ++ [result]) = fees results + result.gasFee.toNat
        ∧ forfeits (results ++ [result]) = forfeits results + result.forfeited
        ∧ escrow ((results ++ [result]).map (·.tx)) = escrow (results.map (·.tx)) + tx.prepaid := by
      simp [fees, forfeits, escrow, htx]
    obtain ⟨hfees, hforfeits, hescrow⟩ := hsums
    rw [hescrow] at fits
    have hbefore := ih (fun result hresult => apart result (List.mem_append_left _ hresult)) (by omega)
    rw [hfees, hforfeits, hescrow]
    obtain ⟨status, haway, rfl, hsame⟩ | hran := Runner.trial_ok backend staking htrial
    · have hfee : (CommittedResult.terminal tx status).gasFee.toNat = 0 :=
        toNat_fee (g := 0) (by simp) |>.trans (Nat.zero_mul _)
      have hforfeit : (CommittedResult.terminal tx status).forfeited = tx.prepaid :=
        if_pos haway.forfeits
      rw [hsame]
      omega
    · have hstep := hran.total_eq hlast (by omega)
      have hnone := hran.forfeited_eq
      omega

end RoundLedger
