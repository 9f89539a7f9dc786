import RoundLedger.Proofs.Failures
import RoundLedger.Proofs.Simulation

/-!
# The split of a fee

A transaction has paid for all its gas in advance. Behind its nonce the call makes its changes and names the
gas that it is charged; the fee for the rest goes back to the sender, and nothing else changes any more. What
the backend or the contract reports of the gas does not matter: the fee for the gas charged and the fee that goes
back always make up what was paid.
-/

namespace RoundLedger

open Step Program State

/-! ## Credit -/

theorem Contents.credit_other {f : Contents} {address : Address} {amount : Word} {key : Bytes}
    (h : key ≠ (Key.account address).bytes) : f.credit address amount key = f key := by
  unfold credit
  split
  · rfl
  · exact Contents.put_other _ _ h.symm

theorem Accounts.credit_of_some {m : Accounts} {address : Address} {account : Account}
    (h : m address = some account) (amount : Word) :
    m.credit address amount address
      = some { account with balance := account.balance.addCapped amount } := by
  unfold credit
  split
  next hzero => rw [hzero, Runner.addCapped_zero, h]
  next =>
    rw [set_same, h]
    rfl

/-! ## Runs -/

namespace Runner

variable {r : Runner} {hashes : BlockHashes} {block : Block} {tx : Transaction} {f f' : Contents}

/-- The run of a transaction behind its nonce, before any fee goes back: it makes the changes of the call, and
answers the gas that is charged. -/
def charged (r : Runner) (hashes : BlockHashes) (block : Block) (tx : Transaction) : Program UInt64 := do
  match r.contracts.at? tx.destination with
  | some contract =>
    let outcome ← contract.execute block tx
    return min outcome.gasUsed tx.gasLimit
  | none =>
    let (outcome, _) ← r.callBackend hashes (r.requestOf block tx)
    let changes := outcome.changes.getD {}
    applyChanges changes
    return r.policy.settle tx.gasLimit outcome.gasLeft changes.refund

/-- A result that charges gas for the changes of a call, and returns the fee for the rest. -/
structure Splits (r : Runner) (hashes : BlockHashes) (block : Block) (tx : Transaction) (f : Contents)
    (result : CommittedResult) (f' : Contents) : Prop where
  tx_eq : result.tx = tx
  gasUsed : result.gasUsed ≤ tx.gasLimit
  credited : ∃ g, (r.charged hashes block tx).eval f = .ok result.gasUsed g ∧
    (creditUnused tx result.gasUsed).eval g = .ok result.feeRefund f'

theorem runOnContract_splits {contract : SystemContract} {result : CommittedResult}
    (hcontract : r.contracts.at? tx.destination = some contract)
    (h : (runOnContract contract block tx).eval f = .ok result f') : r.Splits hashes block tx f result f' := by
  obtain ⟨outcome, g, hexecute, hcrediting⟩ := eval_bind_ok.1 h
  obtain ⟨refund, _, hcredit, hdone⟩ := eval_bind_ok.1 hcrediting
  obtain ⟨rfl, rfl⟩ := eval_pure_ok.1 hdone
  refine ⟨rfl, ?_, g, ?_, hcredit⟩
  · rw [UInt64.le_iff_toNat_le, UInt64.toNat_min]
    exact Nat.min_le_right _ _
  · unfold charged
    rw [hcontract]
    exact eval_bind_ok.2 ⟨outcome, g, hexecute, rfl⟩

theorem runOnBackend_splits {result : CommittedResult} {conversation : Conversation}
    (hcontract : r.contracts.at? tx.destination = none)
    (h : (r.runOnBackend hashes block tx).eval f = .ok (result, conversation) f') :
    r.Splits hashes block tx f result f' := by
  obtain ⟨⟨outcome, _⟩, g, hcall, happlying⟩ := eval_bind_ok.1 h
  obtain ⟨_, g', happly, hcrediting⟩ := eval_bind_ok.1 happlying
  obtain ⟨refund, _, hcredit, hdone⟩ := eval_bind_ok.1 hcrediting
  obtain ⟨⟨⟩, rfl⟩ := eval_pure_ok.1 hdone
  refine ⟨rfl, GasPolicy.settle_le _ _ _ _, g', ?_, hcredit⟩
  unfold charged
  rw [hcontract]
  exact eval_bind_ok.2 ⟨_, g, hcall, eval_bind_ok.2 ⟨_, g', happly, rfl⟩⟩

variable {sender : Account}

theorem execute_splits {out : CommittedResult × List Conversation}
    (haccount : accountsIn f tx.sender = some sender) (hnonce : sender.nonce = tx.nonce)
    (h : (r.execute hashes block tx).eval f = .ok out f') :
    r.Splits hashes block tx
      (f.put (Key.account tx.sender).bytes (some (Account.encode { sender with nonce := tx.nonce + 1 }))) out.1 f' := by
  unfold execute at h
  rw [eval_bind, bind_of_ok (checkNonce_passes haccount hnonce)] at h
  obtain ⟨nonce, _, hnext, hsetting⟩ := eval_bind_ok.1 h
  obtain ⟨hadd, rfl⟩ := eval_orFail_ok.1 hnext
  obtain ⟨_, _, hset, hrunning⟩ := eval_bind_ok.1 hsetting
  obtain rfl : nonce = tx.nonce + 1 := by
    unfold UInt64.add? at hadd
    split at hadd
    · rw [← hnonce]
      exact (Option.some.inj hadd).symm
    · cases hadd
  cases hset
  split at hrunning
  next contract hcontract =>
    obtain ⟨result, _, hrun, hdone⟩ := eval_bind_ok.1 hrunning
    obtain ⟨rfl, rfl⟩ := eval_pure_ok.1 hdone
    exact runOnContract_splits hcontract hrun
  next hcontract =>
    obtain ⟨⟨result, conversation⟩, _, hrun, hdone⟩ := eval_bind_ok.1 hrunning
    obtain ⟨rfl, rfl⟩ := eval_pure_ok.1 hdone
    exact runOnBackend_splits hcontract hrun

/-- The gas charged never passes the limit, and the fee for it makes up, with the fee that goes back, what was paid in
advance. The fee that goes back is all that the result adds to the changes of the call, and it goes to the sender,
unless they have deleted the account. -/
theorem prepaid_splits {n m : Node} {result : CommittedResult} {o : Overlay}
    (young : tx.isTooOld block.number = false) (haccount : accountsIn n.view.contents tx.sender = some sender)
    (hnonce : sender.nonce = tx.nonce) (fits : tx.prepaid < 2 ^ 256)
    (h : r.runTransaction block tx n = .ok (result, o) m) :
    result.gasUsed ≤ tx.gasLimit ∧ result.feeRefund.toNat + result.gasFee.toNat = tx.prepaid ∧
      ∃ g, (r.charged n.hashes block tx).eval
          (n.view.contents.put (Key.account tx.sender).bytes
            (some (Account.encode { sender with nonce := tx.nonce + 1 }))) = .ok result.gasUsed g ∧
        (∀ key, key ≠ (Key.account tx.sender).bytes → o.atop n.view.contents key = g key) ∧
        ∀ account, accountsIn g tx.sender = some account → ∃ balance : Word,
          balance.toNat = min (account.balance.toNat + result.feeRefund.toNat) (2 ^ 256 - 1) ∧
            accountsIn (o.atop n.view.contents) tx.sender = some { account with balance } := by
  obtain ⟨⟨conversations, htrial⟩, -⟩ := runTransaction_ok h
  rw [trial, if_neg (by rw [young]; exact Bool.false_ne_true)] at htrial
  have heval := eval_of_above htrial
  rw [Overlay.atop_empty] at heval
  obtain ⟨htx, hgas, g, hcharged, hcredit⟩ := execute_splits haccount hnonce heval
  obtain ⟨hrefund, hcredited⟩ := creditUnused_ok hcredit
  refine ⟨hgas, ?_, g, hcharged, fun key hkey => ?_, fun account hbefore => ?_⟩
  · rw [hrefund, CommittedResult.gasFee, htx, Nat.add_comm]
    exact toNat_fee_add_fee hgas fits
  · rw [hcredited]
    exact Contents.credit_other hkey
  · refine ⟨account.balance.addCapped result.feeRefund, toNat_addCapped_eq_min _ _, ?_⟩
    rw [hcredited, accountsIn_credit]
    exact Accounts.credit_of_some hbefore _

/-- Of the fee for 100000 the sender of 100 pays 21000 and gets the rest back. -/
theorem transfer_splits :
    ∃ result o m,
      Rounds.stakingRunner.runTransaction {} (Rounds.transfer 0) (Rounds.twoTransfers 0) = .ok (result, o) m ∧
        result.gasUsed = 21000 ∧ result.feeRefund.toNat + result.gasFee.toNat = 100000 ∧
        accountsIn (o.atop (Rounds.twoTransfers 0).view.contents) 1 = some { balance := 1078900, nonce := 1 } := by
  have haccount : accountsIn (Rounds.twoTransfers 0).view.contents (Rounds.transfer 0).sender
      = some { balance := 1000000 } := by decide +kernel
  have hends : endsWith (Rounds.stakingRunner.runTransaction {} (Rounds.transfer 0) (Rounds.twoTransfers 0))
      (fun out _ => out.1.gasUsed = 21000 ∧ accountsIn (out.2.atop (Rounds.twoTransfers 0).view.contents) 1
        = some { balance := 1078900, nonce := 1 }) = true := by decide +kernel
  obtain ⟨⟨result, o⟩, m, hrun, htest⟩ := endsWith_iff.1 hends
  obtain ⟨hused, hbalance⟩ := of_decide_eq_true htest
  obtain ⟨-, hsplit, -⟩ := prepaid_splits (by decide +kernel) haccount rfl (by decide +kernel) hrun
  exact ⟨result, o, m, hrun, hused, hsplit, hbalance⟩

end Runner

end RoundLedger
