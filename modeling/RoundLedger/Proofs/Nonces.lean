import RoundLedger.Proofs.Effects

/-!
# Nonces are used once and in order

Running a transaction takes the nonce of its sender one up and leaves all others, unless a contract
is created over an account. So over a block a sender uses consecutive nonces, from the one its
account had on, whatever was queued.
-/

namespace RoundLedger

open Step State

/-! ## One transaction -/

namespace Accounts

variable {m : Accounts} {address other : Address}

theorem nonce_set (m : Accounts) (address other : Address) (account : Account) :
    (m.set address (some account)).nonce other
      = if address = other then account.nonce else m.nonce other := by
  unfold nonce set
  split
  · rfl
  · rfl

/-- An account that keeps its nonce can be written without changing any nonce. -/
theorem nonce_set_of_nonce_eq {account : Account} (h : account.nonce = m.nonce address)
    (other : Address) : (m.set address (some account)).nonce other = m.nonce other := by
  rw [nonce_set]
  split
  next hsame => rw [← hsame, h]
  next => rfl

theorem nonce_credit (m : Accounts) (address other : Address) (amount : Word) :
    (m.credit address amount).nonce other = m.nonce other := by
  unfold credit
  split
  · rfl
  · apply nonce_set_of_nonce_eq
    exact nonce_getD m address

theorem nonce_debited (m : Accounts) (payer other : Address) (amount : Word) :
    (m.set payer (some { (m payer).getD {} with
      balance := ((m payer).getD {}).balance - amount })).nonce other = m.nonce other := by
  apply nonce_set_of_nonce_eq
  exact nonce_getD m payer

theorem nonce_pay (m : Accounts) (payer receiver other : Address) (amount : Word) :
    (m.pay payer receiver amount).nonce other = m.nonce other := by
  unfold pay
  rw [nonce_set_of_nonce_eq, nonce_debited]
  rw [nonce_debited]
  exact nonce_getD m receiver

theorem nonce_deploy (m : Accounts) {payer address other : Address} (amount : Word)
    (sequence : UInt64) (h : address ≠ other) :
    (m.deploy payer address amount sequence).nonce other = m.nonce other := by
  unfold deploy
  rw [nonce_set, if_neg h, nonce_debited]

end Accounts

theorem Effect.nonce_eq {tx : Transaction} {m m' : Accounts} {created : Option Address}
    (h : Effect tx m created m') {address : Address} (apart : created ≠ some address) :
    m'.nonce address = m.nonce address := by
  cases h with
  | still => rfl
  | paid _ _ => exact Accounts.nonce_pay m _ _ _ _
  | created _ _ => exact Accounts.nonce_deploy m _ _ fun hsame => apart (congrArg some hsame)

/-- The nonce of the sender goes one up, that of every other account stays. -/
theorem Ran.nonce_eq {tx : Transaction} {m m' : Accounts} {result : CommittedResult}
    (h : Ran tx m result m') {address : Address} (apart : result.contract ≠ some address) :
    m'.nonce address = if tx.sender = address then tx.nonce + 1 else m.nonce address := by
  obtain ⟨account, moved, -, -, -, heffect, rfl⟩ := h.effect
  rw [Accounts.nonce_credit, heffect.nonce_eq apart, Accounts.nonce_set]

theorem Ran.nonce_sender {tx : Transaction} {m m' : Accounts} {result : CommittedResult}
    (h : Ran tx m result m') :
    m.nonce tx.sender = tx.nonce ∧ (tx.nonce + 1).toNat = tx.nonce.toNat + 1 := by
  obtain ⟨account, moved, haccount, hnonce, hfits, -, -⟩ := h.effect
  refine ⟨?_, UInt64.toNat_add_ofNat (n := 1) hfits⟩
  rw [Accounts.nonce, haccount]
  exact hnonce

/-! ## Blocks -/

namespace Rounds

/-- The nonces that a sender has used, in the order of the results. -/
def usedNonces (sender : Address) (results : List CommittedResult) : List Nat :=
  (results.filter fun result =>
    result.tx.sender == sender && !result.status.isEngineAssigned).map (·.tx.nonce.toNat)

variable {r : Runner} {hashes : BlockHashes} {block : Block}
  (backend : r.backend = Transfer.backend) (staking : r.contracts.OnlyStaking)

include backend staking

theorem Serial.nonces {f g : Contents} {results : List CommittedResult}
    (h : Serial r hashes block f results g) {sender : Address}
    (apart : ∀ result ∈ results, result.contract ≠ some sender) :
    ∃ k, usedNonces sender results = List.range' ((accountsIn f).nonce sender).toNat k ∧
      ((accountsIn g).nonce sender).toNat = ((accountsIn f).nonce sender).toNat + k := by
  induction h with
  | start => exact ⟨0, rfl, rfl⟩
  | @next results g tx result c o _ htrial ih =>
    obtain ⟨k, hused, hnonce⟩ := ih fun result hresult => apart result (List.mem_append_left _ hresult)
    have hresult := apart result (List.mem_append_right _ List.mem_cons_self)
    rw [usedNonces, List.filter_append, List.map_append, ← usedNonces, hused]
    obtain ⟨status, haway, rfl, hsame⟩ | hran := Runner.trial_ok backend staking htrial
    · -- A transaction that is turned away uses nothing.
      refine ⟨k, ?_, by rw [hsame, hnonce]⟩
      simp [CommittedResult.terminal, haway.assigned]
    · rw [hran.nonce_eq hresult]
      by_cases hsender : tx.sender = sender
      · obtain ⟨hbefore, hafter⟩ := hran.nonce_sender
        rw [hsender] at hbefore
        refine ⟨k + 1, ?_, ?_⟩
        · rw [List.range'_1_concat, ← hnonce, hbefore]
          simp [hran.tx_eq, hsender, hran.assigned]
        · rw [if_pos hsender, hafter, ← hbefore, hnonce]
          omega
      · refine ⟨k, ?_, by rw [if_neg hsender, hnonce]⟩
        simp [hran.tx_eq, hsender]

/-- A sender uses consecutive nonces from the one of its account on, each of them once, and its account
ends behind the last. -/
theorem execute_nonces {pool : Pool} {dealer : Dealer} {n n' : Node} {e : BlockExecution}
    (h : pool.execute r block dealer n = .ok e n') (sender : Address)
    (apart : ∀ result ∈ e.results, result.contract ≠ some sender) :
    ∃ k, usedNonces sender e.results
        = List.range' ((accountsIn n.view.contents).nonce sender).toNat k ∧
      ((accountsIn n'.view.contents).nonce sender).toNat
        = ((accountsIn n.view.contents).nonce sender).toNat + k := by
  obtain ⟨_, _, _, -, -, -, hruns, -⟩ := execute_runs h
  obtain ⟨s, hserial, hsame⟩ := hruns.serial staking.avoids staking.quiet
  rw [← hsame.accountsIn_eq]
  exact hserial.nonces backend staking apart

omit backend staking in
theorem twoTransfers_nonces :
    ∃ e n', smallPool.execute stakingRunner {} .inOrder (twoTransfers 0) = .ok e n' ∧
      usedNonces 1 e.results = [0, 1] ∧ ((accountsIn n'.view.contents).nonce 1).toNat = 2 := by
  have hends : endsWith (smallPool.execute stakingRunner {} .inOrder (twoTransfers 0))
      (fun e _ => (usedNonces 1 e.results).length == 2 && e.results.all (·.contract != some 1)) = true := by
    decide +kernel
  obtain ⟨e, n', h, htest⟩ := endsWith_iff.1 hends
  simp only [Bool.and_eq_true, beq_iff_eq, List.all_eq_true, bne_iff_ne] at htest
  obtain ⟨k, hused, hnonce⟩ :=
    execute_nonces rfl ContractTable.onlyStaking_insert h 1 htest.2
  have hbefore : ((accountsIn (twoTransfers 0).view.contents).nonce 1).toNat = 0 := by decide +kernel
  have hk : k = 2 := by
    rw [← htest.1, hused, List.length_range']
  rw [hbefore, hk] at hused hnonce
  exact ⟨e, n', h, hused, hnonce⟩

end Rounds

end RoundLedger
