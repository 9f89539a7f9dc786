import RoundLedger.Proofs.Admission
import RoundLedger.Proofs.Conservation
import RoundLedger.Proofs.Engine

/-!
# Value in accounts and in the queue

The balances and the fees paid in advance for what is queued make up the value that an engine holds.
Admission moves value from the accounts into the queue, and a block moves it back. Only the fees of
transactions that did not run are gone, and the fee of a transaction that the queue lost.
-/

namespace RoundLedger

open Step Program State Queue

namespace Engine

/-- The sum of all balances and of the fees paid in advance for what is queued. -/
def value (e : Engine) : Nat := (accountsIn e.contents).total + escrow (waiting e.contents)

variable {e e' : Engine} {before : QueueRange}

theorem prepare_value {seed : UInt64} {minGasPrice : Word} {maxGasLimit : UInt64}
    {touched : List Address} (hrange : rangeIn e.contents = .ok before)
    (hordered : before.start ≤ before.stop)
    (sized : ∀ tx ∈ e.collected, tx.data.length < UInt64.size)
    (h : prepare seed minGasPrice maxGasLimit e = .ok touched e') :
    ∃ now lost, rangeIn e'.contents = .ok now ∧
      lost.length = (if Passes before.stop now.stop then 1 else 0) ∧
      (∀ tx ∈ lost, tx ∈ e.collected) ∧ e'.value + escrow lost = e.value := by
  obtain ⟨admission, f, range, hselect, happend, -⟩ := prepare_ok h
  obtain ⟨htotal, hadmitted⟩ := Admission.select_ok hselect
  -- Charging the senders leaves the queue alone, so the queue before is the one appended to.
  have hqueue : ∀ key, Key.IsQueue key → e.contents key = f key := fun key hkey =>
    (eval_avoids hselect (Admission.select_avoids (fun k hk => Key.not_isQueue_of_isState hk)
      _ _ _ _) hkey).symm
  obtain ⟨range', happended, -⟩ := append_ok happend
  have hsame := happended.range
  rw [← rangeIn_congr hqueue, hrange] at hsame
  cases hsame
  have hperm := happended.waiting_perm hordered fun tx htx => sized tx (hadmitted tx htx)
  have hescrow := escrow_perm hperm
  have haccounts := happended.sameState.accountsIn_eq
  rw [← waiting_congr hqueue, escrow_append, escrow_append] at hescrow
  refine ⟨_, lost before.stop admission.admitted, happended.next, length_lost happended.fits, ?_, ?_⟩
  · intro tx htx
    have hmem := (kept_append_lost before.stop admission.admitted).mem_iff.1 (List.mem_append_right _ htx)
    exact hadmitted tx hmem
  · rw [value, value, haccounts]
    omega

theorem creditCoinbase_ok {coinbase : Address} {amount : Word} {f f' : Contents} {u : Unit}
    (h : (creditCoinbase coinbase amount).eval f = .ok u f') : f' = f.credit coinbase amount := by
  unfold creditCoinbase at h
  unfold Contents.credit
  split at h
  next hzero =>
    obtain ⟨-, rfl⟩ := eval_pure_ok.1 h
    exact (if_pos hzero).symm
  next hsome =>
    obtain ⟨found, f, hfound, hset⟩ := eval_bind_ok.1 h
    obtain ⟨rfl, rfl⟩ := account_ok hfound
    cases hset
    exact (if_neg hsome).symm

theorem execute_value {dealer : UInt64 → Dealer} {block : Block} {u : Unit}
    (backend : e.runner.backend = Transfer.backend) (staking : e.runner.contracts.OnlyStaking)
    (hrange : rangeIn e.contents = .ok before) (hordered : before.start ≤ before.stop)
    (fits : e.value < 2 ^ 256) (apart : ∀ tx ∈ waiting e.contents, tx.Apart)
    (h : execute dealer block e = .ok u e') :
    ∃ now lost, rangeIn e'.contents = .ok now ∧
      lost.length = (if Passes before.stop now.stop then 1 else 0) ∧
      (∀ tx ∈ lost, tx ∈ waiting e.contents) ∧
      e'.value + forfeits e'.committed + escrow lost = e.value := by
  obtain ⟨execution, n, hexecute, hcredit, hcommitted⟩ := execute_ok h
  obtain ⟨_, _, _, -, -, -, hruns, -⟩ := Rounds.execute_runs hexecute
  -- A serial run of what was published ends in the same accounts: value is counted along it.
  obtain ⟨s, hserial, hsame⟩ := hruns.serial staking.avoids staking.quiet
  obtain ⟨now, hmoved⟩ := hruns.moved staking.avoids hrange hordered
  obtain ⟨lost, hlength, hperm⟩ := hmoved.conserved
  have hresults : execution.published.map (·.result.tx) = execution.results.map (·.tx) := by
    simp [BlockExecution.results]
  rw [hresults] at hperm
  have hcredited := creditCoinbase_ok hcredit
  have hqueue : ∀ key, Key.IsQueue key → n.view.contents key = e'.contents key := fun key hkey => by
    rw [hcredited, Contents.credit_queue _ _ _ hkey]
  have haccounts := congrArg accountsIn hcredited
  rw [accountsIn_credit] at haccounts
  have hescrow := escrow_perm hperm
  rw [escrow_append, escrow_append, waiting_congr hqueue] at hescrow
  change _ = escrow (waiting e.contents) at hescrow
  have hpublished : ∀ result ∈ execution.results, result.tx.Apart := by
    intro result hresult
    refine apart _ (hperm.mem_iff.1 ?_)
    exact List.mem_append_left _ (List.mem_append_left _ (List.mem_map_of_mem hresult))
  unfold value at fits
  have htotal := hserial.total_eq backend staking hpublished (by
    change (accountsIn e.contents).total + _ < _
    omega)
  change _ = (accountsIn e.contents).total + _ at htotal
  rw [hsame.accountsIn_eq] at htotal
  have hfee : (GasTotals.ofResults execution.results).fee.toNat = fees execution.results :=
    GasTotals.toNat_fee (by omega)
  refine ⟨now, lost, ?_, hlength, ?_, ?_⟩
  · rw [← rangeIn_congr hqueue, hmoved.range]
  · exact fun tx htx => hperm.mem_iff.1 (List.mem_append_right _ htx)
  · rw [value, value, haccounts, hcommitted, Accounts.total_credit (by omega)]
    omega

/-- The value of an engine is conserved, but for what its blocks forfeit and for the fee of a
transaction that the queue loses. It loses one when its end passes over the reserved position, and none
otherwise. The data of a collected transaction is stored with its length in 64 bits. -/
theorem value_conserved (backend : e.runner.backend = Transfer.backend)
    (staking : e.runner.contracts.OnlyStaking) (hrange : rangeIn e.contents = .ok before)
    (hordered : before.start ≤ before.stop) (fits : e.value < 2 ^ 256)
    (apart : ∀ tx ∈ waiting e.contents, tx.Apart)
    (sized : ∀ tx ∈ e.collected, tx.data.length < UInt64.size) :
    (∀ seed minGasPrice maxGasLimit touched e',
      prepare seed minGasPrice maxGasLimit e = .ok touched e' →
      ∃ now lost, rangeIn e'.contents = .ok now ∧
        lost.length = (if Passes before.stop now.stop then 1 else 0) ∧
        (∀ tx ∈ lost, tx ∈ e.collected) ∧ e'.value + escrow lost = e.value) ∧
    (∀ dealer block u e', execute dealer block e = .ok u e' →
      ∃ now lost, rangeIn e'.contents = .ok now ∧
        lost.length = (if Passes before.stop now.stop then 1 else 0) ∧
        (∀ tx ∈ lost, tx ∈ waiting e.contents) ∧
        e'.value + forfeits e'.committed + escrow lost = e.value) := by
  constructor
  · intro seed minGasPrice maxGasLimit touched e' h
    exact prepare_value hrange hordered sized h
  · intro dealer block u e' h
    exact execute_value backend staking hrange hordered fits apart h

/-! ## Two transfers -/

def withTransfers (start : UInt64) : Engine :=
  { runner := Rounds.stakingRunner
    desk := { node := Rounds.twoTransfers start }
    collected := [Rounds.transfer 0] }

theorem accountsIn_withTransfers (start : UInt64) :
    accountsIn (withTransfers start).contents
      = Accounts.set (fun _ => none) 1 (some { balance := 1000000 }) := by
  funext address
  have hqueue := fun (key : Bytes) (hkey : Key.IsQueue key) (h : key = (Key.account address).bytes) =>
    Key.not_isQueue_of_isState (k := .account address) rfl (h ▸ hkey)
  change accountsIn (Rounds.twoTransfers start).view.contents address = _
  rw [accountsIn, Rounds.twoTransfers_contents, if_neg (hqueue _ (Key.isQueue_entry _)),
    if_neg (hqueue _ (Key.isQueue_entry _)), if_neg (hqueue _ Key.isQueue_queue), Accounts.set]
  by_cases hsame : 1 = address
  · subst hsame
    rw [if_pos rfl, if_pos rfl]
    decide +kernel
  · rw [if_neg fun hkey => hsame (Key.account_bytes_inj hkey), if_neg hsame]

theorem total_withTransfers (start : UInt64) :
    (accountsIn (withTransfers start).contents).total = 1000000 := by
  rw [accountsIn_withTransfers, Accounts.total_single]
  decide

theorem value_withTransfers_lt {start : UInt64}
    (h : escrow (waiting (withTransfers start).contents) = 200000) :
    (withTransfers start).value < 2 ^ 256 := by
  rw [value, total_withTransfers, h]
  decide

theorem rangeIn_withTransfers {start : UInt64} (hstart : start.toNat + 2 < UInt64.size)
    (hfirst : start ≠ reserved) (hsecond : start + 1 ≠ reserved) :
    rangeIn (withTransfers start).contents = .ok ⟨start, start + 2⟩ :=
  (Rounds.twoTransfers_wellFormed start hstart hfirst hsecond).range

theorem transfer_apart (nonce : UInt64) : (Rounds.transfer nonce).Apart where
  sender := by
    change (1 : Address) ≠ Staking.address
    decide
  created := nofun

theorem withTransfers_conserved :
    (∃ touched e', prepare 0 0 100000 (withTransfers 0) = .ok touched e' ∧
      touched.length = 1 ∧ e'.value = (withTransfers 0).value) ∧
    (∃ u e', execute (fun _ => .inOrder) {} (withTransfers 0) = .ok u e' ∧
      e'.committed.length = 2 ∧ e'.value + forfeits e'.committed = (withTransfers 0).value) := by
  have hprepare : endsWith (prepare 0 0 100000 (withTransfers 0)) (fun touched e' =>
      touched.length == 1 && (rangeIn e'.contents).toOption == some ⟨0, 3⟩) = true := by
    decide +kernel
  have hexecute : endsWith (execute (fun _ => .inOrder) {} (withTransfers 0)) (fun _ e' =>
      e'.committed.length == 2 && (rangeIn e'.contents).toOption == some ⟨3, 3⟩) = true := by
    decide +kernel
  obtain ⟨touched, e₁, hprepare, htest₁⟩ := endsWith_iff.1 hprepare
  obtain ⟨u, e₂, hexecute, htest₂⟩ := endsWith_iff.1 hexecute
  simp only [Bool.and_eq_true, beq_iff_eq] at htest₁ htest₂
  have hwaiting : waiting (withTransfers 0).contents = [Rounds.transfer 0, Rounds.transfer 1] := by
    decide +kernel
  have hescrow : escrow (waiting (withTransfers 0).contents) = 200000 := by
    rw [hwaiting]
    decide
  have hconserved := value_conserved rfl ContractTable.onlyStaking_insert
    (rangeIn_withTransfers (by decide) (by decide) (by decide)) (by decide)
    (value_withTransfers_lt hescrow) (by rw [hwaiting]; simp [transfer_apart]) (by decide)
  obtain ⟨now₁, lost₁, hrange₁, hlength₁, -, hvalue₁⟩ := hconserved.1 _ _ _ _ _ hprepare
  obtain ⟨now₂, lost₂, hrange₂, hlength₂, -, hvalue₂⟩ := hconserved.2 _ _ _ _ hexecute
  rw [hrange₁] at htest₁
  rw [hrange₂] at htest₂
  obtain rfl : now₁ = ⟨0, 3⟩ := Option.some.inj htest₁.2
  obtain rfl : now₂ = ⟨3, 3⟩ := Option.some.inj htest₂.2
  rw [if_neg (by decide), List.length_eq_zero_iff] at hlength₁ hlength₂
  rw [hlength₁, escrow_nil, Nat.add_zero] at hvalue₁
  rw [hlength₂, escrow_nil, Nat.add_zero] at hvalue₂
  exact ⟨⟨touched, e₁, hprepare, htest₁.1, hvalue₁⟩, u, e₂, hexecute, htest₂.1, hvalue₂⟩

/-- A transaction that is admitted to the reserved position has paid, and is not queued. -/
theorem withTransfers_lost :
    WellFormed (withTransfers (reserved - 2)).contents ⟨reserved - 2, reserved⟩ ∧
      (withTransfers (reserved - 2)).value < 2 ^ 256 ∧
      (∀ tx ∈ (withTransfers (reserved - 2)).collected, tx.Apart) ∧
      ∃ touched e', prepare 0 0 100000 (withTransfers (reserved - 2)) = .ok touched e' ∧
        e'.value < (withTransfers (reserved - 2)).value := by
  have hends : endsWith (prepare 0 0 100000 (withTransfers (reserved - 2))) (fun touched e' =>
      (rangeIn e'.contents).toOption == some ⟨reserved - 2, reserved + 1⟩) = true := by
    decide +kernel
  obtain ⟨touched, e', h, htest⟩ := endsWith_iff.1 hends
  have hescrow : escrow (waiting (withTransfers (reserved - 2)).contents) = 200000 := by
    decide +kernel
  have hwell := Rounds.twoTransfers_wellFormed (reserved - 2) (by decide) (by decide) (by decide)
  refine ⟨hwell, value_withTransfers_lt hescrow, by simp [withTransfers, transfer_apart], touched, e',
    h, ?_⟩
  obtain ⟨now, lost, hrange, hlength, hcollected, hvalue⟩ :=
    prepare_value (e := withTransfers (reserved - 2)) hwell.range hwell.ordered (by decide) h
  rw [hrange] at htest
  obtain rfl : now = ⟨reserved - 2, reserved + 1⟩ := Option.some.inj (beq_iff_eq.1 htest)
  rw [if_pos (by decide), List.length_eq_one_iff] at hlength
  obtain ⟨tx, rfl⟩ := hlength
  obtain rfl : tx = Rounds.transfer 0 := List.mem_singleton.1 (hcollected tx List.mem_cons_self)
  rw [← hvalue]
  exact Nat.lt_add_of_pos_right (by decide)

end Engine

end RoundLedger
