import Mathlib.Algebra.Order.BigOperators.Group.Finset
import RoundLedger.Proofs.Reachable

/-!
# Stakes are covered

The recorded total is the exact sum of all stakes, and the balance of the staking contract covers it. This
holds of every state that an engine reaches without stakes at its start, for a stake moves together with the
total and with the balance, and whatever else happens pays into the contract at most. So the contract can pay
back every stake, and none of its sums wraps around.
-/

namespace RoundLedger

open Step Program State Queue

/-! ## Balances -/

namespace Accounts

variable {m : Accounts} {payer receiver other : Address} {amount : Word}

theorem balance_pay_payer (h : payer ≠ receiver) (covered : amount.toNat ≤ m.balance payer) :
    (m.pay payer receiver amount).balance payer + amount.toNat = m.balance payer := by
  rw [pay, balance_set, if_neg h.symm, balance_set, if_pos rfl]
  exact toNat_debited covered

theorem balance_pay_receiver (h : payer ≠ receiver) (covered : amount.toNat ≤ m.balance payer)
    (fits : m.total < 2 ^ 256) :
    (m.pay payer receiver amount).balance receiver = m.balance receiver + amount.toNat := by
  rw [pay, balance_set, if_pos rfl]
  exact toNat_credited h covered fits

theorem total_set_le (m : Accounts) (address : Address) (account : Account) :
    (m.set address (some account)).total ≤ m.total + account.balance.toNat := by
  have htotal := total_set m address account
  omega

/-- An account that does not pay has no less than before. -/
theorem balance_le_pay (h : payer ≠ receiver) (covered : amount.toNat ≤ m.balance payer)
    (fits : m.total < 2 ^ 256) (hother : payer ≠ other) :
    m.balance other ≤ (m.pay payer receiver amount).balance other := by
  by_cases hreceiver : receiver = other
  · subst hreceiver
    rw [balance_pay_receiver h covered fits]
    exact Nat.le_add_right _ _
  · rw [pay, balance_set, if_neg hreceiver, balance_set, if_neg hother]

theorem balance_le_deploy {sequence : UInt64} (h : payer ≠ receiver)
    (covered : amount.toNat ≤ m.balance payer) (fits : m.total < 2 ^ 256) (hother : payer ≠ other) :
    m.balance other ≤ (m.deploy payer receiver amount sequence).balance other := by
  by_cases hreceiver : receiver = other
  · subst hreceiver
    rw [deploy, balance_set, if_pos rfl]
    dsimp only
    rw [toNat_credited h covered fits]
    exact Nat.le_add_right _ _
  · rw [deploy, balance_set, if_neg hreceiver, balance_set, if_neg hother]

theorem toNat_le_addCapped (x y : Word) : x.toNat ≤ (x.addCapped y).toNat := by
  have hx := x.isLt
  unfold BitVec.addCapped BitVec.uaddOverflow
  split
  · rw [BitVec.toNat_allOnes]
    omega
  next hfits =>
    rw [decide_eq_true_eq, Nat.not_le] at hfits
    rw [BitVec.toNat_add, Nat.mod_eq_of_lt hfits]
    exact Nat.le_add_right _ _

theorem balance_le_credit (m : Accounts) (address other : Address) (amount : Word) :
    m.balance other ≤ (m.credit address amount).balance other := by
  unfold credit
  split
  · exact Nat.le_refl _
  · dsimp only
    rw [balance_set]
    split
    next hsame =>
      subst hsame
      rw [← toNat_getD_balance]
      exact toNat_le_addCapped _ _
    next => exact Nat.le_refl _

end Accounts

/-! ## The ledger of stakes -/

/-- The number in a slot of the staking contract; zero when it cannot be read. -/
def World.word (w : World) (slot : Digest) : Nat := (w.words slot).elim 0 BitVec.toNat

theorem World.word_of_some {w : World} {slot : Digest} {word : Word} (h : w.words slot = some word) :
    w.word slot = word.toNat := by
  rw [World.word, h]
  rfl

theorem World.word_record {w : World} {staker : Address} {stake sum : Word} {slot : Digest} :
    (w.record staker stake sum).word slot
      = if slot = Staking.totalSlot then sum.toNat
        else if slot = Staking.slotOf staker then stake.toNat else w.word slot := by
  unfold World.word World.record
  dsimp only
  by_cases htotal : slot = Staking.totalSlot
  · rw [if_pos htotal, htotal, Function.update_self]
    rfl
  · rw [if_neg htotal, Function.update_of_ne htotal]
    by_cases hstaker : slot = Staking.slotOf staker
    · rw [if_pos hstaker, hstaker, Function.update_self]
      rfl
    · rw [if_neg hstaker, Function.update_of_ne hstaker]

namespace Staking

/-- The stakers have slots of their own, and none of these is the slot of the total. -/
structure Distinct (stakers : Finset Address) : Prop where
  injOn : ∀ a ∈ stakers, ∀ b ∈ stakers, slotOf a = slotOf b → a = b
  apart : ∀ a ∈ stakers, slotOf a ≠ totalSlot

/-- The total is the sum of the stakes, nobody else has a stake, and the balance covers the total. -/
structure Ledger (stakers : Finset Address) (w : World) : Prop where
  readable : ∀ slot, (w.words slot).isSome
  total : w.word totalSlot = ∑ a ∈ stakers, w.word (slotOf a)
  others : ∀ slot, slot ≠ totalSlot → (∀ a ∈ stakers, slotOf a ≠ slot) → w.word slot = 0
  covered : w.word totalSlot ≤ w.accounts.balance address
  fits : w.accounts.total < 2 ^ 256

variable {stakers : Finset Address} {w w' : World} {tx : Transaction}

/-- No slot holds more than the total. -/
theorem Ledger.word_le (h : Ledger stakers w) (slot : Digest) : w.word slot ≤ w.word totalSlot := by
  by_cases hstaker : ∃ a ∈ stakers, slotOf a = slot
  · obtain ⟨a, ha, rfl⟩ := hstaker
    rw [h.total]
    exact Finset.single_le_sum (f := fun a => w.word (slotOf a)) (fun _ _ => Nat.zero_le _) ha
  · by_cases htotal : slot = totalSlot
    · rw [htotal]
    · rw [h.others slot htotal fun a ha hslot => hstaker ⟨a, ha, hslot⟩]
      exact Nat.zero_le _

theorem Ledger.not_uncovered (h : Ledger stakers w) : ¬ Uncovered tx w := by
  rintro ⟨amount, stake, hstake, hamount, hshort⟩
  have hle := h.word_le (slotOf tx.sender)
  rw [World.word_of_some hstake] at hle
  rw [BitVec.le_def] at hamount
  have hcovered := h.covered
  omega

/-! ## Solvent contents -/

/-- The stake that a transaction moves into the contract when it succeeds. -/
def moved (tx : Transaction) : Int :=
  match selector? tx.data with
  | some .stake => tx.value.toNat
  | some .unstake => -((amountArgument tx.data).elim 0 BitVec.toNat : Nat)
  | _ => 0

/-- The stake of the sender, the total and both balances change by what the transaction moves, as numbers:
no sum and no difference wraps around. -/
def Moves (tx : Transaction) (status : Status) (f g : Contents) : Prop :=
  let change : Int := if status = .success then moved tx else 0
  ∃ stake sum stake' sum' : Word,
    (stakeOf tx.sender).eval f = .ok stake f ∧ total.eval f = .ok sum f ∧
    (stakeOf tx.sender).eval g = .ok stake' g ∧ total.eval g = .ok sum' g ∧
    stake'.toNat = stake.toNat + change ∧ sum'.toNat = sum.toNat + change ∧
    (accountsIn g).balance address = (accountsIn f).balance address + change ∧
    (accountsIn g).balance tx.sender = (accountsIn f).balance tx.sender - change

/-- The contract can pay back every stake. -/
structure Solvent (stakers : Finset Address) (f : Contents) : Prop where
  /-- The total is the exact sum of the stakes, and the balance of the contract covers it. -/
  backed : ∃ (stake : Address → Word) (sum : Word), (∀ a, (stakeOf a).eval f = .ok (stake a) f) ∧
    total.eval f = .ok sum f ∧ sum.toNat = ∑ a ∈ stakers, (stake a).toNat ∧
    sum.toNat ≤ (accountsIn f).balance address
  /-- Nobody else has a stake, unless two slots are the same. -/
  others : ∀ a, slotOf a ≠ totalSlot → (∀ b ∈ stakers, slotOf b ≠ slotOf a) →
    (stakeOf a).eval f = .ok 0 f
  repays : ∀ block tx fault g, (execute block tx).eval f = .error fault g → fault ≠ .stakeUncovered
  /-- Whoever it is called by, but for itself, which would be paid and charged in one. -/
  moves : ∀ block tx outcome g, tx.sender ≠ address → slotOf tx.sender ≠ totalSlot →
    (execute block tx).eval f = .ok outcome g → Moves tx outcome.status f g

variable {f g : Contents}

theorem readWord_of_word {slot : Digest} {word : Word} (h : (worldIn f).words slot = some word) :
    (readWord slot).eval f = .ok word f := readWord_iff.2 ⟨h, rfl⟩

theorem Ledger.exists_word (h : Ledger stakers w) (slot : Digest) :
    ∃ word, w.words slot = some word := Option.isSome_iff_exists.1 (h.readable slot)

/-- What is recorded in the end is read from there. -/
theorem reads_of_record {staker : Address} (hslot : slotOf staker ≠ totalSlot) {m : Accounts} {stake sum : Word}
    (h : worldIn g = ({ worldIn f with accounts := m } : World).record staker stake sum) :
    (stakeOf staker).eval g = .ok stake g ∧ total.eval g = .ok sum g ∧ accountsIn g = m := by
  refine ⟨readWord_of_word ?_, readWord_of_word ?_, congrArg World.accounts h⟩
  · rw [h]
    unfold World.record
    dsimp only
    rw [Function.update_of_ne hslot, Function.update_self]
  · rw [h]
    unfold World.record
    dsimp only
    rw [Function.update_self]

/-- Both sums of a stake fit, for the balances that they came from fit together. -/
theorem Ledger.toNat_staked (h : Ledger stakers w) (hsender : tx.sender ≠ address)
    (covered : tx.value.toNat ≤ w.accounts.balance tx.sender) {stake sum : Word}
    (hstake : w.words (slotOf tx.sender) = some stake) (hsum : w.words totalSlot = some sum) :
    (stake + tx.value).toNat = stake.toNat + tx.value.toNat ∧
      (sum + tx.value).toNat = sum.toNat + tx.value.toNat ∧
      sum.toNat ≤ w.accounts.balance address := by
  have hle := h.word_le (slotOf tx.sender)
  have hcovered := h.covered
  have hboth := Accounts.balance_add_le_total w.accounts hsender
  have hfits := h.fits
  rw [World.word_of_some hsum] at hcovered hle
  rw [World.word_of_some hstake] at hle
  rw [BitVec.toNat_add, BitVec.toNat_add, Nat.mod_eq_of_lt (by omega), Nat.mod_eq_of_lt (by omega)]
  exact ⟨rfl, rfl, hcovered⟩

/-- Both differences are proper, for no stake is larger than the total. -/
theorem Ledger.toNat_unstaked (h : Ledger stakers w) {amount stake sum : Word}
    (hstake : w.words (slotOf tx.sender) = some stake) (henough : amount ≤ stake)
    (hsum : w.words totalSlot = some sum) :
    (stake - amount).toNat + amount.toNat = stake.toNat ∧
      (sum - amount).toNat + amount.toNat = sum.toNat ∧ sum.toNat ≤ w.accounts.balance address := by
  have hle := h.word_le (slotOf tx.sender)
  have hcovered := h.covered
  rw [World.word_of_some hsum] at hcovered hle
  rw [World.word_of_some hstake] at hle
  have henough' := BitVec.le_def.1 henough
  rw [BitVec.toNat_sub_of_le henough, BitVec.toNat_sub_of_le (by rw [BitVec.le_def]; omega)]
  exact ⟨by omega, by omega, hcovered⟩

theorem Ledger.moves (h : Ledger stakers (worldIn f)) (hsender : tx.sender ≠ address)
    (hslot : slotOf tx.sender ≠ totalSlot) {status : Status}
    (hacts : Acts tx (worldIn f) status (worldIn g)) : Moves tx status f g := by
  have hsame (hw : worldIn g = worldIn f) (hchange : (if status = .success then moved tx else 0) = 0) :
      Moves tx status f g := by
    obtain ⟨stake, hstake⟩ := h.exists_word (slotOf tx.sender)
    obtain ⟨sum, hsum⟩ := h.exists_word totalSlot
    have haccounts : accountsIn g = accountsIn f := congrArg World.accounts hw
    refine ⟨stake, sum, stake, sum, readWord_of_word hstake, readWord_of_word hsum,
      readWord_of_word (hw ▸ hstake), readWord_of_word (hw ▸ hsum), ?_⟩
    rw [hchange, haccounts]
    simp
  generalize hw : worldIn g = w at hacts
  cases hacts with
  | refused hfails _ => exact hsame hw (if_neg hfails)
  | viewed hselector =>
    refine hsame hw ?_
    rw [if_pos rfl]
    obtain hselector | hselector := hselector <;> rw [moved, hselector]
  | @staked stake sum hselector covered hstake hsum =>
    obtain ⟨hstake', hsum', -⟩ := h.toNat_staked hsender covered hstake hsum
    obtain ⟨hnow, htotal, haccounts⟩ := reads_of_record hslot hw
    have hpayer := Accounts.balance_pay_payer hsender covered
    have hreceiver := Accounts.balance_pay_receiver hsender covered h.fits
    refine ⟨stake, sum, _, _, readWord_of_word hstake, readWord_of_word hsum, hnow, htotal, ?_⟩
    rw [haccounts, if_pos rfl, moved, hselector]
    rw [worldIn_accounts] at hpayer hreceiver ⊢
    dsimp only
    omega
  | @unstaked amount stake sum hselector hamount covered hstake henough hsum =>
    obtain ⟨hstake', hsum', -⟩ := h.toNat_unstaked hstake henough hsum
    obtain ⟨hnow, htotal, haccounts⟩ := reads_of_record hslot hw
    have hpayer := Accounts.balance_pay_payer hsender.symm covered
    have hreceiver := Accounts.balance_pay_receiver hsender.symm covered h.fits
    refine ⟨stake, sum, _, _, readWord_of_word hstake, readWord_of_word hsum, hnow, htotal, ?_⟩
    rw [haccounts, if_pos rfl, moved, hselector, hamount]
    rw [worldIn_accounts] at hpayer hreceiver ⊢
    dsimp only [Option.elim]
    omega

theorem Ledger.solvent (h : Ledger stakers (worldIn f)) : Solvent stakers f where
  backed := by
    choose word hword using h.exists_word
    refine ⟨fun a => word (slotOf a), word totalSlot, fun a => readWord_of_word (hword _),
      readWord_of_word (hword _), ?_, ?_⟩
    · rw [← World.word_of_some (hword totalSlot), h.total]
      exact Finset.sum_congr rfl fun a _ => World.word_of_some (hword _)
    · rw [← World.word_of_some (hword totalSlot)]
      exact h.covered
  others a htotal hslots := by
    obtain ⟨word, hword⟩ := h.exists_word (slotOf a)
    have hzero := h.others (slotOf a) htotal hslots
    rw [World.word_of_some hword] at hzero
    obtain rfl : word = 0 := BitVec.eq_of_toNat_eq hzero
    exact readWord_of_word hword
  repays block tx fault g hstop := by
    rintro rfl
    exact h.not_uncovered (execute_asserts block hstop rfl).2
  moves block tx outcome g hsender hslot hrun := h.moves hsender hslot (execute_ok block hrun)

/-! ## What keeps the ledger -/

/-- Value that does not leave the contract keeps the ledger. -/
theorem Ledger.accounts (h : Ledger stakers w) {m : Accounts}
    (hbalance : w.accounts.balance address ≤ m.balance address) (fits : m.total < 2 ^ 256) :
    Ledger stakers { w with accounts := m } where
  readable := h.readable
  total := h.total
  others := h.others
  covered := h.covered.trans hbalance
  fits := fits

theorem Ledger.use (h : Ledger stakers w) {account : Account}
    (haccount : w.accounts tx.sender = some account) : Ledger stakers (w.use tx account) := by
  have hsender : w.accounts.balance tx.sender = account.balance.toNat := by
    rw [Accounts.balance, haccount]
    rfl
  have htotal := Accounts.total_set w.accounts tx.sender { account with nonce := tx.nonce + 1 }
  refine h.accounts ?_ (by have hfits := h.fits; dsimp only at htotal; omega)
  rw [Accounts.balance_set]
  split
  next hsame =>
    rw [← hsame, hsender]
  next => exact Nat.le_refl _

/-- A stake, the total and the balance that move by the same amount keep the ledger. -/
theorem Ledger.record (distinct : Distinct stakers) (h : Ledger stakers w) {staker : Address}
    (hstaker : staker ∈ stakers) {stake sum : Word} {m : Accounts}
    (hsum : sum.toNat + w.word (slotOf staker) = w.word totalSlot + stake.toNat)
    (hcovered : sum.toNat ≤ m.balance address) (hfits : m.total < 2 ^ 256) :
    Ledger stakers ({ w with accounts := m }.record staker stake sum) where
  readable slot := by
    unfold World.record
    dsimp only
    by_cases htotal : slot = totalSlot
    · rw [htotal, Function.update_self]
      rfl
    · rw [Function.update_of_ne htotal]
      by_cases hslot : slot = slotOf staker
      · rw [hslot, Function.update_self]
        rfl
      · rw [Function.update_of_ne hslot]
        exact h.readable slot
  total := by
    have hrest : ∑ a ∈ stakers.erase staker,
          ({ w with accounts := m }.record staker stake sum).word (slotOf a)
        = ∑ a ∈ stakers.erase staker, w.word (slotOf a) := by
      refine Finset.sum_congr rfl fun a ha => ?_
      obtain ⟨hne, hmem⟩ := Finset.mem_erase.1 ha
      rw [World.word_record, if_neg (distinct.apart a hmem),
        if_neg fun hslot => hne (distinct.injOn a hmem staker hstaker hslot)]
      rfl
    have hbefore := h.total
    rw [← Finset.add_sum_erase _ _ hstaker] at hbefore ⊢
    rw [hrest, World.word_record, if_pos rfl, World.word_record, if_neg (distinct.apart staker hstaker),
      if_pos rfl]
    omega
  others slot htotal hslots := by
    rw [World.word_record, if_neg htotal, if_neg fun hslot => hslots staker hstaker hslot.symm]
    exact h.others slot htotal hslots
  covered := by
    rw [World.word_record, if_pos rfl]
    exact hcovered
  fits := hfits

/-- A transaction of a staker keeps the ledger. -/
theorem Ledger.change (distinct : Distinct stakers) (h : Ledger stakers w) {created : Option Address}
    (hstaker : tx.sender ∈ stakers) (apart : tx.Apart) (hchange : World.Change tx w created w') :
    Ledger stakers w' := by
  have hfits : w'.accounts.total < 2 ^ 256 := by
    rw [hchange.effect.total_eq apart h.fits]
    exact h.fits
  cases hchange with
  | still => exact h
  | paid covered hother =>
    exact h.accounts (Accounts.balance_le_pay hother covered h.fits apart.sender) hfits
  | created covered hcreate _ _ =>
    have hledger := h.accounts
      (Accounts.balance_le_deploy (apart.created hcreate).symm covered h.fits apart.sender) hfits
    exact ⟨hledger.readable, hledger.total, hledger.others, hledger.covered, hledger.fits⟩
  | @staked stake sum covered hstake hsum =>
    obtain ⟨hstake', hsum', hcovered⟩ := h.toNat_staked apart.sender covered hstake hsum
    have hbalance := Accounts.balance_pay_receiver apart.sender covered h.fits
    refine h.record distinct hstaker ?_ ?_ hfits
    · rw [World.word_of_some hsum, World.word_of_some hstake]
      omega
    · omega
  | @unstaked amount stake sum _ covered hstake henough hsum =>
    obtain ⟨hstake', hsum', hcovered⟩ := h.toNat_unstaked hstake henough hsum
    have hbalance := Accounts.balance_pay_payer apart.sender.symm covered
    refine h.record distinct hstaker ?_ ?_ hfits
    · rw [World.word_of_some hsum, World.word_of_some hstake]
      omega
    · omega

/-- A transaction whose sender is a staker and no account pays itself. -/
structure Eligible (stakers : Finset Address) (tx : Transaction) : Prop where
  staker : tx.sender ∈ stakers
  apart : tx.Apart
  sized : tx.data.length < UInt64.size

theorem Ledger.settles (distinct : Distinct stakers) (h : Ledger stakers w) (eligible : Eligible stakers tx)
    {result : CommittedResult} (hsettles : Settles tx w result w')
    (hfits : w'.accounts.total < 2 ^ 256) : Ledger stakers w' := by
  obtain ⟨account, moved, haccount, -, -, hchange, rfl⟩ := hsettles
  have hmoved := (h.use haccount).change distinct eligible.staker eligible.apart hchange
  exact hmoved.accounts (Accounts.balance_le_credit _ _ _ _) hfits

theorem Ledger.charges {f g : Contents} (h : Ledger stakers (worldIn f))
    {P : Transaction → Prop} (eligible : ∀ tx, P tx → tx.sender ≠ address)
    (hcharges : Admission.Charges (Admission.SenderOf P) f g) : Ledger stakers (worldIn g) := by
  induction hcharges with
  | start => exact h
  | @charge g sender account balance _ hsender haccount hle ih =>
    obtain ⟨tx, htx, rfl⟩ := hsender
    have hother := eligible tx htx
    have htotal := Accounts.total_set (accountsIn g) tx.sender { account with balance }
    have hbefore : (accountsIn g).balance tx.sender = account.balance.toNat := by
      rw [Accounts.balance, haccount]
      rfl
    have hfits : (accountsIn g).total < 2 ^ 256 := ih.fits
    rw [BitVec.le_def] at hle
    dsimp only at htotal
    rw [worldIn_put_account]
    refine ih.accounts ?_ (by omega)
    rw [Accounts.balance_set, if_neg hother]
    exact Nat.le_refl _

theorem Ledger.serial (distinct : Distinct stakers) {r : Runner} (standard : r.Standard)
    {hashes : BlockHashes} {block : Block} {f g : Contents} {results : List CommittedResult}
    (h : Ledger stakers (worldIn f)) (hserial : Rounds.Serial r hashes block f results g)
    (eligible : ∀ result ∈ results, Eligible stakers result.tx)
    (fits : (accountsIn f).total + escrow (results.map (·.tx)) < 2 ^ 256) : Ledger stakers (worldIn g) := by
  induction hserial with
  | start => exact h
  | @next results g tx result c o hbefore htrial ih =>
    have htx : result.tx = tx := Runner.trial_tx htrial
    have hlast : Eligible stakers tx := htx ▸ eligible result (List.mem_append_right _ List.mem_cons_self)
    have hearlier : ∀ result ∈ results, Eligible stakers result.tx :=
      fun result hresult => eligible result (List.mem_append_left _ hresult)
    rw [List.map_append, escrow_append] at fits
    have hsingle : escrow ([result].map (·.tx)) = tx.prepaid := by simp [escrow, htx]
    have htotal := hbefore.total_eq standard.backend standard.staking
      (fun result hresult => (hearlier result hresult).apart) (by omega)
    have hledger := ih hearlier (by omega)
    obtain ⟨-, -, -, hsame⟩ | ⟨hran, hsettles⟩ :=
      Runner.trial_cases standard.backend standard.staking htrial
    · rwa [hsame]
    · have hnow := hran.total_eq hlast.apart (by omega)
      exact hledger.settles distinct hlast hsettles (by change (accountsIn _).total < _; omega)

end Staking

namespace Engine

open Staking

variable {stakers : Finset Address} {e e' : Engine}

/-- Whatever a step leaves, the ledger is kept. -/
theorem Leaves.ledger (distinct : Distinct stakers) (steady : e.Steady (Eligible stakers))
    (hledger : Ledger stakers (worldIn e.contents)) (fits : e.value < 2 ^ 256) {g : Contents}
    (h : e.Leaves g) : Ledger stakers (worldIn g) := by
  unfold value at fits
  -- The fees of what runs were paid in advance, so they fit a word together with all balances.
  have hrun {block results rest s}
      (hserial : Rounds.Serial e.runner e.desk.node.hashes block e.contents results s)
      (hperm : (results.map (·.tx) ++ rest).Perm (waiting e.contents)) :
      Ledger stakers (worldIn s) ∧ (accountsIn s).total + fees results < 2 ^ 256 := by
    have heligible := steady.ran hperm
    have hescrow := escrow_perm hperm
    rw [escrow_append] at hescrow
    have htotal := hserial.total_eq steady.standard.backend steady.standard.staking
      (fun result hresult => (heligible result hresult).apart) (by omega)
    exact ⟨hledger.serial distinct steady.standard hserial heligible (by omega), by omega⟩
  cases h with
  | charged hcharges hsame =>
    rw [← hsame.worldIn_eq]
    exact hledger.charges (fun tx htx => (steady.collected tx htx).apart.sender) hcharges
  | ran hserial hperm hsame =>
    rw [← hsame.worldIn_eq]
    exact (hrun hserial hperm).1
  | @paidOut block results rest s _ hserial hperm hsame =>
    obtain ⟨hs, hfees⟩ := hrun hserial hperm
    rw [← hsame.worldIn_eq, worldIn_credit]
    have hfee := GasTotals.toNat_fee (show fees results < 2 ^ 256 by omega)
    refine hs.accounts (Accounts.balance_le_credit _ _ _ _) ?_
    rw [Accounts.total_credit (by omega)]
    omega

/-! ## Histories -/

/-- The stakes are covered, and the queue can be read. -/
structure Funded (stakers : Finset Address) (e : Engine) : Prop where
  ledger : Ledger stakers (worldIn e.contents)
  ordered : ∃ range, rangeIn e.contents = .ok range ∧ range.start ≤ range.stop
  fits : e.value < 2 ^ 256

theorem ordered_of_prepare {before : QueueRange} (hrange : rangeIn e.contents = .ok before)
    (hordered : before.start ≤ before.stop) {seed : UInt64} {minGasPrice : Word} {maxGasLimit : UInt64}
    {touched : List Address} (h : prepare seed minGasPrice maxGasLimit e = .ok touched e') :
    ∃ range, rangeIn e'.contents = .ok range ∧ range.start ≤ range.stop := by
  obtain ⟨admission, f, range, hselect, happend, -⟩ := prepare_ok h
  obtain ⟨now, happended, -⟩ := append_ok happend
  have hsame := happended.range
  rw [rangeIn_congr fun key hkey => eval_avoids hselect
    (Admission.select_avoids (fun k hk => Key.not_isQueue_of_isState hk) _ _ _ _) hkey, hrange] at hsame
  cases hsame
  refine ⟨_, happended.next, ?_⟩
  rw [UInt64.le_iff_toNat_le] at hordered ⊢
  rw [happended.stop_toNat]
  exact hordered.trans (Nat.le_add_right _ _)

theorem ordered_of_execute {before : QueueRange} (hrange : rangeIn e.contents = .ok before)
    (hordered : before.start ≤ before.stop) (staking : e.runner.contracts.OnlyStaking)
    {dealer : UInt64 → Dealer} {block : Block} {u : Unit} (h : execute dealer block e = .ok u e') :
    ∃ range, rangeIn e'.contents = .ok range ∧ range.start ≤ range.stop := by
  obtain ⟨execution, n, hexecute, hcredit, -⟩ := execute_ok h
  obtain ⟨gate, queued, -, hruns⟩ := Rounds.execute_reached hexecute
  obtain ⟨now, hmoved⟩ := hruns.moved staking.avoids hrange hordered
  refine ⟨now, ?_, hmoved.ordered⟩
  rw [creditCoinbase_ok hcredit, rangeIn_congr fun key hkey => Contents.credit_queue _ _ _ hkey,
    hmoved.range]

theorem Advance.funded (distinct : Distinct stakers) (steady : e.Steady (Eligible stakers))
    (funded : e.Funded stakers) (h : e.Advance (Eligible stakers) e') : e'.Funded stakers := by
  have hledger : Ledger stakers (worldIn e'.contents) :=
    (h.leaves steady.standard.staking).ledger distinct steady funded.ledger funded.fits
  obtain ⟨range, hrange, hordered⟩ := funded.ordered
  have hfits := funded.fits
  cases h with
  | collect _ => exact ⟨hledger, funded.ordered, funded.fits⟩
  | prepare hprepare =>
    obtain ⟨_, _, -, -, -, hvalue⟩ :=
      prepare_value hrange hordered (fun tx htx => (steady.collected tx htx).sized) hprepare
    exact ⟨hledger, ordered_of_prepare hrange hordered hprepare, by omega⟩
  | execute hexecute =>
    obtain ⟨_, _, -, -, -, hvalue⟩ :=
      execute_value steady.standard.backend steady.standard.staking hrange hordered funded.fits
        (fun tx htx => (steady.waiting tx htx).apart) hexecute
    exact ⟨hledger, ordered_of_execute hrange hordered steady.standard.staking hexecute, by omega⟩
  | @aside d hview =>
    have hcontents : ({ e with desk := d } : Engine).contents = e.contents := congrArg View.contents hview
    refine ⟨hledger, hcontents ▸ funded.ordered, ?_⟩
    rw [value, hcontents]
    exact funded.fits

/-- An engine over a store without stakes. Nothing is queued, and all balances fit a word. -/
structure Unstaked (stakers : Finset Address) (e : Engine) : Prop where
  idle : e.desk.node.view.overlays = []
  standard : e.runner.Standard
  unstaked : ∀ slot, e.contents (Key.slot Staking.sequence slot).bytes = none
  empty : ∃ range, rangeIn e.contents = .ok range ∧ range.start = range.stop
  fits : (accountsIn e.contents).total < 2 ^ 256
  collected : ∀ tx ∈ e.collected, Eligible stakers tx

theorem Unstaked.start (h : e.Unstaked stakers) : e.Steady (Eligible stakers) ∧ e.Funded stakers := by
  obtain ⟨range, hrange, hempty⟩ := h.empty
  have hwaiting : Queue.waiting e.contents = [] := by
    have hnone : range.stop.toNat - range.start.toNat = 0 := by rw [hempty, Nat.sub_self]
    rw [waiting_of_range hrange, live, hnone]
    rfl
  have hwords (slot) : (worldIn e.contents).words slot = some 0 := by
    change Staking.wordIn e.contents slot = _
    rw [Staking.wordIn, h.unstaked slot]
    rfl
  have hzero (slot) : (worldIn e.contents).word slot = 0 := World.word_of_some (hwords slot)
  refine ⟨⟨h.idle, h.standard, h.collected, by simp [hwaiting]⟩, ?_, ?_, ?_⟩
  · refine ⟨fun slot => by rw [hwords]; rfl, ?_, fun slot _ _ => hzero slot, ?_, h.fits⟩
    · rw [hzero]
      exact (Finset.sum_eq_zero fun a _ => hzero _).symm
    · rw [hzero]
      exact Nat.zero_le _
  · exact ⟨range, hrange, by rw [hempty]; exact UInt64.le_refl _⟩
  · rw [value, hwaiting, escrow_nil, Nat.add_zero]
    exact h.fits

/-- The stakes are covered in every state in which the contract may run next. -/
structure Solvent (stakers : Finset Address) (e : Engine) : Prop where
  now : Staking.Solvent stakers e.contents
  /-- Between two rounds of a block. -/
  within : ∀ block execution gate h,
    Rounds.Reached e.runner e.desk.node.hashes block e.pool.batch e.contents execution gate h →
    Staking.Solvent stakers h
  /-- In a round, where an entry has used its nonce. -/
  running : ∀ block execution gate h entries h₁ entry account,
    Rounds.Reached e.runner e.desk.node.hashes block e.pool.batch e.contents execution gate h →
    (popFront e.pool.batch).eval h = .ok entries h₁ → entry ∈ entries →
    accountsIn h₁ entry.tx.sender = some account →
    Staking.Solvent stakers
      (h₁.put (Key.account entry.tx.sender).bytes
        (some (Account.encode { account with nonce := entry.tx.nonce + 1 })))
  /-- No step stops for want of stake, and one that stops leaves the stakes covered. -/
  stopped : ∀ (event : Event) fault e', event.Routine (Eligible stakers) → event.run e = .error fault e' →
    fault ≠ .stakeUncovered ∧ Staking.Solvent stakers e'.stored
  called : ∀ request block estimate fault e', Engine.call request block estimate e = .error fault e' →
    fault ≠ .stakeUncovered
  /-- The same of calls on a pool that was handed out with other registrations. -/
  poolCalled : ∀ contracts request fault d, contracts.OnlyStaking →
    Desk.call { e.runner with contracts } request e.desk = .error fault d → fault ≠ .stakeUncovered

theorem call_covered {r : Runner} (standard : r.Standard) (steady : e.Steady (Eligible stakers))
    (funded : e.Funded stakers) {request : CallRequest} {fault : Fault} {d : Desk}
    (h : Desk.call r request e.desk = .error fault d) : fault ≠ .stakeUncovered := by
  rintro rfl
  obtain ⟨o, habove⟩ := Desk.call_stops steady.idle h
  have heval := eval_of_above_stops habove
  rw [Overlay.atop_empty] at heval
  exact funded.ledger.not_uncovered (Runner.simulate_asserts standard heval rfl).2

/-- Stakes stay covered: an engine that starts without stakes can pay back every stake in every state that it
reaches, also within a block and where a step stops, as long as the senders of the transactions have slots of
their own. The sums are exact, and the assertion that the contract covers a stake never fails. -/
theorem stakes_covered (distinct : Distinct stakers) (unstaked : e.Unstaked stakers)
    (h : e.Reaches (Eligible stakers) e') : e'.Solvent stakers := by
  obtain ⟨hsteady, hfunded⟩ := unstaked.start
  obtain ⟨steady, funded⟩ := h.invariant (fun tx htx => htx.sized) hsteady hfunded
    fun _ _ steady funded hadvance => hadvance.funded distinct steady funded
  have hleaves {g} (hg : e'.Leaves g) : Ledger stakers (worldIn g) :=
    hg.ledger distinct steady funded.ledger funded.fits
  refine ⟨funded.ledger.solvent, ?_, ?_, ?_, ?_, ?_⟩
  · intro block execution gate h reached
    exact (hleaves (reached_leaves steady.standard.staking reached)).solvent
  · intro block execution gate h entries h₁ entry account reached hpop hentry haccount
    obtain ⟨hsame, -⟩ := reached.popped steady.standard.staking hpop
    have hledger := hleaves ((reached_leaves steady.standard.staking reached).same hsame)
    refine Ledger.solvent ?_
    rw [worldIn_use]
    exact hledger.use haccount
  · intro event fault e'' routine hstop
    have hbreaks := routine.breaks steady.idle hstop
    have hledger := hleaves (hbreaks.leaves steady.standard.staking steady.idle)
    refine ⟨?_, hledger.solvent⟩
    rintro rfl
    obtain ⟨tx, account, -, haccount, ⟨-, huncovered⟩ | hoccupied⟩ := hbreaks.asserts steady rfl
    · exact (hledger.use haccount).not_uncovered huncovered
    · obtain ⟨_, -, -, -, -, _, hfault⟩ := hoccupied
      cases hfault
  · intro request block estimate fault e'' hstop
    rw [call, get_bind] at hstop
    obtain ⟨d, hcall, -⟩ := zoom_stops.1 hstop
    exact call_covered steady.standard steady funded hcall
  · intro contracts request fault d staking hstop
    have standard : Runner.Standard { e'.runner with contracts } :=
      ⟨steady.standard.backend, staking, steady.standard.precompiles⟩
    exact call_covered standard steady funded hstop

/-! ## Two stakers -/

def stakeBy (sender : Address) (nonce : UInt64) (value : Word) : Transaction :=
  { sender, destination := some Staking.address, nonce, value, gasPrice := 1, gasLimit := 100000,
    data := [0x3a, 0x4b, 0x66, 0xf1], height := 0 }

def unstakeBy (sender : Address) (nonce : UInt64) (amount : Word) : Transaction :=
  { sender, destination := some Staking.address, nonce, value := 0, gasPrice := 1, gasLimit := 100000,
    data := [0x2e, 0x17, 0xde, 0x78] ++ Word.bytes amount, height := 0 }

/-- Two accounts, and that of the staking contract as it is when the contract is registered. -/
def withAccounts (a b : Address) : Engine :=
  { runner := { Rounds.stakingRunner with precompiles := .istanbul }
    desk :=
      { node :=
          { view :=
              { base := (∅ : Store)
                  |>.insert (Key.account a).bytes (Account.encode { balance := 1000000 })
                  |>.insert (Key.account b).bytes (Account.encode { balance := 1000000 })
                  |>.insert (Key.account Staking.address).bytes
                    (Account.encode { sequence := Staking.sequence }) } } } }

theorem withAccounts_contents (a b : Address) :
    (withAccounts a b).contents =
      ((Contents.put (fun _ => none) (Key.account a).bytes (some (Account.encode { balance := 1000000 }))).put
        (Key.account b).bytes (some (Account.encode { balance := 1000000 }))).put
        (Key.account Staking.address).bytes (some (Account.encode { sequence := Staking.sequence })) := by
  funext key
  simp only [withAccounts, contents, View.contents, View.value, View.valueIn, Contents.put,
    Std.ExtTreeMap.getElem?_insert, Std.LawfulEqCmp.compare_eq_iff_eq, Std.ExtTreeMap.getElem?_empty]

theorem accountsIn_withAccounts (a b : Address) :
    accountsIn (withAccounts a b).contents =
      ((Accounts.set (fun _ => none) a (some { balance := 1000000 })).set b (some { balance := 1000000 })).set
        Staking.address (some { sequence := Staking.sequence }) := by
  have hempty : accountsIn (fun _ => none) = fun _ => none := rfl
  rw [withAccounts_contents, accountsIn_put, accountsIn_put, accountsIn_put, hempty]

theorem total_withAccounts (a b : Address) : (accountsIn (withAccounts a b).contents).total < 2 ^ 256 := by
  rw [accountsIn_withAccounts]
  have htwo := Accounts.total_set_le (Accounts.set (fun _ => none) a (some { balance := 1000000 })) b
    { balance := 1000000 }
  rw [Accounts.total_single] at htwo
  exact Nat.lt_of_le_of_lt ((Accounts.total_set_le _ _ _).trans (Nat.add_le_add_right htwo _)) (by decide)

/-- Both accounts stake, and one takes a part of its stake back. -/
def stakeAndUnstake : List Event :=
  [.collect (stakeBy 1 0 500), .collect (unstakeBy 1 1 200), .collect (stakeBy 2 0 50),
    .prepare 0 0 100000, .execute (fun _ => .inOrder) {}]

theorem withAccounts_unstaked : (withAccounts 1 2).Unstaked {1, 2} where
  idle := rfl
  standard := ⟨rfl, ContractTable.onlyStaking_insert, PrecompileTable.istanbul_plain⟩
  unstaked slot := by
    rw [withAccounts_contents, Contents.put_key_other _ _ rfl (by simp), Contents.put_key_other _ _ rfl (by simp),
      Contents.put_key_other _ _ rfl (by simp)]
  empty := ⟨{}, by decide +kernel, rfl⟩
  fits := total_withAccounts _ _
  collected := by simp [withAccounts]

theorem eligible_of_sender {tx : Transaction} (hstaker : tx.sender = 1 ∨ tx.sender = 2)
    (hcall : tx.destination ≠ none) (hdata : tx.data.length < UInt64.size) : Eligible {1, 2} tx where
  staker := by simpa using hstaker
  apart := ⟨by obtain h | h := hstaker <;> rw [h] <;> decide, fun hcreate => absurd hcreate hcall⟩
  sized := hdata

theorem distinct_two : Distinct {1, 2} where
  injOn := by
    have hslots : slotOf 1 ≠ slotOf 2 := by decide +kernel
    simp only [Finset.mem_insert, Finset.mem_singleton]
    rintro a (rfl | rfl) b (rfl | rfl) hsame
    · rfl
    · exact absurd hsame hslots
    · exact absurd hsame.symm hslots
    · rfl
  apart := by
    have hone : slotOf 1 ≠ totalSlot := by decide +kernel
    have htwo : slotOf 2 ≠ totalSlot := by decide +kernel
    simp only [Finset.mem_insert, Finset.mem_singleton]
    rintro a (rfl | rfl)
    · exact hone
    · exact htwo

/-- Of 500 and 50 staked, and 200 taken back, 350 are left, and they are covered. -/
theorem withAccounts_covered :
    ∃ e', (withAccounts 1 2).Reaches (Eligible {1, 2}) e' ∧ total.eval e'.contents = .ok 350 e'.contents ∧
      e'.Solvent {1, 2} := by
  have htest : (let outcome := play stakeAndUnstake (withAccounts 1 2)
      outcome.stopped == false && Staking.wordIn outcome.last.contents totalSlot == some 350) = true := by
    decide +kernel
  simp only [Bool.and_eq_true, beq_iff_eq] at htest
  have hroutine : ∀ event ∈ stakeAndUnstake, event.Routine (Eligible {1, 2}) := by
    simp only [stakeAndUnstake, List.forall_mem_cons]
    exact ⟨eligible_of_sender (.inl rfl) nofun (by decide),
      eligible_of_sender (.inl rfl) nofun (by simp [unstakeBy, UInt64.size]),
      eligible_of_sender (.inr rfl) nofun (by decide), trivial, trivial, by simp⟩
  have hreaches := Reaches.start.play hroutine htest.1
  exact ⟨_, hreaches, readWord_iff.2 ⟨htest.2, rfl⟩,
    stakes_covered distinct_two withAccounts_unstaked hreaches⟩

end Engine

end RoundLedger
