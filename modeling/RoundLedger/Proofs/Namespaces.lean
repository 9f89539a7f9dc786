import RoundLedger.Proofs.Solvency

/-!
# Storage namespaces

A contract keeps its storage under the sequence of its account. Sequences are minted from one counter for each
first byte of an address, so as long as the counters fit above that byte, no two accounts share a sequence. The
backend mints only where no code is deployed, and there no sequence has been assigned, so none ever changes.
-/

namespace RoundLedger

open Step Program State Queue

/-! ## Sequences -/

namespace Transfer

theorem toNat_mintSequence {count : UInt64} (first : UInt8) (h : count.toNat < 2 ^ 56) :
    (mintSequence count first).toNat = count.toNat * 256 + first.toNat := by
  have hshift : (8 : UInt64).toNat % 64 = 8 := rfl
  rw [mintSequence, UInt64.toNat_or, UInt64.toNat_shiftLeft, UInt8.toNat_toUInt64, hshift,
    Nat.mod_eq_of_lt (by rw [Nat.shiftLeft_eq]; omega), ← Nat.shiftLeft_add_eq_or_of_lt first.toNat_lt,
    Nat.shiftLeft_eq]

theorem toUInt8_mintSequence {count : UInt64} (first : UInt8) (h : count.toNat < 2 ^ 56) :
    (mintSequence count first).toUInt8 = first := by
  have hfirst := first.toNat_lt
  rw [← UInt8.toNat_inj, UInt64.toNat_toUInt8, toNat_mintSequence first h]
  omega

theorem mintSequence_shiftRight {count : UInt64} (first : UInt8) (h : count.toNat < 2 ^ 56) :
    mintSequence count first >>> 8 = count := by
  have hfirst := first.toNat_lt
  have hshift : (8 : UInt64).toNat % 64 = 8 := rfl
  rw [← UInt64.toNat_inj, UInt64.toNat_shiftRight, toNat_mintSequence first h, hshift, Nat.shiftRight_eq_div_pow]
  omega

/-- The last count that fits is left out: with the last byte it would be that of an account without a sequence. -/
theorem mintSequence_ne_unassigned {count : UInt64} (first : UInt8) (h : count.toNat < 2 ^ 56 - 1) :
    mintSequence count first ≠ Account.unassigned := by
  intro hsame
  have hcount : mintSequence count first >>> 8 = count := mintSequence_shiftRight first (by omega)
  rw [hsame] at hcount
  have htop : (Account.unassigned >>> 8).toNat = 2 ^ 56 - 1 := by decide
  rw [hcount] at htop
  omega

end Transfer

namespace Accounts

variable (m : Accounts)

/-- The sequence of an account, also when none is assigned. -/
def sequence (address : Address) : UInt64 := (m address).elim Account.unassigned (·.sequence)

theorem sequence_getD (address : Address) : ((m address).getD {}).sequence = m.sequence address := by
  unfold sequence
  cases m address with
  | none => rfl
  | some account => rfl

theorem sequence_set (address other : Address) (account : Account) :
    (m.set address (some account)).sequence other
      = if address = other then account.sequence else m.sequence other := by
  unfold sequence set
  split
  · rfl
  · rfl

variable {m}

/-- An account that is written back keeps its sequence. -/
theorem sequence_set_back {address : Address} {account : Account}
    (h : account.sequence = m.sequence address) : (m.set address (some account)).sequence = m.sequence := by
  funext other
  rw [sequence_set]
  split
  next hsame => rw [h, hsame]
  next => rfl

theorem sequence_of_some {address : Address} {account : Account} (h : m address = some account) :
    m.sequence address = account.sequence := by
  rw [sequence, h]
  rfl

variable (m)

theorem sequence_set_balance (address : Address) (balance : Word) :
    (m.set address (some { (m address).getD {} with balance })).sequence = m.sequence :=
  sequence_set_back (sequence_getD m address)

theorem sequence_pay (payer receiver : Address) (amount : Word) :
    (m.pay payer receiver amount).sequence = m.sequence := by
  have hpayer := sequence_set_balance m payer (((m payer).getD {}).balance - amount)
  rw [pay, sequence_set_back, hpayer]
  rw [hpayer]
  exact sequence_getD m receiver

theorem sequence_credit (address : Address) (amount : Word) :
    (m.credit address amount).sequence = m.sequence := by
  unfold credit
  split
  · rfl
  · exact sequence_set_balance m address _

theorem sequence_deploy (payer address other : Address) (amount : Word) (sequence : UInt64) :
    (m.deploy payer address amount sequence).sequence other
      = if address = other then sequence else m.sequence other := by
  rw [deploy, sequence_set]
  dsimp only
  rw [sequence_set_balance]

end Accounts

/-! ## Namespaces -/

namespace World

/-- The account has a namespace for its storage. -/
def Assigned (w : World) (address : Address) (sequence : UInt64) : Prop :=
  w.accounts.sequence address = sequence ∧ sequence ≠ Account.unassigned

/-- A sequence as it is minted for a contract at this address. -/
structure Minted (w : World) (address : Address) (sequence : UInt64) : Prop where
  first : sequence.toUInt8 = address.firstByte
  positive : (1 : UInt64) ≤ sequence >>> 8
  counted : sequence >>> 8 ≤ w.counters address.firstByte
  deployed : (w.codes address).isSome

/-- Every sequence, but for that of the staking contract, was minted, and belongs to one account only. -/
structure Namespaced (w : World) : Prop where
  minted : ∀ address sequence, w.Assigned address sequence →
    address = Staking.address ∧ sequence = Staking.sequence ∨ w.Minted address sequence
  unique : ∀ address other sequence, w.Assigned address sequence → w.Assigned other sequence → address = other

/-- No counter has come to the last number that fits above a byte. -/
def CountersFit (w : World) : Prop := ∀ first, (w.counters first).toNat < 2 ^ 56 - 1

/-- Counters only grow. While they fit, the namespaces stay apart, and no assigned sequence changes. -/
structure Extends (w w' : World) : Prop where
  counters : ∀ first, w.counters first ≤ w'.counters first
  namespaced : w.Namespaced → w'.CountersFit → w'.Namespaced
  assigned : w.Namespaced → w'.CountersFit → ∀ address sequence,
    w.Assigned address sequence → w'.Assigned address sequence

variable {w w' w'' : World}

theorem Extends.fit (h : w.Extends w') (fit : w'.CountersFit) : w.CountersFit := fun first =>
  Nat.lt_of_le_of_lt (UInt64.le_iff_toNat_le.1 (h.counters first)) (fit first)

theorem Extends.trans (h : w.Extends w') (h' : w'.Extends w'') : w.Extends w'' where
  counters first := UInt64.le_trans (h.counters first) (h'.counters first)
  namespaced hw fit := h'.namespaced (h.namespaced hw (h'.fit fit)) fit
  assigned hw fit address sequence hassigned :=
    h'.assigned (h.namespaced hw (h'.fit fit)) fit address sequence
      (h.assigned hw (h'.fit fit) address sequence hassigned)

theorem extends_refl (w : World) : w.Extends w where
  counters _ := UInt64.le_refl _
  namespaced hw _ := hw
  assigned _ _ _ _ hassigned := hassigned

theorem assigned_congr (h : w'.accounts.sequence = w.accounts.sequence) (address : Address) (sequence : UInt64) :
    w'.Assigned address sequence ↔ w.Assigned address sequence := by
  rw [Assigned, Assigned, h]

/-- Nothing but sequences, counters and code matters to namespaces. -/
theorem extends_of_sequence (haccounts : w'.accounts.sequence = w.accounts.sequence)
    (hcounters : w'.counters = w.counters) (hcodes : w'.codes = w.codes) : w.Extends w' where
  counters first := by
    rw [hcounters]
    exact UInt64.le_refl _
  namespaced hw _ := by
    refine ⟨fun address sequence hassigned => ?_, fun address other sequence hone hother => ?_⟩
    · obtain hstaking | hminted := hw.minted address sequence ((assigned_congr haccounts _ _).1 hassigned)
      · exact .inl hstaking
      · exact .inr ⟨hminted.first, hminted.positive, hcounters ▸ hminted.counted, hcodes ▸ hminted.deployed⟩
    · rw [assigned_congr haccounts] at hone hother
      exact hw.unique address other sequence hone hother
  assigned _ _ address sequence := (assigned_congr haccounts address sequence).2

theorem extends_credit (w : World) (address : Address) (amount : Word) :
    w.Extends { w with accounts := w.accounts.credit address amount } :=
  extends_of_sequence (Accounts.sequence_credit _ _ _) rfl rfl

theorem extends_use {tx : Transaction} {account : Account} (h : w.accounts tx.sender = some account) :
    w.Extends (w.use tx account) := by
  refine extends_of_sequence (Accounts.sequence_set_back ?_) rfl rfl
  rw [Accounts.sequence_of_some h]

/-- Where no code is deployed, no sequence is assigned. -/
theorem Namespaced.not_assigned (h : w.Namespaced) {address : Address} (hcode : w.codes address = none)
    (hother : address ≠ Staking.address) (sequence : UInt64) : ¬ w.Assigned address sequence := by
  intro hassigned
  obtain ⟨hstaking, -⟩ | hminted := h.minted address sequence hassigned
  · exact hother hstaking
  · have hdeployed := hminted.deployed
    rw [hcode] at hdeployed
    cases hdeployed

/-- What is minted with the next count belongs to nobody. -/
theorem Namespaced.fresh (h : w.Namespaced) {first : UInt8} {count : UInt64}
    (hnext : w.counters first < count) (hfits : count.toNat < 2 ^ 56 - 1) (address : Address) :
    ¬ w.Assigned address (Transfer.mintSequence count first) := by
  intro hassigned
  have hcount : Transfer.mintSequence count first >>> 8 = count :=
    Transfer.mintSequence_shiftRight first (by omega)
  rw [UInt64.lt_iff_toNat_lt] at hnext
  obtain ⟨-, hstaking⟩ | hminted := h.minted address _ hassigned
  · have hzero : (Staking.sequence >>> 8).toNat = 0 := rfl
    rw [← hstaking, hcount] at hzero
    omega
  · have hfirst := hminted.first
    rw [Transfer.toUInt8_mintSequence first (by omega)] at hfirst
    have hcounted := hminted.counted
    rw [← hfirst, hcount, UInt64.le_iff_toNat_le] at hcounted
    omega

/-! ## Deployments -/

section

variable {payer address other : Address} {amount : Word} {code : Code} {sequence : UInt64}

theorem counters_deploy (w : World) (first : UInt8) :
    (w.deploy payer address amount code).counters first
      = if first = address.firstByte then w.counters address.firstByte + 1 else w.counters first := by
  unfold deploy
  dsimp only
  split
  next hsame => rw [hsame, Function.update_self]
  next hother => rw [Function.update_of_ne hother]

/-- The count of a deployment is small enough to be minted. -/
theorem CountersFit.deployed (fit : (w.deploy payer address amount code).CountersFit) :
    (w.counters address.firstByte + 1).toNat < 2 ^ 56 - 1 := by
  have hfits := fit address.firstByte
  rwa [counters_deploy, if_pos rfl] at hfits

theorem sequence_deploy (w : World) (other : Address) :
    (w.deploy payer address amount code).accounts.sequence other
      = if address = other
        then Transfer.mintSequence (w.counters address.firstByte + 1) address.firstByte
        else w.accounts.sequence other := Accounts.sequence_deploy _ _ _ _ _ _

theorem assigned_deploy (fit : (w.deploy payer address amount code).CountersFit) :
    (w.deploy payer address amount code).Assigned address
      (Transfer.mintSequence (w.counters address.firstByte + 1) address.firstByte) := by
  refine ⟨?_, Transfer.mintSequence_ne_unassigned _ fit.deployed⟩
  rw [sequence_deploy, if_pos rfl]

/-- What is assigned at the new address is what was minted for it. -/
theorem eq_of_assigned_deploy (h : (w.deploy payer address amount code).Assigned address sequence) :
    sequence = Transfer.mintSequence (w.counters address.firstByte + 1) address.firstByte := by
  rw [← h.1, sequence_deploy, if_pos rfl]

theorem assigned_deploy_other (h : address ≠ other) :
    (w.deploy payer address amount code).Assigned other sequence ↔ w.Assigned other sequence := by
  rw [Assigned, Assigned, sequence_deploy, if_neg h]

section

variable (hcount : (w.counters address.firstByte).toNat + 1 < UInt64.size)

include hcount

theorem toNat_next_counter :
    (w.counters address.firstByte + 1).toNat = (w.counters address.firstByte).toNat + 1 := by
  rw [UInt64.toNat_add]
  exact Nat.mod_eq_of_lt hcount

theorem counters_le_deploy (first : UInt8) :
    w.counters first ≤ (w.deploy payer address amount code).counters first := by
  rw [UInt64.le_iff_toNat_le, counters_deploy]
  split
  next hsame =>
    rw [hsame, toNat_next_counter hcount]
    exact Nat.le_add_right _ _
  next => exact Nat.le_refl _

theorem minted_deploy (fit : (w.deploy payer address amount code).CountersFit) :
    (w.deploy payer address amount code).Minted address
      (Transfer.mintSequence (w.counters address.firstByte + 1) address.firstByte) := by
  have hfits := fit.deployed
  have hmint : Transfer.mintSequence (w.counters address.firstByte + 1) address.firstByte >>> 8
      = w.counters address.firstByte + 1 := Transfer.mintSequence_shiftRight _ (by omega)
  refine ⟨Transfer.toUInt8_mintSequence _ (by omega), ?_, ?_, ?_⟩
  · rw [hmint, UInt64.le_iff_toNat_le, toNat_next_counter hcount]
    exact Nat.le_add_left _ _
  · rw [hmint, counters_deploy, if_pos rfl]
    exact UInt64.le_refl _
  · unfold deploy
    dsimp only
    rw [Function.update_self]
    rfl

theorem Minted.deploy (h : w.Minted other sequence) (hne : address ≠ other) :
    (w.deploy payer address amount code).Minted other sequence where
  first := h.first
  positive := h.positive
  counted := UInt64.le_trans h.counted (counters_le_deploy hcount _)
  deployed := by
    unfold World.deploy
    dsimp only
    rw [Function.update_of_ne hne.symm]
    exact h.deployed

theorem Namespaced.deploy (h : w.Namespaced) (fit : (w.deploy payer address amount code).CountersFit) :
    (w.deploy payer address amount code).Namespaced where
  minted other sequence hassigned := by
    by_cases hsame : address = other
    · subst hsame
      obtain rfl := eq_of_assigned_deploy hassigned
      exact .inr (minted_deploy hcount fit)
    · exact (h.minted other sequence ((assigned_deploy_other hsame).1 hassigned)).imp_right fun hminted =>
        hminted.deploy hcount hsame
  unique one other sequence hone hother := by
    have hnext : w.counters address.firstByte < w.counters address.firstByte + 1 := by
      rw [UInt64.lt_iff_toNat_lt, toNat_next_counter hcount]
      exact Nat.lt_succ_self _
    -- Nobody else has what was minted for the new address.
    have hfresh {another : Address} (hnew : (w.deploy payer address amount code).Assigned address sequence)
        (hanother : (w.deploy payer address amount code).Assigned another sequence) : address = another := by
      by_contra hne
      obtain rfl := eq_of_assigned_deploy hnew
      exact h.fresh hnext fit.deployed another ((assigned_deploy_other hne).1 hanother)
    by_cases hone' : address = one
    · subst hone'
      exact hfresh hone hother
    · by_cases hother' : address = other
      · subst hother'
        exact (hfresh hother hone).symm
      · exact h.unique one other sequence ((assigned_deploy_other hone').1 hone)
          ((assigned_deploy_other hother').1 hother)

/-- Creating a contract where no code is deployed keeps the namespaces apart. -/
theorem extends_deploy (hcode : w.codes address = none) (hother : address ≠ Staking.address) :
    w.Extends (w.deploy payer address amount code) where
  counters := counters_le_deploy hcount
  namespaced hw fit := hw.deploy hcount fit
  assigned hw _ other sequence hassigned := by
    refine (assigned_deploy_other fun hsame => ?_).2 hassigned
    exact hw.not_assigned hcode hother sequence (hsame ▸ hassigned)

end

end

end World

/-- Every namespace of a state is its contract's own. -/
structure World.Separate (w : World) : Prop where
  namespaced : w.Namespaced
  /-- No slot is read by two contracts. -/
  slots : ∀ address other sequence sequence' (place place' : Digest),
    w.Assigned address sequence → w.Assigned other sequence' →
    (Key.slot sequence place).bytes = (Key.slot sequence' place').bytes → address = other
  /-- Nobody but the staking contract has its sequence. -/
  reserved : ∀ address, address ≠ Staking.address → w.accounts.sequence address ≠ Staking.sequence
  /-- Whatever a counter has counted stands for a contract. -/
  proper : ∀ first count, 1 ≤ count → count ≤ w.counters first →
    Transfer.mintSequence count first ≠ Staking.sequence ∧
      Transfer.mintSequence count first ≠ Account.unassigned

theorem World.Namespaced.separate {w : World} (h : w.Namespaced) (fit : w.CountersFit) : w.Separate where
  namespaced := h
  slots address other sequence sequence' place place' hone hother hkey := by
    obtain ⟨rfl, -⟩ := Key.slot.inj (Key.bytes_inj_of_isState rfl hkey)
    exact h.unique address other sequence hone hother
  reserved address hother hsame := by
    obtain ⟨hstaking, -⟩ | hminted := h.minted address Staking.sequence ⟨hsame, by decide⟩
    · exact hother hstaking
    · exact absurd hminted.positive (by decide)
  proper first count hpositive hcounted := by
    have hfits : count.toNat < 2 ^ 56 - 1 :=
      Nat.lt_of_le_of_lt (UInt64.le_iff_toNat_le.1 hcounted) (fit first)
    refine ⟨fun hsame => ?_, Transfer.mintSequence_ne_unassigned first hfits⟩
    have hcount : Transfer.mintSequence count first >>> 8 = count :=
      Transfer.mintSequence_shiftRight first (by omega)
    rw [hsame] at hcount
    rw [← hcount] at hpositive
    exact absurd hpositive (by decide)

/-! ## Transactions -/

/-- A transaction that does not create a contract at the address of the staking contract. -/
structure Transaction.Elsewhere (tx : Transaction) : Prop where
  created : tx.destination = none → Address.created tx.sender tx.nonce ≠ Staking.address
  sized : tx.data.length < UInt64.size

/-- Every contract that was created has a namespace. -/
def World.Hosts (w : World) (results : List CommittedResult) : Prop :=
  ∀ result ∈ results, ∀ address, result.contract = some address → ∃ sequence, w.Assigned address sequence

namespace World

variable {w w' : World} {tx : Transaction}

theorem Change.extends {created : Option Address} (elsewhere : tx.Elsewhere) (h : World.Change tx w created w') :
    w.Extends w' := by
  cases h with
  | still => exact extends_refl w
  | paid _ _ => exact extends_of_sequence (Accounts.sequence_pay _ _ _ _) rfl rfl
  | created _ hcreate hcode hcount => exact extends_deploy hcount hcode (elsewhere.created hcreate)
  | staked _ _ _ => exact extends_of_sequence (Accounts.sequence_pay _ _ _ _) rfl rfl
  | unstaked _ _ _ _ _ => exact extends_of_sequence (Accounts.sequence_pay _ _ _ _) rfl rfl

theorem Change.assigned {address : Address} (h : World.Change tx w (some address) w') (fit : w'.CountersFit) :
    ∃ sequence, w'.Assigned address sequence := by
  cases h with
  | created _ _ _ _ => exact ⟨_, assigned_deploy fit⟩

/-- No contract is created where a sequence would change. -/
theorem Namespaced.not_occupied (h : w.Namespaced) (fit : w.CountersFit) (elsewhere : tx.Elsewhere)
    {account : Account} (haccount : w.accounts tx.sender = some account) {fault : Fault} :
    ¬ Runner.Occupied tx (w.use tx account) fault := by
  rintro ⟨occupant, hcreate, hcode, hoccupant, hsequence, -⟩
  have hnow := (extends_use haccount).namespaced h fit
  refine hnow.not_assigned hcode (elsewhere.created hcreate) occupant.sequence ⟨?_, ?_⟩
  · exact Accounts.sequence_of_some hoccupant
  · exact of_decide_eq_true hsequence

theorem Hosts.extends {results : List CommittedResult} (h : w.Hosts results) (hextends : w.Extends w')
    (hw : w.Namespaced) (fit : w'.CountersFit) : w'.Hosts results := by
  intro result hresult address hcontract
  obtain ⟨sequence, hassigned⟩ := h result hresult address hcontract
  exact ⟨sequence, hextends.assigned hw fit address sequence hassigned⟩

theorem Hosts.append {results results' : List CommittedResult} (h : w.Hosts results) (h' : w.Hosts results') :
    w.Hosts (results ++ results') := by
  intro result hresult
  obtain hbefore | hafter := List.mem_append.1 hresult
  · exact h result hbefore
  · exact h' result hafter

end World

theorem Settles.extends {w w' : World} {tx : Transaction} {result : CommittedResult}
    (elsewhere : tx.Elsewhere) (h : Settles tx w result w') :
    w.Extends w' ∧ (w'.CountersFit → w'.Hosts [result]) := by
  obtain ⟨account, moved, haccount, -, -, hchange, rfl⟩ := h
  have hcredit := moved.extends_credit tx.sender result.feeRefund
  refine ⟨((World.extends_use haccount).trans (hchange.extends elsewhere)).trans hcredit, fun fit => ?_⟩
  simp only [World.Hosts, List.mem_singleton]
  rintro _ rfl address hcontract
  obtain ⟨sequence, hassigned⟩ := (hcontract ▸ hchange).assigned (hcredit.fit fit)
  exact ⟨sequence, (World.assigned_congr (Accounts.sequence_credit _ _ _) _ _).2 hassigned⟩

theorem Admission.Charges.extends {senders : Address → Prop} {f g : Contents} (h : Charges senders f g) :
    (worldIn f).Extends (worldIn g) := by
  induction h with
  | start => exact World.extends_refl _
  | @charge g sender account balance _ _ haccount _ ih =>
    refine ih.trans (World.extends_of_sequence ?_ ?_ ?_)
    · rw [worldIn_put_account]
      refine Accounts.sequence_set_back ?_
      rw [Accounts.sequence_of_some haccount]
    · rw [worldIn_put_account]
    · rw [worldIn_put_account]

/-- A serial run keeps the namespaces apart, and gives one to every contract that it creates. -/
theorem Rounds.Serial.extends {r : Runner} (backend : r.backend = Transfer.backend)
    (staking : r.contracts.OnlyStaking) {hashes : BlockHashes} {block : Block} {f g : Contents}
    {results : List CommittedResult} (h : Serial r hashes block f results g)
    (elsewhere : ∀ result ∈ results, result.tx.Elsewhere) :
    (worldIn f).Extends (worldIn g) ∧
      ((worldIn f).Namespaced → (worldIn g).CountersFit → (worldIn g).Hosts results) := by
  induction h with
  | start => exact ⟨World.extends_refl _, fun _ _ _ hresult => absurd hresult List.not_mem_nil⟩
  | @next results g tx result c o _ htrial ih =>
    rw [List.forall_mem_append, List.forall_mem_singleton] at elsewhere
    obtain ⟨hbefore, hhosts⟩ := ih elsewhere.1
    obtain ⟨hstep, hhost⟩ : (worldIn g).Extends (worldIn (o.atop g)) ∧
        ((worldIn (o.atop g)).CountersFit → (worldIn (o.atop g)).Hosts [result]) := by
      obtain ⟨status, -, rfl, hsame⟩ | ⟨-, hsettles⟩ := Runner.trial_cases backend staking htrial
      · rw [hsame]
        exact ⟨World.extends_refl _, fun _ => by simp [World.Hosts, CommittedResult.terminal]⟩
      · exact hsettles.extends (Runner.trial_tx htrial ▸ elsewhere.2)
    refine ⟨hbefore.trans hstep, fun hw fit => ?_⟩
    have hnow := hbefore.namespaced hw (hstep.fit fit)
    exact ((hhosts hw (hstep.fit fit)).extends hstep hnow fit).append (hhost fit)

/-! ## Engines -/

namespace Engine

variable {e e' : Engine}

/-- Whatever a step leaves, the namespaces are kept apart. -/
theorem Leaves.extends (steady : e.Steady Transaction.Elsewhere) {g : Contents} (h : e.Leaves g) :
    (worldIn e.contents).Extends (worldIn g) := by
  have hrun {block results rest s}
      (hserial : Rounds.Serial e.runner e.desk.node.hashes block e.contents results s)
      (hperm : (results.map (·.tx) ++ rest).Perm (waiting e.contents)) :
      (worldIn e.contents).Extends (worldIn s) :=
    (hserial.extends steady.standard.backend steady.standard.staking (steady.ran hperm)).1
  cases h with
  | charged hcharges hsame =>
    rw [← hsame.worldIn_eq]
    exact hcharges.extends
  | ran hserial hperm hsame =>
    rw [← hsame.worldIn_eq]
    exact hrun hserial hperm
  | paidOut hserial hperm hsame =>
    rw [← hsame.worldIn_eq, worldIn_credit]
    exact (hrun hserial hperm).trans (World.extends_credit _ _ _)

/-- Between two rounds of a block, the contracts that the block has created so far have namespaces. -/
theorem reached_hosts (steady : e.Steady Transaction.Elsewhere) (hw : (worldIn e.contents).Namespaced)
    {block : Block} {execution : BlockExecution} {gate : NonceGate} {h : Contents}
    (reached : Rounds.Reached e.runner e.desk.node.hashes block e.pool.batch e.contents execution gate h)
    (fit : (worldIn h).CountersFit) : (worldIn h).Hosts execution.results := by
  obtain ⟨⟨s, hserial, hsame⟩, rest, hperm⟩ := reached.serial steady.standard.staking
  rw [← hsame.worldIn_eq] at fit ⊢
  exact (hserial.extends steady.standard.backend steady.standard.staking (steady.ran hperm)).2 hw fit

/-- A block that is done leaves a namespace for every contract that it has created. -/
theorem committed_hosts (steady : e.Steady Transaction.Elsewhere) (hw : (worldIn e.contents).Namespaced)
    {dealer : UInt64 → Dealer} {block : Block} {u : Unit} (h : execute dealer block e = .ok u e')
    (fit : (worldIn e'.contents).CountersFit) : (worldIn e'.contents).Hosts e'.committed := by
  obtain ⟨execution, n, hexecute, hcredit, hcommitted⟩ := execute_ok h
  obtain ⟨gate, reached⟩ := Rounds.execute_reached hexecute
  rw [creditCoinbase_ok hcredit, worldIn_credit] at fit ⊢
  have hextends := World.extends_credit (worldIn n.view.contents) block.coinbase
    (GasTotals.ofResults execution.results).fee
  have hreached := (reached_leaves steady.standard.staking reached).extends steady
  rw [hcommitted]
  exact (reached_hosts steady hw reached (hextends.fit fit)).extends hextends
    (hreached.namespaced hw (hextends.fit fit)) fit

/-- The namespaces are apart in every state in which a contract may be created next. -/
structure Separate (e : Engine) : Prop where
  now : (worldIn e.contents).Separate
  /-- No sequence ever changes. -/
  later : ∀ e', e.Reaches Transaction.Elsewhere e' → (worldIn e'.contents).CountersFit →
    ∀ address sequence, (worldIn e.contents).Assigned address sequence →
      (worldIn e'.contents).Assigned address sequence
  /-- Between two rounds of a block. -/
  within : ∀ block execution gate h,
    Rounds.Reached e.runner e.desk.node.hashes block e.pool.batch e.contents execution gate h →
    (worldIn h).CountersFit →
    (worldIn h).Separate ∧ (worldIn h).Hosts execution.results ∧
      ∀ address sequence, (worldIn e.contents).Assigned address sequence → (worldIn h).Assigned address sequence
  /-- Where a block is done, the contracts that it has created have namespaces. -/
  published : ∀ (event : Event) published e', event.Routine Transaction.Elsewhere →
    event.run e = .ok published e' → (worldIn e'.contents).CountersFit →
    ∀ results ∈ published, (worldIn e'.contents).Hosts results
  /-- No step stops because a sequence would change, and one that stops leaves the namespaces apart. -/
  stopped : ∀ (event : Event) fault e', event.Routine Transaction.Elsewhere →
    event.run e = .error fault e' → (worldIn e'.stored).CountersFit →
    (∀ address before after, fault ≠ .sequenceChanged address before after) ∧ (worldIn e'.stored).Separate ∧
      ∀ address sequence, (worldIn e.contents).Assigned address sequence →
        (worldIn e'.stored).Assigned address sequence

theorem Reaches.extends (steady : e.Steady Transaction.Elsewhere)
    (h : e.Reaches Transaction.Elsewhere e') :
    e'.Steady Transaction.Elsewhere ∧ (worldIn e.contents).Extends (worldIn e'.contents) := by
  let Kept (x : Engine) : Prop := (worldIn e.contents).Extends (worldIn x.contents)
  have hstart : Kept e := World.extends_refl _
  refine h.invariant (fun _ htx => htx.sized) steady hstart fun x x' hsteady hkept hadvance => ?_
  exact hkept.trans ((hadvance.leaves hsteady.standard.staking).extends hsteady)

/-- Storage namespaces never collide: an engine that starts with namespaces apart keeps them apart in every
state that it reaches, also within a block and where a step stops, as long as the counters fit and no contract
is created at the address of the staking contract. No sequence changes once it is assigned, so the assertion
that it does not never fails. -/
theorem namespaces_separate (steady : e.Steady Transaction.Elsewhere)
    (namespaced : (worldIn e.contents).Namespaced) (h : e.Reaches Transaction.Elsewhere e')
    (fit : (worldIn e'.contents).CountersFit) : e'.Separate := by
  obtain ⟨steady', hextends⟩ := h.extends steady
  have hnow := hextends.namespaced namespaced fit
  refine ⟨hnow.separate fit, ?_, ?_, ?_, ?_⟩
  · intro e'' hlater fit'
    exact (hlater.extends steady').2.assigned hnow fit'
  · intro block execution gate h reached fit'
    have hextends' := (reached_leaves steady'.standard.staking reached).extends steady'
    exact ⟨(hextends'.namespaced hnow fit').separate fit', reached_hosts steady' hnow reached fit',
      hextends'.assigned hnow fit'⟩
  · intro event published e'' routine hrun fit' results hresults
    obtain ⟨dealer, block, u, hexecute, rfl⟩ := routine.published steady'.idle hrun hresults
    exact committed_hosts steady' hnow hexecute fit'
  · intro event fault e'' routine hstop fit'
    have hbreaks := routine.breaks steady'.idle hstop
    have hextends' := (hbreaks.leaves steady'.standard.staking steady'.idle).extends steady'
    have hnow' := hextends'.namespaced hnow fit'
    refine ⟨?_, hnow'.separate fit', hextends'.assigned hnow fit'⟩
    rintro address before after rfl
    obtain ⟨tx, account, helsewhere, haccount, ⟨hother, -⟩ | hoccupied⟩ := hbreaks.asserts steady' rfl
    · cases hother
    · exact hnow'.not_occupied fit' helsewhere haccount hoccupied

/-! ## Two contracts -/

def createBy (sender : Address) (nonce : UInt64) : Transaction :=
  { sender, destination := none, nonce, value := 7, gasPrice := 1, gasLimit := 100000, data := [1], height := 0 }

/-- Two accounts create a contract each in one block. The addresses start with the same byte, so one of the
transactions has to run again. -/
def createTwo : List Event :=
  [.collect (createBy 2 0), .collect (createBy 8 0), .prepare 0 0 100000, .execute (fun _ => .inOrder) {}]

theorem withAccounts_namespaced (a b : Address) : (worldIn (withAccounts a b).contents).Namespaced := by
  have honly {address : Address} {sequence : UInt64}
      (h : (worldIn (withAccounts a b).contents).Assigned address sequence) :
      address = Staking.address ∧ sequence = Staking.sequence := by
    obtain ⟨rfl, hassigned⟩ := h
    rw [worldIn_accounts, accountsIn_withAccounts, Accounts.sequence_set] at hassigned ⊢
    split
    next hstaking => exact ⟨hstaking.symm, rfl⟩
    next hother =>
      rw [if_neg hother, Accounts.sequence_set, Accounts.sequence_set] at hassigned
      refine absurd ?_ hassigned
      split
      · rfl
      · split
        · rfl
        · rfl
  exact ⟨fun _ _ h => .inl (honly h), fun _ _ _ h h' => (honly h).1.trans (honly h').1.symm⟩

theorem withAccounts_steady : (withAccounts 2 8).Steady Transaction.Elsewhere where
  idle := rfl
  standard := ⟨rfl, ContractTable.onlyStaking_insert, PrecompileTable.istanbul_plain⟩
  collected := by simp [withAccounts]
  waiting := by
    have hnone : Queue.waiting (withAccounts 2 8).contents = [] := by decide +kernel
    rw [hnone]
    exact fun tx htx => absurd htx List.not_mem_nil

/-- Both contracts get a number of their own from the counter that they share. -/
theorem withAccounts_separate :
    ∃ e', (withAccounts 2 8).Reaches Transaction.Elsewhere e' ∧
      (worldIn e'.contents).Assigned (Address.created 2 0) (Transfer.mintSequence 1 229) ∧
      (worldIn e'.contents).Assigned (Address.created 8 0) (Transfer.mintSequence 2 229) ∧ e'.Separate := by
  have htest : (let outcome := play createTwo (withAccounts 2 8)
      outcome.stopped == false &&
        (accountsIn outcome.last.contents).sequence (Address.created 2 0) == Transfer.mintSequence 1 229 &&
        (accountsIn outcome.last.contents).sequence (Address.created 8 0) == Transfer.mintSequence 2 229 &&
        (List.range 256).all fun first =>
          (counterIn outcome.last.contents (UInt8.ofNat first)).toNat < 2 ^ 56 - 1) = true := by
    decide +kernel
  simp only [Bool.and_eq_true, beq_iff_eq, List.all_eq_true, List.mem_range, decide_eq_true_eq] at htest
  obtain ⟨⟨⟨hruns, hone⟩, htwo⟩, hcounters⟩ := htest
  have hroutine : ∀ event ∈ createTwo, event.Routine Transaction.Elsewhere := by
    simp only [createTwo, List.forall_mem_cons]
    exact ⟨⟨fun _ => by decide +kernel, by decide⟩, ⟨fun _ => by decide +kernel, by decide⟩, trivial, trivial,
      by simp⟩
  have hreaches := Reaches.start.play hroutine hruns
  generalize play createTwo (withAccounts 2 8) = outcome at *
  have fit : (worldIn outcome.last.contents).CountersFit := fun first => by
    have hfirst := hcounters first.toNat first.toNat_lt
    rwa [UInt8.ofNat_toNat] at hfirst
  exact ⟨_, hreaches, ⟨hone, by decide⟩, ⟨htwo, by decide⟩,
    namespaces_separate withAccounts_steady (withAccounts_namespaced 2 8) hreaches fit⟩

end Engine

end RoundLedger
