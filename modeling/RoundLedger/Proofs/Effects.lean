import RoundLedger.Backend.Transfer
import RoundLedger.Proofs.Worlds

/-!
# What a transaction does to the state

A transaction whose nonce does not fit, or that has expired, is turned away and changes nothing.
Every other one uses its nonce, moves value at most once, and gets the fee for unused gas back.
With the value go the records of a created contract, or those of a stake. This is what the transfer
backend and the staking contract allow.
-/

namespace RoundLedger

open Step Program State

namespace Accounts

def pay (m : Accounts) (payer receiver : Address) (amount : Word) : Accounts :=
  let a := (m payer).getD {}
  let b := (m receiver).getD {}
  (m.set payer (some { a with balance := a.balance - amount })).set receiver
    (some { b with balance := b.balance + amount })

def deploy (m : Accounts) (payer address : Address) (amount : Word) (sequence : UInt64) : Accounts :=
  let a := (m payer).getD {}
  let b := (m address).getD {}
  (m.set payer (some { a with balance := a.balance - amount })).set address
    (some { balance := b.balance + amount, nonce := 1, sequence })

end Accounts

theorem Contents.SameState.accountsIn_eq {f g : Contents} (h : f.SameState g) :
    accountsIn f = accountsIn g :=
  accountsIn_congr fun _ => h _ (Key.not_isQueue_of_isState rfl)

/-- How the value of a transaction moves, and the contract it creates. -/
inductive Effect (tx : Transaction) (m : Accounts) : Option Address → Accounts → Prop
  | still : Effect tx m none m
  | paid {payer receiver amount} : amount.toNat ≤ m.balance payer →
      tx.sender = Staking.address ∨ payer ≠ receiver →
      Effect tx m none (m.pay payer receiver amount)
  | created {sequence} : tx.value.toNat ≤ m.balance tx.sender → tx.destination = none →
      Effect tx m (some (Address.created tx.sender tx.nonce))
        (m.deploy tx.sender (Address.created tx.sender tx.nonce) tx.value sequence)

namespace World

/-- The sender of a transaction has used its nonce. -/
def use (w : World) (tx : Transaction) (account : Account) : World :=
  { w with accounts := w.accounts.set tx.sender (some { account with nonce := tx.nonce + 1 }) }

/-- A contract is created: it gets an account of its own with a new sequence, and code. -/
def deploy (w : World) (payer address : Address) (amount : Word) (code : Code) : World :=
  let count := w.counters address.firstByte + 1
  { w with
    accounts := w.accounts.deploy payer address amount (Transfer.mintSequence count address.firstByte)
    counters := Function.update w.counters address.firstByte count
    codes := Function.update w.codes address (some code.encode) }

/-- A stake is recorded, and with it the total. -/
def record (w : World) (staker : Address) (stake sum : Word) : World :=
  { w with
    words := Function.update (Function.update w.words (Staking.slotOf staker) (some stake))
      Staking.totalSlot (some sum) }

end World

/-- What a transaction does to the state, next to its nonce and its fee. -/
inductive World.Change (tx : Transaction) (w : World) : Option Address → World → Prop
  | still : World.Change tx w none w
  | paid {receiver} : tx.value.toNat ≤ w.accounts.balance tx.sender → tx.sender ≠ receiver →
      World.Change tx w none { w with accounts := w.accounts.pay tx.sender receiver tx.value }
  | created : tx.value.toNat ≤ w.accounts.balance tx.sender → tx.destination = none →
      w.codes (Address.created tx.sender tx.nonce) = none →
      (w.counters (Address.created tx.sender tx.nonce).firstByte).toNat + 1 < UInt64.size →
      World.Change tx w (some (Address.created tx.sender tx.nonce))
        (w.deploy tx.sender (Address.created tx.sender tx.nonce) tx.value (Code.ofBody tx.data))
  | staked {stake sum} : tx.value.toNat ≤ w.accounts.balance tx.sender →
      w.words (Staking.slotOf tx.sender) = some stake → w.words Staking.totalSlot = some sum →
      World.Change tx w none
        ({ w with accounts := w.accounts.pay tx.sender Staking.address tx.value }.record tx.sender
          (stake + tx.value) (sum + tx.value))
  | unstaked {amount stake sum} : Staking.amountArgument tx.data = some amount →
      amount.toNat ≤ w.accounts.balance Staking.address →
      w.words (Staking.slotOf tx.sender) = some stake → amount ≤ stake →
      w.words Staking.totalSlot = some sum →
      World.Change tx w none
        ({ w with accounts := w.accounts.pay Staking.address tx.sender amount }.record tx.sender
          (stake - amount) (sum - amount))

theorem World.Change.effect {tx : Transaction} {w w' : World} {created : Option Address}
    (h : World.Change tx w created w') : Effect tx w.accounts created w'.accounts := by
  cases h with
  | still => exact .still
  | paid covered hother => exact .paid covered (.inr hother)
  | created covered hcreate _ _ => exact .created covered hcreate
  | staked covered _ _ => exact .paid covered (Classical.em _)
  | unstaked _ covered _ _ _ =>
    exact .paid covered ((Classical.em (tx.sender = Staking.address)).imp_right fun hne hsame =>
      hne hsame.symm)

theorem worldIn_use (f : Contents) (tx : Transaction) (account : Account) :
    worldIn (f.put (Key.account tx.sender).bytes
        (some (Account.encode { account with nonce := tx.nonce + 1 })))
      = (worldIn f).use tx account := worldIn_put_account f _ _

/-! ## Questions -/

theorem Staking.view_ok {input : Bytes} {answer : Except ExecutionError Bytes} {f f' : Contents}
    (h : (view input).eval f = .ok answer f') : f' = f := by
  unfold view at h
  split at h
  · exact (eval_pure_ok.1 h).2.symm
  · split at h
    · exact (eval_pure_ok.1 h).2.symm
    · obtain ⟨_, _, hread, hdone⟩ := eval_bind_ok.1 h
      obtain ⟨-, rfl⟩ := readWord_iff.1 hread
      exact (eval_pure_ok.1 hdone).2.symm
  · obtain ⟨_, _, hread, hdone⟩ := eval_bind_ok.1 h
    obtain ⟨-, rfl⟩ := readWord_iff.1 hread
    exact (eval_pure_ok.1 hdone).2.symm
  · exact (eval_pure_ok.1 h).2.symm

namespace Runner

variable {r : Runner} {hashes : BlockHashes} {f f' : Contents} {α β : Type}

theorem answer_ok (staking : r.contracts.OnlyStaking) {q : Query} {a : q.Answer}
    (h : (r.answer hashes q).eval f = .ok a f') : f' = f := by
  cases q with
  | counter first => exact (counter_ok h).1
  | account address => exact (account_ok h).2
  | code address => exact (code_ok h).1
  | storage sequence slot =>
    cases h
    rfl
  | blockHash number => exact (eval_pure_ok.1 h).2.symm
  | precompile address input gasLeft =>
    obtain ⟨call, _, hcall, hnested⟩ := eval_bind_ok.1 h
    obtain ⟨-, rfl⟩ := eval_ofExcept_ok.1 hcall
    split at hnested
    · exact (eval_pure_ok.1 hnested).2.symm
    · unfold ContractTable.callAsPrecompile at hnested
      split at hnested
      · exact (eval_pure_ok.1 hnested).2.symm
      next contract hcontract =>
        obtain ⟨-, rfl⟩ := staking address contract hcontract
        dsimp only at hnested
        split at hnested
        · exact (eval_pure_ok.1 hnested).2.symm
        · obtain ⟨_, _, hview, hdone⟩ := eval_bind_ok.1 hnested
          obtain rfl := Staking.view_ok hview
          exact (eval_pure_ok.1 hdone).2.symm

/-- What a backend may answer when its questions are answered on the contents `f`. -/
def Yields (r : Runner) (hashes : BlockHashes) (f : Contents) : HostProgram α → α → Prop
  | .done a, b => a = b
  | .fail _, _ => False
  | .ask q next, b => ∃ a, (r.answer hashes q).eval f = .ok a f ∧ Yields r hashes f (next a) b

theorem yields_bind {p : HostProgram α} {g : α → HostProgram β} {b : β} :
    r.Yields hashes f (p >>= g) b ↔ ∃ a, r.Yields hashes f p a ∧ r.Yields hashes f (g a) b := by
  change r.Yields hashes f (p.bind g) b ↔ _
  induction p with
  | done a => simp [HostProgram.bind, Yields]
  | fail fault => simp [HostProgram.bind, Yields]
  | ask q next ih =>
    simp only [HostProgram.bind, Yields, ih]
    constructor
    · rintro ⟨answer, hanswer, a, hnext, hbehind⟩
      exact ⟨a, ⟨answer, hanswer, hnext⟩, hbehind⟩
    · rintro ⟨a, ⟨answer, hanswer, hnext⟩, hbehind⟩
      exact ⟨answer, hanswer, a, hnext, hbehind⟩

@[simp] theorem yields_pure {a b : α} : r.Yields hashes f (pure a) b ↔ a = b := .rfl

theorem yields_query {q : Query} {a : q.Answer} :
    r.Yields hashes f (HostProgram.query q) a ↔ (r.answer hashes q).eval f = .ok a f := by
  simp [HostProgram.query, Yields]

theorem yields_account {address : Address} {a : Option Account}
    (h : r.Yields hashes f (HostProgram.query (.account address)) a) : a = accountsIn f address :=
  (account_ok (yields_query.1 h)).1.symm

theorem yields_counter {first : UInt8} {count : UInt64}
    (h : r.Yields hashes f (HostProgram.query (.counter first)) count) : count = counterIn f first :=
  (counter_ok (yields_query.1 h)).2.symm

theorem yields_code {address : Address} {code : Option Code}
    (h : r.Yields hashes f (HostProgram.query (.code address)) code) :
    code.isSome ↔ (codeIn f address).isSome := (code_ok (yields_query.1 h)).2

theorem serve_ok (staking : r.contracts.OnlyStaking) {p : HostProgram α}
    {out : α × List Exchange} (h : (r.serve hashes p).eval f = .ok out f') :
    f' = f ∧ r.Yields hashes f p out.1 := by
  induction p generalizing out f' with
  | done a =>
    obtain ⟨rfl, rfl⟩ := eval_pure_ok.1 h
    exact ⟨rfl, rfl⟩
  | fail fault => exact absurd h eval_fail_ok
  | ask q next ih =>
    obtain ⟨a, _, hanswer, hserve⟩ := eval_bind_ok.1 h
    obtain rfl := answer_ok staking hanswer
    obtain ⟨⟨b, exchanges⟩, _, hrest, hdone⟩ := eval_bind_ok.1 hserve
    obtain ⟨rfl, hyields⟩ := ih a hrest
    obtain ⟨rfl, rfl⟩ := eval_pure_ok.1 hdone
    exact ⟨rfl, a, hanswer, hyields⟩

end Runner

/-! ## The transfer backend -/

/-- A change set that sets accounts, counters and codes, deletes none of them, and leaves storage alone. -/
structure ChangeSet.Sets (changes : ChangeSet) (accounts : List (Address × Account))
    (counters : List (UInt8 × UInt64)) (codes : List (Address × Code)) : Prop where
  accounts : changes.accounts = accounts.map fun change => (change.1, some change.2)
  counters : changes.counters = counters
  codes : changes.codes = codes.map fun change => (change.1, some change.2)
  storage : changes.storage = []

namespace Transfer

/-- What the backend asks to be changed, and the contract it creates. -/
inductive Plan (tx : Transaction) (w : World) : Option Address → ChangeSet → Prop
  | still {changes} : changes.Sets [] [] [] → Plan tx w none changes
  | paid {changes receiver} : tx.value.toNat ≤ w.accounts.balance tx.sender → tx.sender ≠ receiver →
      (let a := (w.accounts tx.sender).getD {}
       let b := (w.accounts receiver).getD {}
       changes.Sets [(tx.sender, { a with balance := a.balance - tx.value }),
         (receiver, { b with balance := b.balance + tx.value })] [] []) →
      Plan tx w none changes
  | created {changes address count} : address = Address.created tx.sender tx.nonce →
      tx.value.toNat ≤ w.accounts.balance tx.sender → tx.destination = none →
      w.codes address = none → (w.counters address.firstByte).add? 1 = some count →
      (let a := (w.accounts tx.sender).getD {}
       let b := (w.accounts address).getD {}
       changes.Sets [(tx.sender, { a with balance := a.balance - tx.value }),
         (address, { balance := b.balance + tx.value, nonce := 1,
                     sequence := mintSequence count address.firstByte })]
         [(address.firstByte, count)] [(address, Code.ofBody tx.data)]) →
      Plan tx w (some address) changes

variable {r : Runner} {hashes : BlockHashes} {f : Contents} {block : Block} {tx : Transaction}

/-- The outcome of a call, with what it asks to be changed. -/
def Planned (tx : Transaction) (f : Contents) (outcome : CallOutcome) : Prop :=
  outcome.status.isEngineAssigned = false ∧
    Plan tx (worldIn f) outcome.created (outcome.changes.getD {})

theorem planned_still {outcome : CallOutcome} (hstatus : outcome.status.isEngineAssigned = false)
    (hcreated : outcome.created = none) (hchanges : (outcome.changes.getD {}).Sets [] [] []) :
    Planned tx f outcome := by
  refine ⟨hstatus, ?_⟩
  rw [hcreated]
  exact .still hchanges

theorem debit_ok {request : CallRequest} {change : Address × Option Account}
    (h : r.Yields hashes f (debit request) change) :
    change = (request.sender,
      let a := (accountsIn f request.sender).getD {}
      some { a with balance := a.balance - request.value }) := by
  obtain ⟨a, ha, hchange⟩ := Runner.yields_bind.1 h
  obtain rfl := Runner.yields_account ha
  exact (Runner.yields_pure.1 hchange).symm

theorem finish_ok {gasLeft : UInt64} {output : Bytes} {destination : Address} {outcome : CallOutcome}
    (h : r.Yields hashes f (finish (r.requestOf block tx) destination gasLeft output) outcome)
    (covered : tx.value.toNat ≤ (accountsIn f).balance tx.sender) : Planned tx f outcome := by
  unfold finish at h
  dsimp only at h
  split at h
  · obtain ⟨accounts, haccounts, hdone⟩ := Runner.yields_bind.1 h
    obtain rfl := Runner.yields_pure.1 haccounts
    obtain rfl := Runner.yields_pure.1 hdone
    exact planned_still rfl rfl ⟨rfl, rfl, rfl, rfl⟩
  next hother =>
    obtain ⟨accounts, haccounts, hdone⟩ := Runner.yields_bind.1 h
    obtain ⟨payer, hpayer, hreceiving⟩ := Runner.yields_bind.1 haccounts
    obtain ⟨receiver, hreceiver, hlist⟩ := Runner.yields_bind.1 hreceiving
    obtain rfl := debit_ok hpayer
    obtain rfl := Runner.yields_account hreceiver
    obtain rfl := Runner.yields_pure.1 hlist
    obtain rfl := Runner.yields_pure.1 hdone
    exact ⟨rfl, .paid covered (fun hsame => hother hsame.symm) ⟨rfl, rfl, rfl, rfl⟩⟩

theorem create_ok {gasLeft : UInt64} {outcome : CallOutcome}
    (h : r.Yields hashes f (create (r.requestOf block tx) gasLeft) outcome)
    (covered : tx.value.toNat ≤ (accountsIn f).balance tx.sender) (hcreate : tx.destination = none) :
    Planned tx f outcome := by
  obtain ⟨code, hcode, hnew⟩ := Runner.yields_bind.1 h
  split at hnew
  · obtain rfl := Runner.yields_pure.1 hnew
    exact planned_still rfl rfl ⟨rfl, rfl, rfl, rfl⟩
  next hfresh =>
    obtain ⟨before, hbefore, hcounted⟩ := Runner.yields_bind.1 hnew
    obtain rfl := Runner.yields_counter hbefore
    split at hcounted
    · exact hcounted.elim
    next count hcount =>
      obtain ⟨existing, hexisting, hpaying⟩ := Runner.yields_bind.1 hcounted
      obtain ⟨payer, hpayer, hdone⟩ := Runner.yields_bind.1 hpaying
      obtain rfl := Runner.yields_account hexisting
      obtain rfl := debit_ok hpayer
      obtain rfl := Runner.yields_pure.1 hdone
      rw [Runner.yields_code hcode, Option.not_isSome_iff_eq_none] at hfresh
      exact ⟨rfl, .created rfl covered hcreate hfresh hcount ⟨rfl, rfl, rfl, rfl⟩⟩

theorem backend_ok {outcome : CallOutcome}
    (h : r.Yields hashes f (backend (r.requestOf block tx)) outcome) : Planned tx f outcome := by
  unfold backend at h
  split at h
  · obtain rfl := Runner.yields_pure.1 h
    exact planned_still rfl rfl ⟨rfl, rfl, rfl, rfl⟩
  · split at h
    · obtain rfl := Runner.yields_pure.1 h
      exact planned_still rfl rfl ⟨rfl, rfl, rfl, rfl⟩
    · obtain ⟨account, haccount, hfunded⟩ := Runner.yields_bind.1 h
      obtain rfl := Runner.yields_account haccount
      dsimp only at hfunded
      split at hfunded
      · obtain rfl := Runner.yields_pure.1 hfunded
        exact planned_still rfl rfl ⟨rfl, rfl, rfl, rfl⟩
      next hcovered =>
        have covered : tx.value.toNat ≤ (accountsIn f).balance tx.sender := by
          rw [← Accounts.toNat_elim_balance]
          exact BitVec.not_lt.1 hcovered
        split at hfunded
        next hcreate => exact create_ok hfunded covered hcreate
        next destination hcall =>
          obtain ⟨call, -, hcalled⟩ := Runner.yields_bind.1 hfunded
          split at hcalled
          · exact finish_ok hcalled covered
          · obtain rfl := Runner.yields_pure.1 hcalled
            exact planned_still rfl rfl ⟨rfl, rfl, rfl, rfl⟩
          · obtain rfl := Runner.yields_pure.1 hcalled
            exact planned_still rfl rfl ⟨rfl, rfl, rfl, rfl⟩
          · exact finish_ok hcalled covered

end Transfer

/-! ## Change sets -/

namespace Runner

variable {f f' : Contents} {u : Unit}

theorem changeAccount_ok {address : Address} {account : Account}
    (h : (changeAccount address (some account)).eval f = .ok u f') :
    f' = f.put (Key.account address).bytes (some account.encode) := by
  obtain ⟨previous, _, hprevious, hset⟩ := eval_bind_ok.1 h
  obtain ⟨-, rfl⟩ := account_ok hprevious
  split at hset
  · split at hset
    · exact absurd hset eval_fail_ok
    · cases hset
      rfl
  · cases hset
    rfl

/-- Steps that each write what is known are one write after another. -/
theorem forM_puts {ι : Type} {items : List ι} {p : ι → Program PUnit} {step : Contents → ι → Contents}
    (h : (items.forM p).eval f = .ok u f')
    (each : ∀ item g g' v, (p item).eval g = .ok v g' → g' = step g item) :
    f' = items.foldl step f := by
  induction items generalizing f with
  | nil =>
    obtain ⟨-, rfl⟩ := eval_pure_ok.1 h
    rfl
  | cons item rest ih =>
    obtain ⟨_, g, hitem, hrest⟩ := eval_bind_ok.1 h
    rw [List.foldl_cons, ← each item f g _ hitem]
    exact ih hrest

theorem applyChanges_ok {changes : ChangeSet} {accounts : List (Address × Account)}
    {counters : List (UInt8 × UInt64)} {codes : List (Address × Code)}
    (sets : changes.Sets accounts counters codes) (h : (applyChanges changes).eval f = .ok u f') :
    f' = codes.foldl (fun g change => g.put (Key.code change.1).bytes (some change.2.encode))
      (counters.foldl (fun g change => g.put (Key.counter change.1).bytes (some (BigEndian.encode64 change.2)))
        (accounts.foldl (fun g change => g.put (Key.account change.1).bytes (some change.2.encode)) f)) := by
  obtain ⟨_, f₁, haccounts, hrest₁⟩ := eval_bind_ok.1 h
  obtain ⟨_, f₂, hcounters, hrest₂⟩ := eval_bind_ok.1 hrest₁
  obtain ⟨_, f₃, hcodes, hstorage⟩ := eval_bind_ok.1 hrest₂
  rw [sets.accounts, List.forM_eq_forM, List.forM_map] at haccounts
  rw [sets.counters] at hcounters
  rw [sets.codes, List.forM_eq_forM, List.forM_map] at hcodes
  rw [sets.storage] at hstorage
  obtain ⟨-, rfl⟩ := eval_pure_ok.1 hstorage
  rw [forM_puts hcodes, forM_puts hcounters, forM_puts haccounts]
  · exact fun _ _ _ _ hchange => changeAccount_ok hchange
  · rintro _ _ _ _ ⟨⟩
    rfl
  · rintro _ _ _ _ ⟨⟩
    rfl

/-- Carrying out a plan changes the state as planned. -/
theorem change_of_plan {tx : Transaction} {created : Option Address} {changes : ChangeSet}
    (plan : Transfer.Plan tx (worldIn f) created changes)
    (h : (applyChanges changes).eval f = .ok u f') : World.Change tx (worldIn f) created (worldIn f') := by
  cases plan with
  | still sets =>
    obtain rfl := applyChanges_ok sets h
    exact .still
  | paid covered hother sets =>
    obtain rfl := applyChanges_ok sets h
    simp only [List.foldl_cons, List.foldl_nil, worldIn_put_account, accountsIn_put]
    exact .paid covered hother
  | @created _ address count haddress covered hcreate hfresh hcount sets =>
    obtain rfl := applyChanges_ok sets h
    simp only [List.foldl_cons, List.foldl_nil, worldIn_put_code, worldIn_put_counter, worldIn_put_account,
      accountsIn_put]
    unfold UInt64.add? at hcount
    split at hcount
    next hfits =>
      cases hcount
      subst haddress
      exact .created covered hcreate hfresh hfits
    next => cases hcount

end Runner

/-! ## The staking contract -/

namespace Staking

variable {f f' : Contents} {tx : Transaction} {cost : UInt64} {outcome : SystemOutcome}

/-- What the contract makes of a transaction: it is refused or only asks, or it moves value and records it. A
transaction is turned down like one that cannot run only when its sender has no account. -/
inductive Acts (tx : Transaction) (w : World) : Status → World → Prop
  | refused {status} : status ≠ .success → (status.isEngineAssigned = true → w.accounts tx.sender = none) →
      Acts tx w status w
  | viewed : selector? tx.data = some .stakeOf ∨ selector? tx.data = some .totalStaked →
      Acts tx w .success w
  | staked {stake sum} : selector? tx.data = some .stake → tx.value.toNat ≤ w.accounts.balance tx.sender →
      w.words (slotOf tx.sender) = some stake → w.words totalSlot = some sum →
      Acts tx w .success
        ({ w with accounts := w.accounts.pay tx.sender address tx.value }.record tx.sender
          (stake + tx.value) (sum + tx.value))
  | unstaked {amount stake sum} : selector? tx.data = some .unstake → amountArgument tx.data = some amount →
      amount.toNat ≤ w.accounts.balance address → w.words (slotOf tx.sender) = some stake →
      amount ≤ stake → w.words totalSlot = some sum →
      Acts tx w .success
        ({ w with accounts := w.accounts.pay address tx.sender amount }.record tx.sender
          (stake - amount) (sum - amount))

theorem Acts.change {status : Status} {w w' : World} (h : Acts tx w status w') : World.Change tx w none w' := by
  cases h with
  | refused _ _ => exact .still
  | viewed _ => exact .still
  | staked _ covered hstake hsum => exact .staked covered hstake hsum
  | unstaked _ hamount covered hstake henough hsum => exact .unstaked hamount covered hstake henough hsum

theorem Acts.assigned {status : Status} {w w' : World} (h : Acts tx w status w')
    (hsome : (w.accounts tx.sender).isSome) : status.isEngineAssigned = false := by
  cases h with
  | refused _ hmissing =>
    by_contra hassigned
    rw [hmissing (by simpa using hassigned)] at hsome
    cases hsome
  | viewed _ => rfl
  | staked => rfl
  | unstaked => rfl

theorem acts_failed {w : World} {status : Status} {gasUsed : UInt64} (hfails : status ≠ .success)
    (hruns : status.isEngineAssigned = false) : Acts tx w (failed status gasUsed).status w :=
  .refused hfails fun hassigned => absurd hassigned (ne_true_of_eq_false hruns)

theorem acts_missing (h : accountsIn f tx.sender = none) :
    Acts tx (worldIn f) .accountNotExist (worldIn f) := .refused (by decide) fun _ => h

theorem paid_ok {payer receiver : Address} {amount : Word} {a b : Account} {f₁ : Contents} {u u' : Unit}
    (ha : (accountsIn f payer).getD {} = a) (hb : (accountsIn f receiver).getD {} = b)
    (hpay : (State.setAccount payer { a with balance := a.balance - amount }).eval f = .ok u f₁)
    (hreceive : (State.setAccount receiver { b with balance := b.balance + amount }).eval f₁ = .ok u' f') :
    worldIn f' = { worldIn f with accounts := (accountsIn f).pay payer receiver amount } := by
  cases hpay
  cases hreceive
  subst ha hb
  rw [worldIn_put_account, worldIn_put_account, accountsIn_put]
  rfl

theorem recorded_ok {staker : Address} {stake sum : Word} {f₁ : Contents} {u u' : Unit}
    (hstake : (writeWord (slotOf staker) stake).eval f = .ok u f₁)
    (hsum : (writeWord totalSlot sum).eval f₁ = .ok u' f') :
    worldIn f' = (worldIn f).record staker stake sum := by
  obtain rfl := writeWord_iff.1 hstake
  obtain rfl := writeWord_iff.1 hsum
  have hwords := congrArg World.words (worldIn_put_word f (slotOf staker) stake)
  change wordIn _ = _ at hwords
  rw [worldIn_put_word, hwords, worldIn_put_word]
  rfl

theorem stake_ok (hselector : selector? tx.data = some .stake)
    (h : (stake tx cost).eval f = .ok outcome f') : Acts tx (worldIn f) outcome.status (worldIn f') := by
  unfold stake at h
  split at h
  · obtain ⟨rfl, rfl⟩ := eval_pure_ok.1 h
    exact acts_failed nofun rfl
  · obtain ⟨found, f, hfound, hsender⟩ := eval_bind_ok.1 h
    obtain ⟨haccount, rfl⟩ := account_ok hfound
    split at hsender
    · obtain ⟨rfl, rfl⟩ := eval_pure_ok.1 hsender
      exact acts_missing haccount
    next account =>
      split at hsender
      · obtain ⟨rfl, rfl⟩ := eval_pure_ok.1 hsender
        exact acts_failed nofun rfl
      next hcovered =>
        obtain ⟨contract, f, hcontract, hpaying⟩ := eval_bind_ok.1 hsender
        obtain ⟨rfl, rfl⟩ := account_ok hcontract
        obtain ⟨_, f₁, hpay, hreceiving⟩ := eval_bind_ok.1 hpaying
        obtain ⟨_, f₂, hreceive, hrecording⟩ := eval_bind_ok.1 hreceiving
        have hmoved := paid_ok (by rw [haccount]; rfl) rfl hpay hreceive
        obtain ⟨stake, _, hstake, htotal⟩ := eval_bind_ok.1 hrecording
        obtain ⟨hstake, rfl⟩ := readWord_iff.1 hstake
        obtain ⟨sum, _, hsum, hwriting⟩ := eval_bind_ok.1 htotal
        obtain ⟨hsum, rfl⟩ := readWord_iff.1 hsum
        obtain ⟨_, f₃, hwrite, hwriting'⟩ := eval_bind_ok.1 hwriting
        obtain ⟨_, f₄, hwrite', hdone⟩ := eval_bind_ok.1 hwriting'
        obtain ⟨rfl, rfl⟩ := eval_pure_ok.1 hdone
        have hwords := congrArg World.words hmoved
        change wordIn _ = _ at hwords
        rw [hwords] at hstake hsum
        rw [recorded_ok hwrite hwrite', hmoved]
        refine .staked hselector ?_ hstake hsum
        change _ ≤ (accountsIn _).balance tx.sender
        rw [← Accounts.toNat_getD_balance, haccount]
        exact BitVec.not_lt.1 hcovered

theorem unstake_ok (hselector : selector? tx.data = some .unstake)
    (h : (unstake tx cost).eval f = .ok outcome f') : Acts tx (worldIn f) outcome.status (worldIn f') := by
  unfold unstake at h
  split at h
  · obtain ⟨rfl, rfl⟩ := eval_pure_ok.1 h
    exact acts_failed nofun rfl
  · split at h
    · obtain ⟨rfl, rfl⟩ := eval_pure_ok.1 h
      exact acts_failed nofun rfl
    next amount hamount =>
      obtain ⟨stake, f, hstake, hstaked⟩ := eval_bind_ok.1 h
      obtain ⟨hstake, rfl⟩ := readWord_iff.1 hstake
      split at hstaked
      · obtain ⟨rfl, rfl⟩ := eval_pure_ok.1 hstaked
        exact acts_failed nofun rfl
      next henough =>
        obtain ⟨found, f, hfound, hsender⟩ := eval_bind_ok.1 hstaked
        obtain ⟨haccount, rfl⟩ := account_ok hfound
        split at hsender
        · obtain ⟨rfl, rfl⟩ := eval_pure_ok.1 hsender
          exact acts_missing haccount
        next account =>
          obtain ⟨contract, f, hcontract, hpaying⟩ := eval_bind_ok.1 hsender
          obtain ⟨rfl, rfl⟩ := account_ok hcontract
          dsimp only at hpaying
          split at hpaying
          · exact absurd hpaying eval_fail_ok
          next hcovered =>
            obtain ⟨_, f₁, hpay, hreceiving⟩ := eval_bind_ok.1 hpaying
            obtain ⟨_, f₂, hreceive, hrecording⟩ := eval_bind_ok.1 hreceiving
            have hmoved := paid_ok rfl (by rw [haccount]; rfl) hpay hreceive
            obtain ⟨sum, _, hsum, hwriting⟩ := eval_bind_ok.1 hrecording
            obtain ⟨hsum, rfl⟩ := readWord_iff.1 hsum
            obtain ⟨_, f₃, hwrite, hwriting'⟩ := eval_bind_ok.1 hwriting
            obtain ⟨_, f₄, hwrite', hdone⟩ := eval_bind_ok.1 hwriting'
            obtain ⟨rfl, rfl⟩ := eval_pure_ok.1 hdone
            have hwords := congrArg World.words hmoved
            change wordIn _ = _ at hwords
            rw [hwords] at hsum
            rw [recorded_ok hwrite hwrite', hmoved]
            refine .unstaked hselector hamount ?_ hstake (BitVec.not_lt.1 henough) hsum
            change _ ≤ (accountsIn _).balance address
            rw [← Accounts.toNat_getD_balance]
            exact BitVec.not_lt.1 hcovered

theorem viewTransaction_ok
    (hselector : selector? tx.data = some .stakeOf ∨ selector? tx.data = some .totalStaked)
    (h : (viewTransaction tx cost).eval f = .ok outcome f') :
    Acts tx (worldIn f) outcome.status (worldIn f') := by
  unfold viewTransaction at h
  split at h
  · obtain ⟨rfl, rfl⟩ := eval_pure_ok.1 h
    exact acts_failed nofun rfl
  · obtain ⟨answer, _, hview, hdone⟩ := eval_bind_ok.1 h
    obtain rfl := view_ok hview
    split at hdone
    · obtain ⟨rfl, rfl⟩ := eval_pure_ok.1 hdone
      exact .viewed hselector
    · obtain ⟨rfl, rfl⟩ := eval_pure_ok.1 hdone
      exact acts_failed nofun rfl

theorem execute_ok (block : Block) (h : (execute block tx).eval f = .ok outcome f') :
    Acts tx (worldIn f) outcome.status (worldIn f') := by
  unfold execute at h
  split at h
  · obtain ⟨rfl, rfl⟩ := eval_pure_ok.1 h
    exact acts_failed nofun rfl
  next selector hselector =>
    dsimp only at h
    split at h
    · obtain ⟨rfl, rfl⟩ := eval_pure_ok.1 h
      exact acts_failed nofun rfl
    · split at h
      · exact stake_ok hselector h
      · exact unstake_ok hselector h
      · exact viewTransaction_ok (.inl hselector) h
      · exact viewTransaction_ok (.inr hselector) h
      · obtain ⟨rfl, rfl⟩ := eval_pure_ok.1 h
        exact acts_failed nofun rfl

end Staking

/-! ## Transactions -/

theorem Gas.smooth_le {limit used : UInt64} (h : used ≤ limit) : smooth limit used ≤ limit := by
  unfold smooth
  split
  · exact UInt64.le_refl _
  · split
    · have hlimit := limit.toNat_lt
      rw [UInt64.le_iff_toNat_le] at h ⊢
      rw [UInt64.toNat_ofNat']
      omega
    · exact h

theorem Gas.applyRefund_le (used refund : UInt64) : applyRefund used refund ≤ used := by
  have hused := used.toNat_lt
  have hhalf : (used / 2 + used % 2).toNat = used.toNat / 2 + used.toNat % 2 := by
    rw [UInt64.toNat_add, UInt64.toNat_div, UInt64.toNat_mod]
    exact Nat.mod_eq_of_lt (by simp; omega)
  unfold applyRefund
  dsimp only
  split
  · rw [UInt64.le_iff_toNat_le, hhalf]
    omega
  next hcovered =>
    rw [UInt64.lt_iff_toNat_lt, UInt64.toNat_addCapped] at hcovered
    have hsize : UInt64.size = 2 ^ 64 := rfl
    have hrefund := refund.toNat_lt
    rw [UInt64.le_iff_toNat_le, UInt64.toNat_sub_of_le _ _ (by rw [UInt64.le_iff_toNat_le]; omega)]
    omega

/-- No more gas is charged than the limit. -/
theorem GasPolicy.settle_le (policy : GasPolicy) (limit left refund : UInt64) :
    policy.settle limit left refund ≤ limit := by
  have hused : limit.subFloor left ≤ limit := by
    rw [UInt64.le_iff_toNat_le, UInt64.toNat_subFloor]
    omega
  refine UInt64.le_trans (Gas.applyRefund_le _ _) ?_
  split
  · exact Gas.smooth_le hused
  · exact hused

/-- Why a transaction is turned away. -/
inductive TurnedAway (block : Block) (tx : Transaction) (m : Accounts) : Status → Prop
  | expired : tx.isTooOld block.number = true → TurnedAway block tx m .tooOld
  | mismatch {mismatch} : Mismatches m tx.sender tx.nonce mismatch →
      TurnedAway block tx m mismatch.status

theorem TurnedAway.assigned {block : Block} {tx : Transaction} {m : Accounts} {status : Status}
    (h : TurnedAway block tx m status) : status.isEngineAssigned = true := by
  cases h with
  | expired _ => rfl
  | @mismatch mismatch _ => cases mismatch <;> rfl

/-- A transaction ran: its nonce was used, its value moved, and the fee for unused gas returned. -/
structure Ran (tx : Transaction) (m : Accounts) (result : CommittedResult) (m' : Accounts) : Prop where
  tx_eq : result.tx = tx
  assigned : result.status.isEngineAssigned = false
  gasUsed : result.gasUsed ≤ tx.gasLimit
  feeRefund : result.feeRefund
    = (BitVec.ofNat 256 (tx.gasLimit.subFloor result.gasUsed).toNat).mulCapped tx.gasPrice
  effect : ∃ account moved, m tx.sender = some account ∧ account.nonce = tx.nonce ∧
    tx.nonce.toNat + 1 < UInt64.size ∧
    Effect tx (m.set tx.sender (some { account with nonce := tx.nonce + 1 })) result.contract moved ∧
    m' = moved.credit tx.sender result.feeRefund

/-- A transaction used its nonce, changed the state, and got the fee for unused gas back. -/
def Settles (tx : Transaction) (w : World) (result : CommittedResult) (w' : World) : Prop :=
  ∃ account moved, w.accounts tx.sender = some account ∧ account.nonce = tx.nonce ∧
    tx.nonce.toNat + 1 < UInt64.size ∧
    World.Change tx (w.use tx account) result.contract moved ∧
    w' = { moved with accounts := moved.accounts.credit tx.sender result.feeRefund }

namespace Runner

variable {r : Runner} {hashes : BlockHashes} {block : Block} {tx : Transaction} {f f' : Contents}

/-- What a run reports, and what it does to the state behind the nonce. -/
structure Reports (tx : Transaction) (f : Contents) (result : CommittedResult) (f' : Contents) : Prop where
  tx_eq : result.tx = tx
  assigned : result.status.isEngineAssigned = false
  gasUsed : result.gasUsed ≤ tx.gasLimit
  feeRefund : result.feeRefund
    = (BitVec.ofNat 256 (tx.gasLimit.subFloor result.gasUsed).toNat).mulCapped tx.gasPrice
  change : ∃ g, World.Change tx (worldIn f) result.contract (worldIn g) ∧ f' = g.credit tx.sender result.feeRefund

theorem runOnContract_ok {result : CommittedResult} (hsome : (accountsIn f tx.sender).isSome)
    (h : (runOnContract Staking.contract block tx).eval f = .ok result f') : Reports tx f result f' := by
  obtain ⟨outcome, g, hexecute, hcrediting⟩ := eval_bind_ok.1 h
  have hacts := Staking.execute_ok block hexecute
  obtain ⟨refund, g', hcredit, hdone⟩ := eval_bind_ok.1 hcrediting
  obtain ⟨rfl, rfl⟩ := eval_pure_ok.1 hdone
  obtain ⟨hrefund, hcredited⟩ := creditUnused_ok hcredit
  refine ⟨rfl, hacts.assigned hsome, ?_, hrefund, g, hacts.change, hcredited⟩
  rw [UInt64.le_iff_toNat_le, UInt64.toNat_min]
  exact Nat.min_le_right _ _

theorem callBackend_ok (backend : r.backend = Transfer.backend) (staking : r.contracts.OnlyStaking)
    {outcome : CallOutcome} {conversation : Conversation}
    (h : (r.callBackend hashes (r.requestOf block tx)).eval f = .ok (outcome, conversation) f') :
    f' = f ∧ Transfer.Planned tx f outcome := by
  obtain ⟨⟨outcome', exchanges⟩, g, hserve, hanswer⟩ := eval_bind_ok.1 h
  obtain ⟨rfl, hyields⟩ := serve_ok staking hserve
  obtain ⟨hpair, rfl⟩ := eval_pure_ok.1 hanswer
  cases hpair
  rw [backend] at hyields
  exact ⟨rfl, Transfer.backend_ok hyields⟩

theorem runOnBackend_ok (backend : r.backend = Transfer.backend) (staking : r.contracts.OnlyStaking)
    {out : CommittedResult × Conversation}
    (h : (r.runOnBackend hashes block tx).eval f = .ok out f') : Reports tx f out.1 f' := by
  obtain ⟨⟨outcome, conversation⟩, g, hcall, happlying⟩ := eval_bind_ok.1 h
  obtain ⟨rfl, hstatus, hplan⟩ := callBackend_ok backend staking hcall
  obtain ⟨_, g₁, happly, hcrediting⟩ := eval_bind_ok.1 happlying
  obtain ⟨refund, g₂, hcredit, hdone⟩ := eval_bind_ok.1 hcrediting
  obtain ⟨rfl, rfl⟩ := eval_pure_ok.1 hdone
  obtain ⟨hrefund, hcredited⟩ := creditUnused_ok hcredit
  exact ⟨rfl, hstatus, GasPolicy.settle_le _ _ _ _, hrefund, g₁, change_of_plan hplan happly, hcredited⟩

/-- A transaction whose nonce fits has used it, and its run reports. -/
theorem execute_ok (backend : r.backend = Transfer.backend) (staking : r.contracts.OnlyStaking)
    {out : CommittedResult × List Conversation}
    (h : (r.execute hashes block tx).eval f = .ok out f') :
    (∃ mismatch, Mismatches (accountsIn f) tx.sender tx.nonce mismatch ∧
        out.1 = .terminal tx mismatch.status ∧ f' = f) ∨
      ∃ account, accountsIn f tx.sender = some account ∧ account.nonce = tx.nonce ∧
        tx.nonce.toNat + 1 < UInt64.size ∧
        Reports tx
          (f.put (Key.account tx.sender).bytes
            (some (Account.encode { account with nonce := tx.nonce + 1 }))) out.1 f' := by
  obtain ⟨checked, _, hcheck, hchecked⟩ := eval_bind_ok.1 h
  obtain ⟨rfl, hfits⟩ := checkNonce_ok hcheck
  cases checked with
  | error mismatch =>
    obtain ⟨rfl, rfl⟩ := eval_pure_ok.1 hchecked
    exact .inl ⟨mismatch, hfits, rfl, rfl⟩
  | ok sender =>
    refine .inr ?_
    obtain ⟨haccount, hnonce⟩ := hfits
    obtain ⟨nonce, _, hadd, hsetting⟩ := eval_bind_ok.1 hchecked
    obtain ⟨hadd, rfl⟩ := eval_orFail_ok.1 hadd
    obtain ⟨_, g, hset, hrunning⟩ := eval_bind_ok.1 hsetting
    unfold UInt64.add? at hadd
    split at hadd
    next hsmall =>
      cases hadd
      cases hset
      rw [hnonce] at hsmall hrunning
      refine ⟨sender, haccount, hnonce, hsmall, ?_⟩
      split at hrunning
      next contract hcontract =>
        obtain ⟨result, _, hrun, hdone⟩ := eval_bind_ok.1 hrunning
        obtain ⟨rfl, rfl⟩ := eval_pure_ok.1 hdone
        obtain rfl := staking.at? hcontract
        exact runOnContract_ok (by simp [accountsIn_put]) hrun
      next hcontract =>
        obtain ⟨⟨result, conversation⟩, _, hrun, hdone⟩ := eval_bind_ok.1 hrunning
        obtain ⟨rfl, rfl⟩ := eval_pure_ok.1 hdone
        exact runOnBackend_ok backend staking hrun
    next => cases hadd

theorem Reports.settles {account : Account} {result : CommittedResult}
    (h : Reports tx (f.put (Key.account tx.sender).bytes
      (some (Account.encode { account with nonce := tx.nonce + 1 }))) result f')
    (haccount : accountsIn f tx.sender = some account) (hnonce : account.nonce = tx.nonce)
    (hfits : tx.nonce.toNat + 1 < UInt64.size) : Settles tx (worldIn f) result (worldIn f') := by
  obtain ⟨g, hchange, rfl⟩ := h.change
  rw [worldIn_use] at hchange
  exact ⟨account, worldIn g, haccount, hnonce, hfits, hchange, worldIn_credit g _ _⟩

theorem Reports.ran {account : Account} {result : CommittedResult}
    (h : Reports tx (f.put (Key.account tx.sender).bytes
      (some (Account.encode { account with nonce := tx.nonce + 1 }))) result f')
    (hsettles : Settles tx (worldIn f) result (worldIn f')) :
    Ran tx (accountsIn f) result (accountsIn f') where
  tx_eq := h.tx_eq
  assigned := h.assigned
  gasUsed := h.gasUsed
  feeRefund := h.feeRefund
  effect := by
    obtain ⟨account, moved, haccount, hnonce, hfits, hchange, hfinal⟩ := hsettles
    exact ⟨account, moved.accounts, haccount, hnonce, hfits, hchange.effect,
      congrArg World.accounts hfinal⟩

/-- A transaction of a block is turned away, or runs and settles. -/
theorem trial_cases (backend : r.backend = Transfer.backend) (staking : r.contracts.OnlyStaking)
    {result : CommittedResult} {c : List Conversation} {o : Overlay}
    (h : r.trial hashes block tx f = .ok (result, c) o) :
    (∃ status, TurnedAway block tx (accountsIn f) status ∧ result = .terminal tx status ∧
        o.atop f = f) ∨
      Ran tx (accountsIn f) result (accountsIn (o.atop f)) ∧
        Settles tx (worldIn f) result (worldIn (o.atop f)) := by
  unfold trial at h
  split at h
  next htooOld =>
    cases h
    exact .inl ⟨.tooOld, .expired htooOld, rfl, Overlay.atop_empty f⟩
  next =>
    have heval := eval_of_above h
    rw [Overlay.atop_empty] at heval
    obtain ⟨mismatch, hmismatch, hresult, hsame⟩ | ⟨account, haccount, hnonce, hfits, hreports⟩ :=
      execute_ok backend staking heval
    · exact .inl ⟨mismatch.status, .mismatch hmismatch, hresult, hsame⟩
    · have hsettles := hreports.settles haccount hnonce hfits
      exact .inr ⟨hreports.ran hsettles, hsettles⟩

/-- A transaction of a block is turned away or runs. -/
theorem trial_ok (backend : r.backend = Transfer.backend) (staking : r.contracts.OnlyStaking)
    {result : CommittedResult} {c : List Conversation} {o : Overlay}
    (h : r.trial hashes block tx f = .ok (result, c) o) :
    (∃ status, TurnedAway block tx (accountsIn f) status ∧ result = .terminal tx status ∧
        o.atop f = f) ∨
      Ran tx (accountsIn f) result (accountsIn (o.atop f)) :=
  (trial_cases backend staking h).imp_right And.left

end Runner

end RoundLedger
