import RoundLedger.Proofs.Namespaces
import RoundLedger.Proofs.Records

/-!
# Calls that foretell

A read-only call answers what a block would publish for the transaction it asks about (`runCall_foretells`). A
block uses up the nonce of the sender first and settles the fee last, so it runs the programs of the call on
contents that are ahead by one nonce. They cannot tell the difference. What is left is to see that neither the
changes nor the fee stop the block, and only one thing does: a contract at an address that has been given
another sequence before.
-/

namespace RoundLedger

open Step Program State

/-! ## Contents that are ahead -/

/-- Two accounts as they are found at one address. They may differ in the nonce, if it is that of the sender. -/
structure Account.Kin (sender address : Address) (a b : Account) : Prop where
  balance : a.balance = b.balance
  sequence : a.sequence = b.sequence
  nonce : address ≠ sender → a.nonce = b.nonce

namespace Account.Kin

variable {sender address : Address} {a b : Account}

theorem refl (a : Account) : Kin sender address a a := ⟨rfl, rfl, fun _ => rfl⟩

theorem withBalance (h : Kin sender address a b) (balance : Word) :
    Kin sender address { a with balance } { b with balance } := ⟨rfl, h.sequence, h.nonce⟩

theorem eq_of_ne (h : Kin sender address a b) (hne : address ≠ sender) : a = b := by
  obtain ⟨hbalance, hsequence, hnonce⟩ := h
  cases a
  cases b
  simp_all

theorem getD {x y : Option Account} (h : Option.Rel (Kin sender address) x y) :
    Kin sender address (x.getD {}) (y.getD {}) := by
  cases h with
  | some h => exact h
  | none => exact refl _

end Account.Kin

/-- The contents hold the same, but for the nonce in the account of the sender. -/
structure Contents.Ahead (sender : Address) (f g : Contents) : Prop where
  account : ∃ a b : Account, a.Kin sender sender b ∧ f (Key.account sender).bytes = some a.encode ∧
    g (Key.account sender).bytes = some b.encode
  other : ∀ key, key ≠ (Key.account sender).bytes → f key = g key

namespace Contents.Ahead

variable {sender : Address} {f g : Contents}

theorem put (h : Ahead sender f g) {key : Bytes} (hkey : key ≠ (Key.account sender).bytes)
    (value : Option Bytes) : Ahead sender (f.put key value) (g.put key value) where
  account := by
    rw [Contents.put_other _ _ hkey, Contents.put_other _ _ hkey]
    exact h.account
  other other hother := by
    rw [Contents.put, Contents.put, h.other other hother]

theorem putAccount (h : Ahead sender f g) {address : Address} {a b : Account}
    (kin : a.Kin sender address b) :
    Ahead sender (f.put (Key.account address).bytes (some a.encode))
      (g.put (Key.account address).bytes (some b.encode)) := by
  by_cases hsame : address = sender
  · subst hsame
    refine ⟨⟨a, b, kin, Contents.put_same _ _ _, Contents.put_same _ _ _⟩, fun other hother => ?_⟩
    rw [Contents.put_other _ _ hother.symm, Contents.put_other _ _ hother.symm, h.other other hother]
  · rw [kin.eq_of_ne hsame]
    exact h.put (fun hkey => hsame (Key.account_bytes_inj hkey)) _

end Contents.Ahead

/-! ## Programs that mirror each other -/

namespace Program

variable {α β γ δ : Type} {A : α → β → Prop} {B : γ → δ → Prop} {sender : Address}

/-- Where one program runs ahead by a nonce of the sender, both come to the same. -/
def Mirrors (sender : Address) (A : α → β → Prop) (p : Program α) (q : Program β) : Prop :=
  ∀ f g, Contents.Ahead sender f g → Matches A (Contents.Ahead sender) (p.eval f) (q.eval g)

theorem Mirrors.bind {p : Program α} {q : Program β} {next : α → Program γ} {next' : β → Program δ}
    (h : p.Mirrors sender A q) (hnext : ∀ a b, A a b → (next a).Mirrors sender B (next' b)) :
    (p >>= next).Mirrors sender B (q >>= next') := by
  intro f g ahead
  rw [eval_bind, eval_bind]
  exact (h f g ahead).bind fun a b f' g' _ ha ahead' => hnext a b ha f' g' ahead'

theorem mirrors_pure {a : α} {b : β} (h : A a b) : Mirrors sender A (pure a) (pure b) :=
  fun _ _ ahead => .ok h ahead

theorem mirrors_fail (fault : Fault) : Mirrors sender A (fail fault) (fail fault) := fun _ _ _ => .error

theorem mirrors_look {key : Bytes} (h : key ≠ (Key.account sender).bytes) :
    (look key).Mirrors sender Eq (look key) := fun _ _ ahead => .ok (ahead.other key h) ahead

theorem mirrors_write {key : Bytes} (h : key ≠ (Key.account sender).bytes) (value : Bytes) :
    (write key value).Mirrors sender Eq (write key value) := fun _ _ ahead => .ok rfl (ahead.put h _)

theorem mirrors_delete {key : Bytes} (h : key ≠ (Key.account sender).bytes) :
    (delete key).Mirrors sender Eq (delete key) := fun _ _ ahead => .ok rfl (ahead.put h _)

theorem mirrors_ofExcept (x : Except Fault α) : (ofExcept x).Mirrors sender Eq (ofExcept x) := by
  cases x with
  | ok a => exact mirrors_pure rfl
  | error fault => exact mirrors_fail fault

/-- The rest of two programs whose first parts come to the same answer. -/
theorem Mirrors.bindEq {p q : Program α} {next : α → Program γ} {next' : α → Program δ}
    (h : p.Mirrors sender Eq q) (hnext : ∀ a, (next a).Mirrors sender B (next' a)) :
    (p >>= next).Mirrors sender B (q >>= next') :=
  h.bind fun a _ hsame => hsame ▸ hnext a

end Program

/-! ## State -/

namespace State

variable {sender : Address}

/-- The key is that of some other record than the account of the sender. -/
theorem key_ne (k : Key) (hk : k.isState = true) (h : k ≠ .account sender) :
    k.bytes ≠ (Key.account sender).bytes := fun hkey => h (Key.bytes_inj_of_isState hk hkey)

theorem account_mirrors (address : Address) :
    (State.account address).Mirrors sender (Option.Rel (Account.Kin sender address))
      (State.account address) := by
  by_cases hsame : address = sender
  · subst hsame
    intro f g ahead
    obtain ⟨a, b, kin, hf, hg⟩ := ahead.account
    rw [account_eval, account_eval, hf, hg, readAccount_encode, readAccount_encode]
    exact .ok (.some kin) ahead
  · refine (mirrors_look (key_ne (.account address) rfl fun h => hsame (Key.account.inj h))).bindEq fun record => ?_
    split
    · exact mirrors_pure .none
    · exact mirrors_pure .none
    · exact (mirrors_ofExcept _).bindEq fun account => mirrors_pure (.some (.refl account))

theorem setAccount_mirrors {address : Address} {a b : Account} (kin : a.Kin sender address b) :
    (setAccount address a).Mirrors sender Eq (setAccount address b) :=
  fun _ _ ahead => .ok rfl (ahead.putAccount kin)

theorem code_mirrors (address : Address) :
    (State.code address).Mirrors sender Eq (State.code address) := by
  refine (mirrors_look (key_ne (.code address) rfl nofun)).bindEq fun record => ?_
  split
  · exact mirrors_pure rfl
  · exact (mirrors_ofExcept _).bindEq fun _ => mirrors_pure rfl

theorem counter_mirrors (first : UInt8) :
    (State.counter first).Mirrors sender Eq (State.counter first) := by
  refine (mirrors_look (key_ne (.counter first) rfl nofun)).bindEq fun record => ?_
  split
  · exact mirrors_pure rfl
  · split
    · exact mirrors_pure rfl
    · exact mirrors_fail _

theorem storage_mirrors (sequence : UInt64) (slot : Digest) :
    (State.storage sequence slot).Mirrors sender Eq (State.storage sequence slot) :=
  mirrors_look (key_ne (.slot sequence slot) rfl nofun)

theorem setStorage_mirrors (sequence : UInt64) (slot : Digest) (value : Bytes) :
    (State.setStorage sequence slot value).Mirrors sender Eq (State.setStorage sequence slot value) := by
  unfold setStorage
  split
  · exact mirrors_delete (key_ne (.slot sequence slot) rfl nofun)
  · exact mirrors_write (key_ne (.slot sequence slot) rfl nofun) _

end State

/-! ## The staking contract -/

namespace Staking

variable {sender : Address} {tx : Transaction} {cost : UInt64}

theorem readWord_mirrors (slot : Digest) : (readWord slot).Mirrors sender Eq (readWord slot) := by
  refine (storage_mirrors sequence slot).bindEq fun value => ?_
  dsimp only
  split
  · exact mirrors_pure rfl
  · exact mirrors_fail _

theorem view_mirrors (input : Bytes) : (view input).Mirrors sender Eq (view input) := by
  unfold view
  split
  · exact mirrors_pure rfl
  · split
    · exact mirrors_pure rfl
    · exact (readWord_mirrors _).bindEq fun _ => mirrors_pure rfl
  · exact (readWord_mirrors _).bindEq fun _ => mirrors_pure rfl
  · exact mirrors_pure rfl

theorem record_mirrors (staker : Address) (stake sum : Word) (outcome : SystemOutcome) :
    Mirrors sender Eq
      (do
        writeWord (slotOf staker) stake
        writeWord totalSlot sum
        return outcome)
      (do
        writeWord (slotOf staker) stake
        writeWord totalSlot sum
        return outcome) :=
  (setStorage_mirrors _ _ _).bindEq fun _ => (setStorage_mirrors _ _ _).bindEq fun _ => mirrors_pure rfl

theorem stake_mirrors : (stake tx cost).Mirrors sender Eq (stake tx cost) := by
  unfold stake
  split
  · exact mirrors_pure rfl
  refine (account_mirrors tx.sender).bind fun x y hfound => ?_
  cases hfound with
  | none => exact mirrors_pure rfl
  | @some a b kin =>
    dsimp only
    rw [kin.balance]
    split
    · exact mirrors_pure rfl
    refine (account_mirrors address).bind fun x y hcontract => ?_
    have contract := Account.Kin.getD hcontract
    rw [contract.balance]
    refine (setAccount_mirrors (kin.withBalance _)).bindEq fun _ => ?_
    refine (setAccount_mirrors (contract.withBalance _)).bindEq fun _ => ?_
    refine (readWord_mirrors _).bindEq fun _ => (readWord_mirrors _).bindEq fun _ => ?_
    exact record_mirrors _ _ _ _

theorem unstake_mirrors : (unstake tx cost).Mirrors sender Eq (unstake tx cost) := by
  unfold unstake
  split
  · exact mirrors_pure rfl
  split
  · exact mirrors_pure rfl
  refine (readWord_mirrors _).bindEq fun stake => ?_
  split
  · exact mirrors_pure rfl
  refine (account_mirrors tx.sender).bind fun x y hfound => ?_
  cases hfound with
  | none => exact mirrors_pure rfl
  | @some a b kin =>
    refine (account_mirrors address).bind fun x y hcontract => ?_
    have contract := Account.Kin.getD hcontract
    dsimp only
    rw [contract.balance, kin.balance]
    split
    · exact mirrors_fail _
    refine (setAccount_mirrors (contract.withBalance _)).bindEq fun _ => ?_
    refine (setAccount_mirrors (kin.withBalance _)).bindEq fun _ => ?_
    exact (readWord_mirrors _).bindEq fun _ => record_mirrors _ _ _ _

theorem viewTransaction_mirrors :
    (viewTransaction tx cost).Mirrors sender Eq (viewTransaction tx cost) := by
  unfold viewTransaction
  split
  · exact mirrors_pure rfl
  refine (view_mirrors tx.data).bindEq fun answer => ?_
  split
  · exact mirrors_pure rfl
  · exact mirrors_pure rfl

theorem execute_mirrors (block : Block) (tx : Transaction) :
    (execute block tx).Mirrors sender Eq (execute block tx) := by
  unfold execute
  split
  · exact mirrors_pure rfl
  dsimp only
  split
  · exact mirrors_pure rfl
  split
  · exact stake_mirrors
  · exact unstake_mirrors
  · exact viewTransaction_mirrors
  · exact viewTransaction_mirrors
  · exact mirrors_pure rfl

end Staking

/-! ## Backends -/

/-- Two answers to one question that differ by a nonce of the sender at most. -/
def Query.Near (sender : Address) : (q : Query) → q.Answer → q.Answer → Prop
  | .account address => Option.Rel (Account.Kin sender address)
  | .counter _ | .code _ | .storage _ _ | .blockHash _ | .precompile _ _ _ => Eq

namespace HostProgram

variable {α β γ δ : Type} {A : α → β → Prop} {B : γ → δ → Prop} {sender : Address}

/-- Told the same, but for a nonce of the sender, both ask the same and come to the same. -/
inductive Mirrors (sender : Address) (A : α → β → Prop) : HostProgram α → HostProgram β → Prop
  | done {a b} : A a b → Mirrors sender A (.done a) (.done b)
  | fail fault : Mirrors sender A (.fail fault) (.fail fault)
  | ask {q next next'} : (∀ x y, q.Near sender x y → Mirrors sender A (next x) (next' y)) →
      Mirrors sender A (.ask q next) (.ask q next')

theorem mirrors_pure {a : α} {b : β} (h : A a b) : Mirrors sender A (pure a) (pure b) := .done h

theorem Mirrors.bind {p : HostProgram α} {q : HostProgram β} {next : α → HostProgram γ}
    {next' : β → HostProgram δ} (h : p.Mirrors sender A q)
    (hnext : ∀ a b, A a b → (next a).Mirrors sender B (next' b)) :
    (p >>= next).Mirrors sender B (q >>= next') := by
  change (p.bind next).Mirrors sender B (q.bind next')
  induction h with
  | done h => exact hnext _ _ h
  | fail fault => exact .fail fault
  | ask _ ih => exact .ask ih

theorem mirrors_query (q : Query) : (query q).Mirrors sender (q.Near sender) (query q) :=
  .ask fun _ _ h => .done h

end HostProgram

/-- What a block and a call both answer of an outcome. -/
structure CallOutcome.Alike (a b : CallOutcome) : Prop where
  status : a.status = b.status
  gasLeft : a.gasLeft = b.gasLeft
  output : a.output = b.output
  created : a.created = b.created
  logs : (a.changes.getD {}).logs = (b.changes.getD {}).logs
  refund : (a.changes.getD {}).refund = (b.changes.getD {}).refund

namespace Transfer

variable {sender : Address} (request : CallRequest) (estimate : Bool) (revision : Revision)

theorem debit_mirrors :
    (debit request).Mirrors sender (fun _ _ => True) (debit { request with estimate, revision }) :=
  (HostProgram.mirrors_query _).bind fun _ _ _ => HostProgram.mirrors_pure trivial

theorem transfer_mirrors (destination : Address) :
    (transfer request destination).Mirrors sender (fun _ _ => True)
      (transfer { request with estimate, revision } destination) :=
  (debit_mirrors request estimate revision).bind fun _ _ _ =>
    (HostProgram.mirrors_query _).bind fun _ _ _ => HostProgram.mirrors_pure trivial

theorem finish_mirrors (destination : Address) (gasLeft : UInt64) (output : Bytes) :
    (finish request destination gasLeft output).Mirrors sender CallOutcome.Alike
      (finish { request with estimate, revision } destination gasLeft output) := by
  unfold finish
  dsimp only
  split
  · exact (HostProgram.mirrors_pure trivial).bind (A := fun _ _ => True) fun _ _ _ =>
      HostProgram.mirrors_pure ⟨rfl, rfl, rfl, rfl, rfl, rfl⟩
  · exact (transfer_mirrors request estimate revision destination).bind fun _ _ _ =>
      HostProgram.mirrors_pure ⟨rfl, rfl, rfl, rfl, rfl, rfl⟩

theorem create_mirrors (gasLeft : UInt64) :
    (create request gasLeft).Mirrors sender CallOutcome.Alike
      (create { request with estimate, revision } gasLeft) := by
  refine (HostProgram.mirrors_query (.code _)).bind fun code code' hcode => ?_
  obtain rfl : code = code' := hcode
  split
  · exact HostProgram.mirrors_pure ⟨rfl, rfl, rfl, rfl, rfl, rfl⟩
  refine (HostProgram.mirrors_query (.counter _)).bind fun count count' hcount => ?_
  obtain rfl : count = count' := hcount
  split
  · exact .fail _
  refine (HostProgram.mirrors_query (.account _)).bind fun _ _ _ => ?_
  exact (debit_mirrors request estimate revision).bind fun _ _ _ =>
    HostProgram.mirrors_pure ⟨rfl, rfl, rfl, rfl, rfl, rfl⟩

theorem backend_mirrors :
    (backend request).Mirrors sender CallOutcome.Alike (backend { request with estimate, revision }) := by
  unfold backend
  dsimp only
  split
  · exact HostProgram.mirrors_pure ⟨rfl, rfl, rfl, rfl, rfl, rfl⟩
  split
  · exact HostProgram.mirrors_pure ⟨rfl, rfl, rfl, rfl, rfl, rfl⟩
  refine (HostProgram.mirrors_query (.account _)).bind fun x y hpayer => ?_
  have hbalance : x.elim 0 Account.balance = y.elim 0 Account.balance := by
    cases (hpayer : Option.Rel _ x y) with
    | some kin => exact kin.balance
    | none => rfl
  rw [hbalance]
  split
  · exact HostProgram.mirrors_pure ⟨rfl, rfl, rfl, rfl, rfl, rfl⟩
  split
  · exact create_mirrors request estimate revision _
  refine (HostProgram.mirrors_query (.precompile _ _ _)).bind fun call call' hcall => ?_
  obtain rfl : call = call' := hcall
  split
  · exact finish_mirrors request estimate revision _ _ _
  · exact HostProgram.mirrors_pure ⟨rfl, rfl, rfl, rfl, rfl, rfl⟩
  · exact HostProgram.mirrors_pure ⟨rfl, rfl, rfl, rfl, rfl, rfl⟩
  · exact finish_mirrors request estimate revision _ _ _

end Transfer

namespace Runner

variable {r : Runner} (staking : r.contracts.OnlyStaking) {hashes : BlockHashes} {sender : Address}

include staking

theorem answer_mirrors (q : Query) :
    (r.answer hashes q).Mirrors sender (q.Near sender) (r.answer hashes q) := by
  cases q with
  | counter first => exact counter_mirrors first
  | account address => exact account_mirrors address
  | code address => exact code_mirrors address
  | storage sequence slot => exact storage_mirrors sequence slot
  | blockHash number => exact Program.mirrors_pure rfl
  | precompile address input gasLeft =>
    refine (mirrors_ofExcept _).bindEq fun call => ?_
    split
    · exact Program.mirrors_pure rfl
    unfold ContractTable.callAsPrecompile
    split
    · exact Program.mirrors_pure rfl
    next contract hcontract =>
      obtain ⟨-, rfl⟩ := staking address contract hcontract
      dsimp only
      split
      · exact Program.mirrors_pure rfl
      · exact (Staking.view_mirrors input).bindEq fun _ => Program.mirrors_pure rfl

theorem serve_mirrors {α β : Type} {A : α → β → Prop} {p : HostProgram α} {q : HostProgram β}
    (h : p.Mirrors sender A q) :
    (r.serve hashes p).Mirrors sender (fun out out' => A out.1 out'.1) (r.serve hashes q) := by
  induction h with
  | done h => exact Program.mirrors_pure h
  | fail fault => exact mirrors_fail fault
  | ask _ ih =>
    refine (answer_mirrors staking _).bind fun x y hnear => ?_
    exact (ih x y hnear).bind fun _ _ h => Program.mirrors_pure h

end Runner

/-! ## Changes that are carried out -/

namespace Transfer

variable {r : Runner} {hashes : BlockHashes} {f : Contents} {request : CallRequest} {outcome : CallOutcome}

/-- The records of the accounts that are to be changed can be read. -/
def Reads (f : Contents) (changes : List (Address × Option Account)) : Prop :=
  ∀ change ∈ changes, Readable f change.1

theorem readable_of_yields {address : Address} {a : Option Account}
    (h : r.Yields hashes f (HostProgram.query (.account address)) a) : Readable f address := by
  have heval := Runner.yields_query.1 h
  obtain rfl := Runner.yields_account h
  exact heval

theorem debit_reads {change : Address × Option Account} (h : r.Yields hashes f (debit request) change) :
    Readable f change.1 := by
  obtain ⟨a, ha, hchange⟩ := Runner.yields_bind.1 h
  obtain rfl := Runner.yields_pure.1 hchange
  exact readable_of_yields ha

theorem finish_reads {destination : Address} {gasLeft : UInt64} {output : Bytes}
    (h : r.Yields hashes f (finish request destination gasLeft output) outcome) :
    Reads f (outcome.changes.getD {}).accounts := by
  unfold finish at h
  dsimp only at h
  split at h
  · obtain ⟨accounts, haccounts, hdone⟩ := Runner.yields_bind.1 h
    obtain rfl := Runner.yields_pure.1 haccounts
    obtain rfl := Runner.yields_pure.1 hdone
    exact fun change hchange => absurd hchange List.not_mem_nil
  · obtain ⟨accounts, haccounts, hdone⟩ := Runner.yields_bind.1 h
    obtain ⟨payer, hpayer, hreceiving⟩ := Runner.yields_bind.1 haccounts
    obtain ⟨receiver, hreceiver, hlist⟩ := Runner.yields_bind.1 hreceiving
    obtain rfl := Runner.yields_pure.1 hlist
    obtain rfl := Runner.yields_pure.1 hdone
    exact List.forall_mem_cons.2
      ⟨debit_reads hpayer, List.forall_mem_singleton.2 (readable_of_yields hreceiver)⟩

theorem create_reads {gasLeft : UInt64} (h : r.Yields hashes f (create request gasLeft) outcome) :
    Reads f (outcome.changes.getD {}).accounts := by
  obtain ⟨code, -, hnew⟩ := Runner.yields_bind.1 h
  split at hnew
  · obtain rfl := Runner.yields_pure.1 hnew
    exact fun change hchange => absurd hchange List.not_mem_nil
  obtain ⟨before, -, hcounted⟩ := Runner.yields_bind.1 hnew
  split at hcounted
  · exact hcounted.elim
  obtain ⟨existing, hexisting, hpaying⟩ := Runner.yields_bind.1 hcounted
  obtain ⟨payer, hpayer, hdone⟩ := Runner.yields_bind.1 hpaying
  obtain rfl := Runner.yields_pure.1 hdone
  exact List.forall_mem_cons.2
    ⟨debit_reads hpayer, List.forall_mem_singleton.2 (readable_of_yields hexisting)⟩

theorem backend_reads (h : r.Yields hashes f (backend request) outcome) :
    Reads f (outcome.changes.getD {}).accounts := by
  have hnone {status : Status} {gasLeft : UInt64} (hsame : ({ status, gasLeft } : CallOutcome) = outcome) :
      Reads f (outcome.changes.getD {}).accounts := by
    subst hsame
    exact fun change hchange => absurd hchange List.not_mem_nil
  unfold backend at h
  split at h
  · exact hnone (Runner.yields_pure.1 h)
  split at h
  · exact hnone (Runner.yields_pure.1 h)
  obtain ⟨account, -, hfunded⟩ := Runner.yields_bind.1 h
  dsimp only at hfunded
  split at hfunded
  · exact hnone (Runner.yields_pure.1 hfunded)
  split at hfunded
  · exact create_reads hfunded
  obtain ⟨call, -, hcalled⟩ := Runner.yields_bind.1 hfunded
  split at hcalled
  · exact finish_reads hcalled
  · exact hnone (Runner.yields_pure.1 hcalled)
  · exact hnone (Runner.yields_pure.1 hcalled)
  · exact finish_reads hcalled

end Transfer

namespace Runner

/-- The fault of a block that creates a contract where an account has another sequence than the new one. -/
def clash? (w : World) (created : Option Address) : Option Fault := do
  let address ← created
  let before := w.accounts.sequence address
  let minted := Transfer.mintSequence (w.counters address.firstByte + 1) address.firstByte
  if before ≠ Account.unassigned ∧ before ≠ minted then some (.sequenceChanged address before minted) else none

variable {f : Contents}

theorem changeAccount_eval {address : Address} (readable : Readable f address) (account : Account) :
    (changeAccount address (some account)).eval f =
      let before := (accountsIn f).sequence address
      if before ≠ Account.unassigned ∧ before ≠ account.sequence then
        .error (.sequenceChanged address before account.sequence) f
      else .ok ⟨⟩ (f.put (Key.account address).bytes (some account.encode)) := by
  unfold changeAccount Accounts.sequence
  rw [eval_bind, bind_of_ok readable]
  cases accountsIn f address with
  | none => rfl
  | some previous =>
    simp only [Account.hasSequence, Bool.and_eq_true, decide_eq_true_eq, bne_iff_ne, Option.elim_some]
    split
    next hclash => exact (if_pos hclash).symm
    next hclash => exact (if_neg hclash).symm

/-- Of two accounts, the first of which keeps its sequence, only the second can stop the changes. -/
theorem changeAccounts_eval {a b : Address × Account} (ha : Readable f a.1) (hb : Readable f b.1)
    (kept : a.2.sequence = (accountsIn f).sequence a.1) :
    ([a, b].forM fun change => changeAccount change.1 (some change.2)).eval f =
      let f' := f.put (Key.account a.1).bytes (some a.2.encode)
      let before := (accountsIn f).sequence b.1
      if before ≠ Account.unassigned ∧ before ≠ b.2.sequence then
        .error (.sequenceChanged b.1 before b.2.sequence) f'
      else .ok ⟨⟩ (f'.put (Key.account b.1).bytes (some b.2.encode)) := by
  have hfirst : (changeAccount a.1 (some a.2)).eval f
      = .ok ⟨⟩ (f.put (Key.account a.1).bytes (some a.2.encode)) := by
    rw [changeAccount_eval ha a.2]
    exact if_neg fun h => h.2 kept.symm
  have hsecond := changeAccount_eval (hb.put a.1 a.2) b.2
  rw [accountsIn_put, Accounts.sequence_set_back kept] at hsecond
  change Program.eval (changeAccount a.1 (some a.2) >>= fun _ =>
    changeAccount b.1 (some b.2) >>= fun _ => pure PUnit.unit) f = _
  rw [eval_bind, bind_of_ok hfirst, eval_bind]
  dsimp only at hsecond ⊢
  split at hsecond
  next hclash =>
    rw [if_pos hclash]
    exact bind_error hsecond _
  next hclash =>
    rw [if_neg hclash]
    exact bind_of_ok hsecond _

theorem forM_returns {ι : Type} (items : List ι) {p : ι → Program PUnit}
    (h : ∀ item g, ∃ g', (p item).eval g = .ok ⟨⟩ g') (f : Contents) :
    ∃ g, (items.forM p).eval f = .ok ⟨⟩ g := by
  induction items generalizing f with
  | nil => exact ⟨f, rfl⟩
  | cons item rest ih =>
    obtain ⟨f₁, hitem⟩ := h item f
    obtain ⟨g, hrest⟩ := ih f₁
    exact ⟨g, eval_bind_ok.2 ⟨⟨⟩, f₁, hitem, hrest⟩⟩

variable {changes : ChangeSet} {accounts : List (Address × Account)} {counters : List (UInt8 × UInt64)}
  {codes : List (Address × Code)} (sets : changes.Sets accounts counters codes)

include sets

theorem Sets.forM_accounts : (changes.accounts.forM fun (address, account) => changeAccount address account)
    = accounts.forM fun change => changeAccount change.1 (some change.2) := by
  rw [sets.accounts, List.forM_eq_forM, List.forM_map]
  rfl

/-- Once the accounts are changed, nothing stops the other changes. -/
theorem applyChanges_returns {f' : Contents}
    (h : (accounts.forM fun change => changeAccount change.1 (some change.2)).eval f = .ok ⟨⟩ f') :
    ∃ g, (applyChanges changes).eval f = .ok ⟨⟩ g := by
  obtain ⟨f₁, hcounters⟩ := forM_returns counters
    (p := fun change => State.setCounter change.1 change.2) (fun _ g => ⟨_, rfl⟩) f'
  obtain ⟨f₂, hcodes⟩ := forM_returns codes
    (p := fun change => State.setCode change.1 change.2) (fun _ g => ⟨_, rfl⟩) f₁
  refine ⟨f₂, ?_⟩
  unfold applyChanges
  rw [Sets.forM_accounts sets, sets.counters, sets.codes, sets.storage]
  refine eval_bind_ok.2 ⟨⟨⟩, f', h, eval_bind_ok.2 ⟨⟨⟩, f₁, hcounters, eval_bind_ok.2 ⟨⟨⟩, f₂, ?_, rfl⟩⟩⟩
  rw [List.forM_eq_forM, List.forM_map]
  exact hcodes

theorem applyChanges_clashes {f' : Contents} {fault : Fault}
    (h : (accounts.forM fun change => changeAccount change.1 (some change.2)).eval f = .error fault f') :
    (applyChanges changes).eval f = .error fault f' := by
  unfold applyChanges
  rw [Sets.forM_accounts sets, eval_bind]
  exact bind_error h _

omit sets in
theorem applyChanges_pair {a b : Address × Account} (sets : changes.Sets [a, b] counters codes)
    (reads : Transfer.Reads f changes.accounts) (kept : a.2.sequence = (accountsIn f).sequence a.1) :
    let before := (accountsIn f).sequence b.1
    if before ≠ Account.unassigned ∧ before ≠ b.2.sequence then
      ∃ g, (applyChanges changes).eval f = .error (.sequenceChanged b.1 before b.2.sequence) g
    else ∃ g, (applyChanges changes).eval f = .ok ⟨⟩ g := by
  rw [sets.accounts] at reads
  have ha : Readable f a.1 := reads (a.1, some a.2) List.mem_cons_self
  have hb : Readable f b.1 := reads (b.1, some b.2) (List.mem_cons_of_mem _ List.mem_cons_self)
  have haccounts := changeAccounts_eval ha hb kept
  dsimp only at haccounts ⊢
  split at haccounts
  next hclash =>
    rw [if_pos hclash]
    exact ⟨_, applyChanges_clashes sets haccounts⟩
  next hclash =>
    rw [if_neg hclash]
    exact applyChanges_returns sets haccounts

omit sets in
/-- A planned change is carried out, unless a contract is created where the account has another sequence. -/
theorem applyChanges_foretold {tx : Transaction} {created : Option Address}
    (plan : Transfer.Plan tx (worldIn f) created changes) (reads : Transfer.Reads f changes.accounts) :
    match clash? (worldIn f) created with
    | some fault => ∃ g, (applyChanges changes).eval f = .error fault g
    | none => ∃ g, (applyChanges changes).eval f = .ok ⟨⟩ g := by
  cases plan with
  | still sets => exact applyChanges_returns sets (eval_pure_ok.2 ⟨rfl, rfl⟩)
  | paid covered hother sets =>
    have hpair := applyChanges_pair sets reads (Accounts.sequence_getD _ _)
    rwa [if_neg fun h => h.2 (Accounts.sequence_getD _ _).symm] at hpair
  | @created _ address count haddress covered hcreate hfresh hcount sets =>
    obtain rfl : (worldIn f).counters address.firstByte + 1 = count := by
      unfold UInt64.add? at hcount
      split at hcount
      · exact Option.some.inj hcount
      · cases hcount
    have hpair := applyChanges_pair sets reads (Accounts.sequence_getD _ _)
    dsimp only at hpair
    split at hpair
    next hclash =>
      rw [show clash? (worldIn f) (some address) = some _ from if_pos hclash]
      exact hpair
    next hclash =>
      rw [show clash? (worldIn f) (some address) = none from if_neg hclash]
      exact hpair

end Runner

/-! ## A call and a block -/

/-- What a block publishes is what a call has answered. -/
structure CallResult.Foretells (answer : CallResult) (result : CommittedResult) : Prop where
  status : result.status = answer.status
  gasUsed : result.gasUsed = answer.gasUsed
  output : result.output = answer.output
  logs : result.logs = answer.logs
  created : result.contract = answer.created

/-- Where a call stops, a block stops with the same fault. Where it answers, the block publishes the answer, or
stops at the clash of sequences that the answer lets it foresee. -/
inductive Runner.Foretold {σ τ α β : Type} (w : World) (answer : α → CallResult) :
    EStateM.Result Fault σ α → EStateM.Result Fault τ (CommittedResult × β) → Prop
  | stopped {fault s t} : Foretold w answer (.error fault s) (.error fault t)
  | clashed {a s fault t} : clash? w (answer a).created = some fault →
      Foretold w answer (.ok a s) (.error fault t)
  | published {a s out t} : clash? w (answer a).created = none → (answer a).Foretells out.1 →
      Foretold w answer (.ok a s) (.ok out t)

namespace Runner

theorem Foretold.congr {σ τ α β : Type} {w w' : World} (h : ∀ created, clash? w created = clash? w' created)
    {answer : α → CallResult} {x : EStateM.Result Fault σ α} {y : EStateM.Result Fault τ (CommittedResult × β)}
    (foretold : Foretold w answer x y) : Foretold w' answer x y := by
  cases foretold with
  | stopped => exact .stopped
  | clashed hclash => exact .clashed (h _ ▸ hclash)
  | published hclash hanswer => exact .published (h _ ▸ hclash) hanswer

variable {r : Runner} {hashes : BlockHashes} {block : Block} {tx : Transaction} {f g : Contents}
  {sender : Account}

theorem creditUnused_returns (h : (accountsIn f tx.sender).isSome) (gasUsed : UInt64) :
    ∃ refund g, (creditUnused tx gasUsed).eval f = .ok refund g := by
  obtain ⟨account, haccount⟩ := Option.isSome_iff_exists.1 h
  have hread := readable_of_account haccount
  unfold creditUnused
  dsimp only
  split
  · exact ⟨_, _, rfl⟩
  · exact ⟨_, _, eval_bind_ok.2 ⟨_, _, hread, rfl⟩⟩

theorem isSome_of_ahead (ahead : Contents.Ahead tx.sender f g) : (accountsIn f tx.sender).isSome := by
  obtain ⟨a, b, -, hf, -⟩ := ahead.account
  have hread : (State.account tx.sender).eval f = .ok (some a) f := by
    rw [account_eval, hf, readAccount_encode]
    rfl
  rw [(account_ok hread).1]
  rfl

theorem simulate_contract {request : CallRequest} {contract : SystemContract}
    (h : r.contracts.at? request.destination = some contract) :
    r.simulate hashes request = contract.execute request.block (transactionOf request) >>= fun outcome =>
      let gasUsed := min outcome.gasUsed request.gasLimit
      pure ({ status := outcome.status, gasUsed, output := outcome.output, logs := outcome.logs,
              created := none, gasEstimate := if request.estimate then gasUsed else 0 }, []) := by
  rw [simulate, h]

theorem simulate_backend {request : CallRequest} (h : r.contracts.at? request.destination = none) :
    r.simulate hashes request = r.callBackend hashes request >>= fun out =>
      let changes := out.1.changes.getD {}
      pure ({ status := out.1.status,
              gasUsed := r.policy.settle request.gasLimit out.1.gasLeft changes.refund,
              output := out.1.output, logs := changes.logs, created := out.1.created,
              gasEstimate := out.1.gasEstimate }, [out.2]) := by
  rw [simulate, h]

/-- A block that is ahead runs a transaction to the staking contract as a call does. The height is all that the
transaction of a request may differ in, and the contract does not ask for it. -/
theorem runOnContract_foretold (ahead : Contents.Ahead tx.sender f g) (estimate : Bool) (revision : Revision)
    (hcontract : r.contracts.at? tx.destination = some Staking.contract) :
    Foretold (worldIn f) Prod.fst
      ((r.simulate hashes { r.requestOf block tx with estimate, revision }).eval g)
      (Program.eval (runOnContract Staking.contract block tx >>= fun result =>
        pure (result, ([] : List Conversation))) f) := by
  have hmatches := Staking.execute_mirrors block tx f g ahead
  rw [simulate_contract hcontract]
  change Matches _ _ ((Staking.contract.execute block tx).eval f)
    ((Staking.contract.execute block tx).eval g) at hmatches
  change Foretold _ _ (Program.eval (Staking.contract.execute block tx >>= _) g) _
  rw [eval_bind]
  generalize hends : (Staking.contract.execute block tx).eval f = x,
    hends' : (Staking.contract.execute block tx).eval g = y at hmatches
  cases hmatches with
  | error =>
    have hrun : (runOnContract Staking.contract block tx).eval f = .error _ _ :=
      eval_bind_stops.2 (.inl hends)
    rw [bind_error hends', eval_bind, bind_error hrun]
    exact .stopped
  | @ok outcome _ f₁ g₁ hsame hahead =>
    subst hsame
    obtain ⟨refund, f₂, hcredit⟩ := creditUnused_returns (isSome_of_ahead hahead)
      (min outcome.gasUsed tx.gasLimit)
    have hrun : (runOnContract Staking.contract block tx).eval f = .ok _ f₂ :=
      eval_bind_ok.2 ⟨outcome, f₁, hends, eval_bind_ok.2 ⟨refund, f₂, hcredit, rfl⟩⟩
    rw [bind_of_ok hends', eval_bind, bind_of_ok hrun]
    exact .published rfl ⟨rfl, rfl, rfl, rfl, rfl⟩

section Backend

variable (backend : r.backend = Transfer.backend) (staking : r.contracts.OnlyStaking)

include backend staking

variable (hashes) in
theorem callBackend_mirrors (address : Address) (request : CallRequest) (estimate : Bool) (revision : Revision) :
    (r.callBackend hashes request).Mirrors address (fun out out' => CallOutcome.Alike out.1 out'.1)
      (r.callBackend hashes { request with estimate, revision }) := by
  have hserve : (r.serve hashes (r.backend request)).Mirrors address
      (fun out out' => CallOutcome.Alike out.1 out'.1)
      (r.serve hashes (r.backend { request with estimate, revision })) := by
    rw [backend]
    exact serve_mirrors staking (Transfer.backend_mirrors request estimate revision)
  exact hserve.bind fun _ _ h => Program.mirrors_pure h

theorem callBackend_reads {request : CallRequest} {out : CallOutcome × Conversation} {f' : Contents}
    (h : (r.callBackend hashes request).eval f = .ok out f') :
    Transfer.Reads f (out.1.changes.getD {}).accounts := by
  obtain ⟨_, _, hserve, hdone⟩ := eval_bind_ok.1 h
  obtain ⟨rfl, hyields⟩ := serve_ok staking hserve
  obtain ⟨rfl, rfl⟩ := eval_pure_ok.1 hdone
  rw [backend] at hyields
  exact Transfer.backend_reads hyields

/-- A block that is ahead runs a transaction on the backend as a call does, unless it has to stop. -/
theorem runOnBackend_foretold (ahead : Contents.Ahead tx.sender f g) (estimate : Bool) (revision : Revision)
    (hcontract : r.contracts.at? tx.destination = none) :
    Foretold (worldIn f) Prod.fst
      ((r.simulate hashes { r.requestOf block tx with estimate, revision }).eval g)
      (Program.eval (r.runOnBackend hashes block tx >>= fun out => pure (out.1, [out.2])) f) := by
  have hmatches := callBackend_mirrors hashes backend staking tx.sender (r.requestOf block tx) estimate revision
    f g ahead
  rw [simulate_backend hcontract, eval_bind]
  generalize hends : (r.callBackend hashes (r.requestOf block tx)).eval f = x,
    hends' : (r.callBackend hashes { r.requestOf block tx with estimate, revision }).eval g = y at hmatches
  cases hmatches with
  | error =>
    have hrun : (r.runOnBackend hashes block tx).eval f = .error _ _ := eval_bind_stops.2 (.inl hends)
    rw [bind_error hends', eval_bind, bind_error hrun]
    exact .stopped
  | @ok out out' f₁ g₁ alike hahead =>
    obtain ⟨outcome, conversation⟩ := out
    obtain ⟨outcome', conversation'⟩ := out'
    obtain ⟨rfl, hstatus, hplan⟩ := callBackend_ok backend staking hends
    have happlied := applyChanges_foretold hplan (callBackend_reads backend staking hends)
    dsimp only at alike
    rw [bind_of_ok hends']
    cases hclash : clash? (worldIn f₁) outcome.created with
    | some fault =>
      rw [hclash] at happlied
      obtain ⟨f₂, happlied⟩ := happlied
      have hrun : (r.runOnBackend hashes block tx).eval f₁ = .error fault f₂ :=
        eval_bind_stops.2 (.inr ⟨_, _, hends, eval_bind_stops.2 (.inl happlied)⟩)
      rw [eval_bind, bind_error hrun]
      exact .clashed (alike.created ▸ hclash)
    | none =>
      rw [hclash] at happlied
      obtain ⟨f₂, happlied⟩ := happlied
      have hpresent := (change_of_plan hplan happlied).effect.isSome (isSome_of_ahead ahead)
      obtain ⟨refund, f₃, hcredit⟩ := creditUnused_returns hpresent
        (r.policy.settle tx.gasLimit outcome.gasLeft (outcome.changes.getD {}).refund)
      have hrun : (r.runOnBackend hashes block tx).eval f₁ = .ok _ f₃ :=
        eval_bind_ok.2 ⟨_, _, hends, eval_bind_ok.2 ⟨_, f₂, happlied, eval_bind_ok.2 ⟨refund, f₃, hcredit, rfl⟩⟩⟩
      rw [eval_bind, bind_of_ok hrun]
      refine .published (alike.created ▸ hclash) ⟨alike.status, ?_, alike.output, alike.logs, alike.created⟩
      dsimp only [requestOf]
      rw [← alike.gasLeft, ← alike.refund]

end Backend

/-- The sequences and the counters do not show that a nonce has been used. -/
theorem clash?_used (f : Contents) (tx : Transaction) (haccount : accountsIn f tx.sender = some sender)
    (created : Option Address) :
    clash? (worldIn (f.put (Key.account tx.sender).bytes
      (some (Account.encode { sender with nonce := tx.nonce + 1 })))) created = clash? (worldIn f) created := by
  have hsequence : ((accountsIn f).set tx.sender (some { sender with nonce := tx.nonce + 1 })).sequence
      = (accountsIn f).sequence := Accounts.sequence_set_back (Accounts.sequence_of_some haccount).symm
  rw [worldIn_put_account]
  unfold clash?
  dsimp only
  rw [hsequence]
  rfl

theorem checkNonce_passes (haccount : accountsIn f tx.sender = some sender) (hnonce : sender.nonce = tx.nonce) :
    (State.checkNonce tx.sender tx.nonce).eval f = .ok (.ok sender) f := by
  unfold State.checkNonce
  rw [eval_bind, bind_of_ok (readable_of_account haccount), haccount]
  dsimp only
  rw [if_neg (by rw [hnonce]; exact UInt64.lt_irrefl _), if_neg (by rw [hnonce]; exact UInt64.lt_irrefl _)]
  rfl

variable (r hashes block) in
/-- The contents once the sender has used its nonce. -/
theorem execute_used (haccount : accountsIn f tx.sender = some sender) (hnonce : sender.nonce = tx.nonce)
    (room : tx.nonce.toNat + 1 < UInt64.size) :
    Contents.Ahead tx.sender
        (f.put (Key.account tx.sender).bytes (some (Account.encode { sender with nonce := tx.nonce + 1 }))) f ∧
      (r.execute hashes block tx).eval f
        = Program.eval (match r.contracts.at? tx.destination with
          | some contract => do return (← runOnContract contract block tx, [])
          | none => do
            let (result, conversation) ← r.runOnBackend hashes block tx
            return (result, [conversation]))
          (f.put (Key.account tx.sender).bytes (some (Account.encode { sender with nonce := tx.nonce + 1 }))) := by
  constructor
  · exact ⟨⟨{ sender with nonce := tx.nonce + 1 }, sender, ⟨rfl, rfl, fun h => absurd rfl h⟩,
      Contents.put_same _ _ _, record_of_account haccount⟩, fun key hkey => Contents.put_other _ _ hkey.symm⟩
  · have hadd : sender.nonce.add? 1 = some (tx.nonce + 1) := by
      rw [hnonce]
      exact if_pos room
    unfold execute
    rw [eval_bind, bind_of_ok (checkNonce_passes haccount hnonce)]
    dsimp only
    rw [hadd]
    rfl

section Foretold

variable (backend : r.backend = Transfer.backend) (staking : r.contracts.OnlyStaking)
  (haccount : accountsIn f tx.sender = some sender) (hnonce : sender.nonce = tx.nonce)
  (room : tx.nonce.toNat + 1 < UInt64.size) (estimate : Bool) (revision : Revision)

include backend staking haccount hnonce room

variable (hashes block) in
theorem simulate_foretells : Foretold (worldIn f) Prod.fst
    ((r.simulate hashes { r.requestOf block tx with estimate, revision }).eval f)
    ((r.execute hashes block tx).eval f) := by
  obtain ⟨ahead, hexecute⟩ := execute_used r hashes block haccount hnonce room
  rw [hexecute]
  refine Foretold.congr (clash?_used f tx haccount) ?_
  cases hcontract : r.contracts.at? tx.destination with
  | some contract =>
    obtain rfl := staking.at? hcontract
    exact runOnContract_foretold ahead estimate revision hcontract
  | none => exact runOnBackend_foretold backend staking ahead estimate revision hcontract

end Foretold

end Runner

/-! ## Sessions -/

/-- On an overlay of its own a program comes to what it comes to on the contents of the view. -/
theorem Session.onOverlay_eval {α β : Type} (isPrecompile : Address → Bool)
    (p : Program (α × List Conversation)) (answer : α → Overlay → β) (n : Node) :
    match p.eval n.view.contents with
    | .ok out _ => ∃ o m, onOverlay isPrecompile p answer n = .ok (answer out.1 o) m
    | .error fault _ => ∃ m, onOverlay isPrecompile p answer n = .error fault m := by
  obtain ⟨outer, -, hrun⟩ := run_opened p n.view
  have heval := eval_atop p n.view.contents {}
  rw [Overlay.atop_empty] at heval
  rw [heval]
  unfold onOverlay
  rw [openOverlay, modify_bind]
  cases habove : p.above n.view.contents {} with
  | ok out o =>
    rw [habove] at hrun
    have haccess : access p { n with view := n.view.opened } = .ok out { n with view := ⟨n.view.base, o :: outer⟩ } := by
      rw [access, zoom, hrun]
    have htake : takeOverlay { n with view := ⟨n.view.base, o :: outer⟩ }
        = .ok o { n with view := ⟨n.view.base, outer⟩ } := rfl
    obtain ⟨m, hhear, -⟩ := hear_all isPrecompile out.2 { n with view := ⟨n.view.base, outer⟩ }
    rw [bind_of_ok haccess]
    dsimp only
    rw [bind_of_ok htake, bind_of_ok hhear]
    exact ⟨o, m, rfl⟩
  | error fault o =>
    rw [habove] at hrun
    have haccess : access p { n with view := n.view.opened }
        = .error fault { n with view := ⟨n.view.base, o :: outer⟩ } := by
      rw [access, zoom, hrun]
    exact ⟨_, bind_error haccess _⟩

namespace Runner

/-- A call on the same state, with or without an estimate, answers what a block publishes for a transaction
whose nonce is the next one of its sender. -/
theorem runCall_foretells {r : Runner} (backend : r.backend = Transfer.backend)
    (staking : r.contracts.OnlyStaking) {block : Block} {tx : Transaction} {n : Node} {sender : Account}
    (haccount : accountsIn n.view.contents tx.sender = some sender) (hnonce : sender.nonce = tx.nonce)
    (room : tx.nonce.toNat + 1 < UInt64.size) (young : tx.isTooOld block.number = false)
    (estimate : Bool) (revision : Revision) :
    Foretold (worldIn n.view.contents) id
      (r.runCall { r.requestOf block tx with estimate, revision } n) (r.runTransaction block tx n) := by
  have hforetold := simulate_foretells n.hashes block backend staking haccount hnonce room estimate revision
  have hcall := Session.onOverlay_eval r.precompiles.contains
    (r.simulate n.hashes { r.requestOf block tx with estimate, revision }) (fun answer _ => answer) n
  have hblock := Session.onOverlay_eval r.precompiles.contains (r.execute n.hashes block tx)
    (fun result o => (result, o)) n
  have hrun : r.runTransaction block tx n = Session.onOverlay r.precompiles.contains
      (r.execute n.hashes block tx) (fun result o => (result, o)) n := by
    rw [runTransaction, if_neg (by rw [young]; exact Bool.false_ne_true)]
    rfl
  rw [hrun]
  change Foretold _ id (Session.onOverlay r.precompiles.contains
    (r.simulate n.hashes { r.requestOf block tx with estimate, revision }) (fun answer _ => answer) n) _
  generalize (r.simulate n.hashes { r.requestOf block tx with estimate, revision }).eval n.view.contents = x,
    (r.execute n.hashes block tx).eval n.view.contents = y at hforetold hcall hblock
  cases hforetold with
  | stopped =>
    obtain ⟨m, hcall⟩ := hcall
    obtain ⟨m', hblock⟩ := hblock
    rw [hcall, hblock]
    exact .stopped
  | clashed hclash =>
    obtain ⟨o, m, hcall⟩ := hcall
    obtain ⟨m', hblock⟩ := hblock
    rw [hcall, hblock]
    exact .clashed hclash
  | published hclash hanswer =>
    obtain ⟨o, m, hcall⟩ := hcall
    obtain ⟨o', m', hblock⟩ := hblock
    rw [hcall, hblock]
    exact .published hclash hanswer

theorem transfer_foretold : ∃ answer n out m,
    Rounds.stakingRunner.runCall
        { Rounds.stakingRunner.requestOf {} (Rounds.transfer 0) with estimate := true, revision := 9 }
        (Rounds.twoTransfers 0) = .ok answer n ∧
      Rounds.stakingRunner.runTransaction {} (Rounds.transfer 0) (Rounds.twoTransfers 0) = .ok out m ∧
      answer.Foretells out.1 := by
  have haccount : accountsIn (Rounds.twoTransfers 0).view.contents (Rounds.transfer 0).sender
      = some { balance := 1000000 } := by decide +kernel
  have hends : endsWith (Rounds.stakingRunner.runTransaction {} (Rounds.transfer 0) (Rounds.twoTransfers 0))
      (fun out _ => out.1.status = .success) = true := by decide +kernel
  obtain ⟨out, m, hblock, -⟩ := endsWith_iff.1 hends
  have hforetold : Foretold (worldIn (Rounds.twoTransfers 0).view.contents) id
      (Rounds.stakingRunner.runCall
        { Rounds.stakingRunner.requestOf {} (Rounds.transfer 0) with estimate := true, revision := 9 }
        (Rounds.twoTransfers 0))
      (Rounds.stakingRunner.runTransaction {} (Rounds.transfer 0) (Rounds.twoTransfers 0)) :=
    runCall_foretells rfl ContractTable.onlyStaking_insert haccount rfl (by decide +kernel) (by decide +kernel)
      true 9
  rw [hblock] at hforetold
  generalize hcall : Rounds.stakingRunner.runCall
    { Rounds.stakingRunner.requestOf {} (Rounds.transfer 0) with estimate := true, revision := 9 }
    (Rounds.twoTransfers 0) = x at hforetold
  cases hforetold with
  | published _ hanswer => exact ⟨_, _, out, m, rfl, hblock, hanswer⟩

/-- The account at 1 creates a contract, without code and without value. -/
def creation : Transaction :=
  { sender := 1, destination := none, nonce := 0, value := 0, gasPrice := 1, gasLimit := 100000, data := [],
    height := 0 }

/-- There is an account with a sequence where the contract is to be, but no code. -/
def occupied : Node :=
  let accounts : Store := (∅ : Store).insert (Key.account 1).bytes (Account.encode { balance := 1000000 })
  { view :=
      { base := accounts.insert (Key.account (Address.created 1 0)).bytes (Account.encode { sequence := 7 }) } }

/-- The call answers that the contract has been created, and the block stops. -/
theorem occupied_unforetold :
    accountsIn occupied.view.contents creation.sender = some { balance := 1000000, nonce := creation.nonce } ∧
      creation.isTooOld ({} : Block).number = false ∧
      (∃ answer m, Rounds.stakingRunner.runCall (Rounds.stakingRunner.requestOf {} creation) occupied
        = .ok answer m ∧ answer.status = .success) ∧
      ∀ out m, Rounds.stakingRunner.runTransaction {} creation occupied ≠ .ok out m := by
  have hcall : endsWith (Rounds.stakingRunner.runCall (Rounds.stakingRunner.requestOf {} creation) occupied)
      (fun answer _ => answer.status = .success) = true := by decide +kernel
  have hblock : stopsWith (Rounds.stakingRunner.runTransaction {} creation occupied)
      (fun fault _ => fault.isAssertion) = true := by decide +kernel
  obtain ⟨answer, m, hcall, hanswer⟩ := endsWith_iff.1 hcall
  refine ⟨by decide +kernel, by decide +kernel, ⟨answer, m, hcall, of_decide_eq_true hanswer⟩, fun out m' hrun => ?_⟩
  rw [hrun] at hblock
  cases hblock

end Runner

end RoundLedger
