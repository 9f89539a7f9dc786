import RoundLedger.Proofs.Effects
import RoundLedger.Proofs.Halts
import RoundLedger.Proofs.ReadOnly
import RoundLedger.Precompile.Istanbul

/-!
# Where assertions are made

Two faults say that the state is broken where the code takes it to be sound: a stake that the contract
cannot pay back, and a sequence that changes. Only a run of a transaction can meet one of them, the first
when it takes back stake and the second when it writes over an account that has a sequence. All other steps
are plain: whatever they find, no assertion stops them.
-/

namespace RoundLedger

open Step Program State Queue

/-- Whether the fault says that the state is not what it is taken to be. -/
def Fault.isAssertion : Fault → Bool
  | stakeUncovered => true
  | sequenceChanged _ _ _ => true
  | _ => false

/-! ## Plain programs -/

namespace Program

variable {α β : Type}

/-- Whatever the program finds, no assertion stops it. -/
def Plain (p : Program α) : Prop :=
  ∀ f fault g, p.eval f = .error fault g → fault.isAssertion = false

theorem Plain.bind {p : Program α} {q : α → Program β} (h : p.Plain) (next : ∀ a, (q a).Plain) :
    (p >>= q).Plain := by
  intro f fault g hstop
  obtain hfirst | ⟨a, f', -, hnext⟩ := eval_bind_stops.1 hstop
  · exact h f fault g hfirst
  · exact next a f' fault g hnext

theorem Plain.not_stops {p : Program α} (h : p.Plain) {fault : Fault} (hassert : fault.isAssertion = true)
    {f g : Contents} : p.eval f ≠ .error fault g := fun hstop => by
  rw [h f fault g hstop] at hassert
  cases hassert

theorem plain_pure (a : α) : (pure a : Program α).Plain := fun _ _ _ h => absurd h eval_pure_stops

theorem plain_fail {fault : Fault} (h : fault.isAssertion = false) : (fail fault : Program α).Plain := by
  intro f fault' g hstop
  rw [← (eval_fail_stops.1 hstop).1, h]

theorem plain_look (key : Bytes) : (look key).Plain := by
  rintro _ _ _ ⟨⟩

theorem plain_write (key value : Bytes) : (write key value).Plain := fun _ _ _ h => absurd h eval_write_stops

theorem plain_delete (key : Bytes) : (delete key).Plain := fun _ _ _ h => absurd h eval_delete_stops

theorem plain_ofExcept {x : Except Fault α} (h : ∀ fault, x = .error fault → fault.isAssertion = false) :
    (ofExcept x).Plain := fun _ fault _ hstop => h fault (eval_ofExcept_stops.1 hstop).1

theorem plain_orFail {fault : Fault} (h : fault.isAssertion = false) (x : Option α) :
    (orFail fault x).Plain := by
  cases x with
  | some a => exact plain_pure a
  | none => exact plain_fail h

theorem plain_forM {ι : Type} {items : List ι} {p : ι → Program PUnit} (h : ∀ item ∈ items, (p item).Plain) :
    (items.forM p).Plain := by
  induction items with
  | nil => exact plain_pure _
  | cons item rest ih =>
    exact (h item List.mem_cons_self).bind fun _ =>
      ih fun other hother => h other (List.mem_cons_of_mem _ hother)

end Program

/-! ## State -/

namespace State

theorem account_plain (address : Address) : (State.account address).Plain := by
  refine (plain_look _).bind fun record => ?_
  split
  · exact plain_pure _
  · exact plain_pure _
  · refine (plain_ofExcept fun fault hfault => ?_).bind fun _ => plain_pure _
    unfold Account.decode at hfault
    split at hfault
    · cases hfault
    · cases hfault
      rfl

theorem setAccount_plain (address : Address) (account : Account) : (State.setAccount address account).Plain :=
  plain_write _ _

theorem checkNonce_plain (address : Address) (nonce : UInt64) : (State.checkNonce address nonce).Plain := by
  refine (account_plain address).bind fun account => ?_
  split
  · exact plain_pure _
  · split
    · exact plain_pure _
    · split
      · exact plain_pure _
      · exact plain_pure _

theorem code_plain (address : Address) : (State.code address).Plain := by
  refine (plain_look _).bind fun record => ?_
  split
  · exact plain_pure _
  · refine (plain_ofExcept fun fault hfault => ?_).bind fun _ => plain_pure _
    unfold Code.decode at hfault
    split at hfault
    · cases hfault
      rfl
    · split at hfault
      · cases hfault
        rfl
      · cases hfault

theorem counter_plain (first : UInt8) : (State.counter first).Plain := by
  refine (plain_look _).bind fun record => ?_
  split
  · exact plain_pure _
  · split
    · exact plain_pure _
    · exact plain_fail rfl

end State

/-! ## The staking contract -/

namespace Staking

theorem readWord_plain (slot : Digest) : (readWord slot).Plain := by
  intro f fault g h
  rw [(readWord_stops h).1]
  rfl

theorem writeWord_plain (slot : Digest) (word : Word) : (writeWord slot word).Plain := by
  unfold writeWord State.setStorage
  split
  · exact plain_delete _
  · exact plain_write _ _

theorem view_plain (input : Bytes) : (view input).Plain := by
  unfold view
  split
  · exact plain_pure _
  · split
    · exact plain_pure _
    · exact (readWord_plain _).bind fun _ => plain_pure _
  · exact (readWord_plain _).bind fun _ => plain_pure _
  · exact plain_pure _

theorem committed_plain (result : CommittedResult) : (committed result).Plain := by
  unfold committed
  split
  · exact plain_pure _
  · refine (readWord_plain _).bind fun _ => ?_
    split
    · exact plain_pure _
    · exact plain_pure _
    · exact plain_pure _

variable {tx : Transaction} {cost : UInt64}

theorem record_plain (staker : Address) (stake sum : Word) (outcome : SystemOutcome) :
    (do
      writeWord (slotOf staker) stake
      writeWord totalSlot sum
      return outcome : Program SystemOutcome).Plain :=
  (writeWord_plain _ _).bind fun _ => (writeWord_plain _ _).bind fun _ => plain_pure _

theorem stake_plain : (stake tx cost).Plain := by
  unfold stake
  split
  · exact plain_pure _
  · refine (account_plain tx.sender).bind fun sender => ?_
    split
    · exact plain_pure _
    · split
      · exact plain_pure _
      · refine (account_plain address).bind fun _ => ?_
        refine (setAccount_plain _ _).bind fun _ => (setAccount_plain _ _).bind fun _ => ?_
        refine (readWord_plain _).bind fun _ => (readWord_plain _).bind fun _ => ?_
        exact record_plain _ _ _ _

theorem viewTransaction_plain : (viewTransaction tx cost).Plain := by
  unfold viewTransaction
  split
  · exact plain_pure _
  · refine (view_plain tx.data).bind fun answer => ?_
    split
    · exact plain_pure _
    · exact plain_pure _

/-- The sender has stake that the contract cannot pay back. -/
def Uncovered (tx : Transaction) (w : World) : Prop :=
  ∃ amount stake, w.words (slotOf tx.sender) = some stake ∧ amount ≤ stake ∧
    w.accounts.balance address < amount.toNat

theorem unstake_asserts {f f' : Contents} {fault : Fault}
    (h : (unstake tx cost).eval f = .error fault f') (hassert : fault.isAssertion = true) :
    fault = .stakeUncovered ∧ Uncovered tx (worldIn f) := by
  unfold unstake at h
  split at h
  · exact absurd h ((plain_pure _).not_stops hassert)
  · split at h
    · exact absurd h ((plain_pure _).not_stops hassert)
    next amount _ =>
      obtain hstop | ⟨stake, f, hstake, hstaked⟩ := eval_bind_stops.1 h
      · exact absurd hstop ((readWord_plain _).not_stops hassert)
      obtain ⟨hstake, rfl⟩ := readWord_iff.1 hstake
      split at hstaked
      · exact absurd hstaked ((plain_pure _).not_stops hassert)
      next henough =>
        obtain hstop | ⟨found, f, hfound, hsender⟩ := eval_bind_stops.1 hstaked
        · exact absurd hstop ((account_plain _).not_stops hassert)
        obtain ⟨-, rfl⟩ := account_ok hfound
        split at hsender
        · exact absurd hsender ((plain_pure _).not_stops hassert)
        next account =>
          obtain hstop | ⟨contract, f, hcontract, hpaying⟩ := eval_bind_stops.1 hsender
          · exact absurd hstop ((account_plain _).not_stops hassert)
          obtain ⟨rfl, rfl⟩ := account_ok hcontract
          dsimp only at hpaying
          split at hpaying
          next hshort =>
            obtain ⟨rfl, -⟩ := eval_fail_stops.1 hpaying
            refine ⟨rfl, amount, stake, hstake, BitVec.not_lt.1 henough, ?_⟩
            change (accountsIn _).balance address < _
            rw [← Accounts.toNat_getD_balance]
            exact hshort
          next =>
            refine absurd hpaying (Plain.not_stops ?_ hassert)
            refine (setAccount_plain _ _).bind fun _ => (setAccount_plain _ _).bind fun _ => ?_
            exact (readWord_plain _).bind fun _ => record_plain _ _ _ _

theorem execute_asserts (block : Block) {f f' : Contents} {fault : Fault}
    (h : (execute block tx).eval f = .error fault f') (hassert : fault.isAssertion = true) :
    fault = .stakeUncovered ∧ Uncovered tx (worldIn f) := by
  unfold execute at h
  split at h
  · exact absurd h ((plain_pure _).not_stops hassert)
  · dsimp only at h
    split at h
    · exact absurd h ((plain_pure _).not_stops hassert)
    · split at h
      · exact absurd h (stake_plain.not_stops hassert)
      · exact unstake_asserts h hassert
      · exact absurd h (viewTransaction_plain.not_stops hassert)
      · exact absurd h (viewTransaction_plain.not_stops hassert)
      · exact absurd h ((plain_pure _).not_stops hassert)

end Staking

/-! ## Precompiles -/

namespace StandardPrecompile

/-- No answer of the precompile stops with an assertion. -/
def Plain (run : StandardPrecompile) : Prop :=
  ∀ input limit fault, run input limit = .stopped fault → fault.isAssertion = false

theorem priced_not_stopped {price limit : UInt64} {answer : Unit → Option Bytes} {fault : Fault} :
    priced price limit answer ≠ .stopped fault := by
  unfold priced
  split
  · nofun
  · split <;> nofun

theorem powerMod_plain : powerMod.Plain := by
  intro input limit fault h
  unfold powerMod at h
  dsimp only at h
  split at h
  · cases h
  · split at h
    · cases h
    · split at h
      next hroom =>
        split at h
        · cases h
        · cases h
          unfold Room.make at hroom
          split at hroom
          · cases hroom
          · cases hroom
            rfl
      next => exact absurd h priced_not_stopped

theorem blake2_plain : blake2.Plain := by
  intro input limit fault h
  unfold blake2 at h
  split at h
  · exact absurd h priced_not_stopped
  · cases h

theorem istanbul_plain : ∀ place ∈ istanbul, place.2.Plain := by
  simp only [istanbul, List.forall_mem_cons]
  refine ⟨?_, ?_, ?_, ?_, powerMod_plain, ?_, ?_, ?_, blake2_plain, by simp⟩ <;>
    exact fun _ _ _ h => absurd h priced_not_stopped

end StandardPrecompile

namespace PrecompileTable

/-- No precompile stops with an assertion. -/
def Plain (t : PrecompileTable) : Prop :=
  ∀ address input gasLeft fault, t.call address input gasLeft = .error fault → fault.isAssertion = false

theorem plain_of_standard {t : PrecompileTable}
    (h : ∀ (address : Address) (run : StandardPrecompile), t.standard[address]? = some run → run.Plain) :
    t.Plain := by
  intro address input gasLeft fault hcall
  unfold call at hcall
  split at hcall
  · cases hcall
  · split at hcall
    next run hrun =>
      cases hstandard : callStandard run input gasLeft with
      | ok result =>
        rw [hstandard] at hcall
        cases hcall
      | error fault' =>
        rw [hstandard] at hcall
        cases hcall
        unfold callStandard at hstandard
        split at hstandard
        · cases hstandard
        · cases hstandard
        · cases hstandard
        next hstops =>
          cases hstandard
          exact h address run hrun input gasLeft _ hstops
    next => cases hcall

theorem istanbul_plain : istanbul.Plain :=
  plain_of_standard fun _ _ hrun => StandardPrecompile.istanbul_plain _ (mem_of_istanbul hrun)

end PrecompileTable

/-! ## Backends -/

/-- Whatever it is answered, no assertion stops it. -/
def HostProgram.Plain {α : Type} : HostProgram α → Prop
  | .done _ => True
  | .fail fault => fault.isAssertion = false
  | .ask _ next => ∀ answer, (next answer).Plain

namespace HostProgram

variable {α β : Type}

theorem Plain.bind {p : HostProgram α} {q : α → HostProgram β} (h : p.Plain) (next : ∀ a, (q a).Plain) :
    (p >>= q).Plain := by
  change (p.bind q).Plain
  induction p with
  | done a => exact next a
  | fail fault => exact h
  | ask query rest ih => exact fun answer => ih answer (h answer)

theorem plain_pure (a : α) : (pure a : HostProgram α).Plain := trivial

theorem plain_query (q : Query) : (query q).Plain := fun _ => trivial

end HostProgram

namespace Transfer

theorem debit_plain (request : CallRequest) : (debit request).Plain :=
  (HostProgram.plain_query _).bind fun _ => HostProgram.plain_pure _

theorem finish_plain (request : CallRequest) (destination : Address) (gasLeft : UInt64) (output : Bytes) :
    (finish request destination gasLeft output).Plain := by
  have htransfer : (transfer request destination).Plain :=
    (debit_plain request).bind fun _ => (HostProgram.plain_query _).bind fun _ => HostProgram.plain_pure _
  unfold finish
  dsimp only
  split
  · exact (HostProgram.plain_pure _).bind fun _ => HostProgram.plain_pure _
  · exact htransfer.bind fun _ => HostProgram.plain_pure _

theorem create_plain (request : CallRequest) (gasLeft : UInt64) : (create request gasLeft).Plain := by
  refine (HostProgram.plain_query _).bind fun code => ?_
  split
  · exact HostProgram.plain_pure _
  · refine (HostProgram.plain_query _).bind fun count => ?_
    split
    · exact rfl
    · exact (HostProgram.plain_query _).bind fun _ =>
        (debit_plain request).bind fun _ => HostProgram.plain_pure _

theorem backend_plain (request : CallRequest) : (backend request).Plain := by
  unfold backend
  split
  · exact HostProgram.plain_pure _
  · split
    · exact HostProgram.plain_pure _
    · refine (HostProgram.plain_query _).bind fun account => ?_
      dsimp only
      split
      · exact HostProgram.plain_pure _
      · split
        · exact create_plain request _
        · refine (HostProgram.plain_query _).bind fun call => ?_
          split
          · exact finish_plain _ _ _ _
          · exact HostProgram.plain_pure _
          · exact HostProgram.plain_pure _
          · exact finish_plain _ _ _ _

end Transfer

theorem Account.hasSequence_iff {account : Account} :
    account.hasSequence = true ↔ account.sequence ≠ Account.unassigned := by
  simp [Account.hasSequence]

namespace Runner

/-- A runner over the transfer backend with no contract but that for staking. -/
structure Standard (r : Runner) : Prop where
  backend : r.backend = Transfer.backend
  staking : r.contracts.OnlyStaking
  precompiles : r.precompiles.Plain

variable {r : Runner} (standard : r.Standard) {hashes : BlockHashes} {block : Block} {tx : Transaction}

section

include standard

theorem answer_plain (q : Query) : (r.answer hashes q).Plain := by
  cases q with
  | counter first => exact counter_plain first
  | account address => exact account_plain address
  | code address => exact code_plain address
  | storage sequence slot => exact plain_look _
  | blockHash number => exact plain_pure _
  | precompile address input gasLeft =>
    refine (plain_ofExcept fun fault => standard.precompiles address input gasLeft fault).bind fun call => ?_
    split
    · exact plain_pure _
    · unfold ContractTable.callAsPrecompile
      split
      · exact plain_pure _
      next contract hcontract =>
        obtain ⟨-, rfl⟩ := standard.staking address contract hcontract
        dsimp only
        split
        · exact plain_pure _
        · exact (Staking.view_plain input).bind fun _ => plain_pure _

theorem serve_plain {α : Type} {p : HostProgram α} (h : p.Plain) : (r.serve hashes p).Plain := by
  induction p with
  | done a => exact plain_pure _
  | fail fault => exact plain_fail h
  | ask q next ih =>
    exact (answer_plain standard q).bind fun a => (ih a (h a)).bind fun _ => plain_pure _

theorem callBackend_plain (request : CallRequest) : (r.callBackend hashes request).Plain := by
  refine (serve_plain standard ?_).bind fun _ => plain_pure _
  rw [standard.backend]
  exact Transfer.backend_plain request

end

theorem creditUnused_plain (tx : Transaction) (gasUsed : UInt64) : (creditUnused tx gasUsed).Plain := by
  unfold creditUnused
  dsimp only
  split
  · exact plain_pure _
  · exact (account_plain _).bind fun _ => (setAccount_plain _ _).bind fun _ => plain_pure _

theorem changeAccount_asserts {address : Address} {account : Account} {f f' : Contents} {fault : Fault}
    (h : (changeAccount address (some account)).eval f = .error fault f')
    (hassert : fault.isAssertion = true) :
    ∃ previous, accountsIn f address = some previous ∧ previous.hasSequence = true ∧
      previous.sequence ≠ account.sequence ∧
      fault = .sequenceChanged address previous.sequence account.sequence := by
  obtain hstop | ⟨found, g, hfound, hset⟩ := eval_bind_stops.1 h
  · exact absurd hstop ((account_plain _).not_stops hassert)
  obtain ⟨haccount, rfl⟩ := account_ok hfound
  split at hset
  next previous =>
    split at hset
    next hchanged =>
      obtain ⟨rfl, -⟩ := eval_fail_stops.1 hset
      simp only [Bool.and_eq_true, bne_iff_ne] at hchanged
      exact ⟨previous, haccount, hchanged.1, hchanged.2, rfl⟩
    next => exact absurd hset ((setAccount_plain _ _).not_stops hassert)
  next => exact absurd hset ((setAccount_plain _ _).not_stops hassert)

/-- The transaction creates a contract at an address that has a sequence, but no code. -/
def Occupied (tx : Transaction) (w : World) (fault : Fault) : Prop :=
  ∃ account, tx.destination = none ∧ w.codes (Address.created tx.sender tx.nonce) = none ∧
    w.accounts (Address.created tx.sender tx.nonce) = some account ∧ account.hasSequence = true ∧
    ∃ after, fault = .sequenceChanged (Address.created tx.sender tx.nonce) account.sequence after

theorem applyChanges_stops {changes : ChangeSet} {accounts : List (Address × Account)}
    {counters : List (UInt8 × UInt64)} {codes : List (Address × Code)} {f f' : Contents} {fault : Fault}
    (sets : changes.Sets accounts counters codes) (h : (applyChanges changes).eval f = .error fault f')
    (hassert : fault.isAssertion = true) :
    ∃ done address account rest, accounts = done ++ (address, account) :: rest ∧
      (changeAccount address (some account)).eval
        (done.foldl (fun g change => g.put (Key.account change.1).bytes (some change.2.encode)) f)
        = .error fault f' := by
  obtain haccounts | ⟨_, f₁, -, hrest⟩ := eval_bind_stops.1 h
  · rw [sets.accounts, List.forM_eq_forM, List.forM_map] at haccounts
    obtain ⟨done, ⟨address, account⟩, rest, g, rfl, hdone, hstop⟩ := eval_forM_stops haccounts
    refine ⟨done, address, account, rest, rfl, ?_⟩
    rw [← forM_puts hdone fun _ _ _ _ hchange => changeAccount_ok hchange]
    exact hstop
  · refine absurd hrest (Plain.not_stops ?_ hassert)
    refine (plain_forM fun _ _ => plain_write _ _).bind fun _ => Plain.bind ?_ fun _ => ?_
    · rw [sets.codes, List.forM_eq_forM, List.forM_map]
      exact plain_forM fun _ _ => plain_write _ _
    · rw [sets.storage]
      exact plain_pure _

theorem pair_split {α : Type} {x y item : α} {done rest : List α} (h : [x, y] = done ++ item :: rest) :
    done = [] ∧ item = x ∨ done = [x] ∧ item = y := by
  cases done with
  | nil => exact .inl ⟨rfl, (List.cons.inj h).1.symm⟩
  | cons first done =>
    obtain ⟨rfl, htail⟩ := List.cons.inj h
    cases done with
    | nil => exact .inr ⟨rfl, (List.cons.inj htail).1.symm⟩
    | cons second done => simp at htail

/-- Of a plan only the account of a created contract can break an assertion. -/
theorem applyChanges_asserts {created : Option Address} {changes : ChangeSet} {f f' : Contents}
    {fault : Fault} (plan : Transfer.Plan tx (worldIn f) created changes)
    (h : (applyChanges changes).eval f = .error fault f') (hassert : fault.isAssertion = true) :
    Occupied tx (worldIn f) fault := by
  -- An account that is written back keeps its own sequence.
  have hback {address : Address} {a : Account} {g : Contents}
      (hstop : (changeAccount address (some a)).eval g = .error fault f')
      (haccount : accountsIn g address = accountsIn f address)
      (ha : a.sequence = ((accountsIn f address).getD {}).sequence) : False := by
    obtain ⟨previous, hprevious, -, hne, -⟩ := changeAccount_asserts hstop hassert
    rw [ha, ← haccount, hprevious] at hne
    exact hne rfl
  cases plan with
  | still sets =>
    obtain ⟨done, address, account, rest, hsplit, -⟩ := applyChanges_stops sets h hassert
    simp at hsplit
  | paid covered hother sets =>
    obtain ⟨done, address, account, rest, hsplit, hstop⟩ := applyChanges_stops sets h hassert
    obtain ⟨rfl, hitem⟩ | ⟨rfl, hitem⟩ := pair_split hsplit
    · cases hitem
      exact (hback hstop rfl rfl).elim
    · cases hitem
      refine (hback hstop ?_ rfl).elim
      rw [List.foldl_cons, List.foldl_nil, accountsIn_put, Accounts.set_other _ _ hother]
  | @created _ address count haddress covered hcreate hfresh hcount sets =>
    obtain ⟨done, address', account, rest, hsplit, hstop⟩ := applyChanges_stops sets h hassert
    obtain ⟨rfl, hitem⟩ | ⟨rfl, hitem⟩ := pair_split hsplit
    · cases hitem
      exact (hback hstop rfl rfl).elim
    · cases hitem
      subst haddress
      obtain ⟨previous, hprevious, hassigned, -, rfl⟩ := changeAccount_asserts hstop hassert
      rw [List.foldl_cons, List.foldl_nil, accountsIn_put] at hprevious
      by_cases hself : tx.sender = Address.created tx.sender tx.nonce
      · rw [Accounts.set, if_pos hself] at hprevious
        cases hprevious
        -- The sender itself is at the address, and has been written back with its own sequence.
        rw [Account.hasSequence_iff] at hassigned
        dsimp only at hassigned
        cases hbefore : accountsIn f tx.sender with
        | none =>
          have hnone : (worldIn f).accounts tx.sender = none := hbefore
          rw [hnone] at hassigned
          exact absurd rfl hassigned
        | some before =>
          have hsome : (worldIn f).accounts tx.sender = some before := hbefore
          rw [hsome] at hassigned ⊢
          exact ⟨before, hcreate, hfresh, hself ▸ hsome, Account.hasSequence_iff.2 hassigned, _, rfl⟩
      · rw [Accounts.set_other _ _ hself] at hprevious
        exact ⟨previous, hcreate, hfresh, hprevious, hassigned, _, rfl⟩

/-- The state is not what a transaction takes it to be. -/
def Refutes (tx : Transaction) (w : World) (fault : Fault) : Prop :=
  fault = .stakeUncovered ∧ Staking.Uncovered tx w ∨ Occupied tx w fault

include standard

theorem execute_asserts {f f' : Contents} {fault : Fault}
    (h : (r.execute hashes block tx).eval f = .error fault f') (hassert : fault.isAssertion = true) :
    ∃ account, accountsIn f tx.sender = some account ∧ Refutes tx ((worldIn f).use tx account) fault := by
  obtain hstop | ⟨checked, _, hcheck, hchecked⟩ := eval_bind_stops.1 h
  · exact absurd hstop ((checkNonce_plain _ _).not_stops hassert)
  obtain ⟨rfl, hfits⟩ := checkNonce_ok hcheck
  cases checked with
  | error mismatch => exact absurd hchecked ((plain_pure _).not_stops hassert)
  | ok sender =>
    obtain ⟨haccount, hnonce⟩ := hfits
    obtain hstop | ⟨nonce, _, hadd, hsetting⟩ := eval_bind_stops.1 hchecked
    · exact absurd hstop ((plain_orFail rfl _).not_stops hassert)
    obtain ⟨hadd, rfl⟩ := eval_orFail_ok.1 hadd
    obtain hstop | ⟨_, g, hset, hrunning⟩ := eval_bind_stops.1 hsetting
    · exact absurd hstop ((setAccount_plain _ _).not_stops hassert)
    unfold UInt64.add? at hadd
    split at hadd
    next =>
      cases hadd
      cases hset
      rw [hnonce] at hrunning
      refine ⟨sender, haccount, ?_⟩
      rw [← worldIn_use]
      split at hrunning
      next contract hcontract =>
        obtain rfl := standard.staking.at? hcontract
        obtain hrun | ⟨result, _, -, hdone⟩ := eval_bind_stops.1 hrunning
        · obtain hstop | ⟨outcome, _, -, hcrediting⟩ := eval_bind_stops.1 hrun
          · exact .inl (Staking.execute_asserts block hstop hassert)
          · refine absurd hcrediting (Plain.not_stops ?_ hassert)
            exact (creditUnused_plain tx _).bind fun _ => plain_pure _
        · exact absurd hdone ((plain_pure _).not_stops hassert)
      next hcontract =>
        obtain hrun | ⟨⟨result, conversation⟩, _, -, hdone⟩ := eval_bind_stops.1 hrunning
        · obtain hstop | ⟨⟨outcome, conversation⟩, _, hcall, happlying⟩ := eval_bind_stops.1 hrun
          · exact absurd hstop ((callBackend_plain standard _).not_stops hassert)
          obtain ⟨rfl, -, hplan⟩ := callBackend_ok standard.backend standard.staking hcall
          obtain hstop | ⟨_, _, -, hcrediting⟩ := eval_bind_stops.1 happlying
          · exact .inr (applyChanges_asserts hplan hstop hassert)
          · refine absurd hcrediting (Plain.not_stops ?_ hassert)
            exact (creditUnused_plain tx _).bind fun _ => plain_pure _
        · exact absurd hdone ((plain_pure _).not_stops hassert)
    next => cases hadd

theorem trial_asserts {f : Contents} {fault : Fault} {o : Overlay}
    (h : r.trial hashes block tx f = .error fault o) (hassert : fault.isAssertion = true) :
    ∃ account, accountsIn f tx.sender = some account ∧ Refutes tx ((worldIn f).use tx account) fault := by
  unfold trial at h
  split at h
  · cases h
  · have heval := eval_of_above_stops h
    rw [Overlay.atop_empty] at heval
    exact execute_asserts standard heval hassert

theorem simulate_asserts {request : CallRequest} {f f' : Contents} {fault : Fault}
    (h : (r.simulate hashes request).eval f = .error fault f') (hassert : fault.isAssertion = true) :
    fault = .stakeUncovered ∧ Staking.Uncovered (transactionOf request) (worldIn f) := by
  unfold simulate at h
  split at h
  next contract hcontract =>
    obtain rfl := standard.staking.at? hcontract
    obtain hstop | ⟨outcome, _, -, hdone⟩ := eval_bind_stops.1 h
    · exact Staking.execute_asserts request.block hstop hassert
    · exact absurd hdone ((plain_pure _).not_stops hassert)
  next =>
    obtain hstop | ⟨⟨outcome, conversation⟩, _, -, hdone⟩ := eval_bind_stops.1 h
    · exact absurd hstop ((callBackend_plain standard _).not_stops hassert)
    · exact absurd hdone ((plain_pure _).not_stops hassert)

end Runner

/-! ## Admission -/

namespace Admission

theorem take_stops {s : Share} {tx : Transaction} {fault : Fault} (h : s.take tx = .error fault) :
    fault = .sumTooLarge := by
  unfold Share.take at h
  split at h
  · cases h
  · split at h
    · cases h
    · cases h
    · split at h
      · cases h
      · unfold Share.charge at h
        split at h
        · cases h
        · split at h
          · cases h
          · split at h
            · cases h
              rfl
            · cases h

theorem foldlM_stops {candidates : List Transaction} {s : Share} {fault : Fault}
    (h : candidates.foldlM Share.take s = .error fault) : fault = .sumTooLarge := by
  induction candidates generalizing s with
  | nil => cases h
  | cons tx rest ih =>
    rw [List.foldlM_cons] at h
    cases hstep : s.take tx with
    | error fault' =>
      rw [hstep] at h
      cases h
      exact take_stops hstep
    | ok next =>
      rw [hstep] at h
      exact ih h

theorem admitSenders_plain (candidates : List (Address × Nonces)) : (admitSenders candidates).Plain := by
  induction candidates with
  | nil => exact plain_pure _
  | cons candidate rest ih =>
    rw [admitSenders]
    refine Plain.bind ?_ fun _ => ih.bind fun _ => plain_pure _
    refine (account_plain _).bind fun account => ?_
    split
    · exact plain_pure _
    · refine (plain_ofExcept fun fault hfault => ?_).bind fun share => ?_
      · rw [foldlM_stops hfault]
        rfl
      · dsimp only
        split
        · exact (setAccount_plain _ _).bind fun _ => plain_pure _
        · exact plain_pure _

theorem select_plain (collected : List Transaction) (minGasPrice : Word) (maxGasLimit : UInt64) :
    (select collected minGasPrice maxGasLimit).Plain :=
  (admitSenders_plain _).bind fun _ => plain_pure _

end Admission

/-! ## The queue -/

namespace Queue

theorem isAssertion_of_size {r : QueueRange} {fault : Fault} (h : r.size = .error fault) :
    fault.isAssertion = false := by
  unfold QueueRange.size at h
  split at h
  · cases h
  · cases h
    rfl

theorem range_plain : range.Plain := by
  refine (plain_look _).bind fun record => ?_
  split
  · exact plain_pure _
  · refine plain_ofExcept fun fault hfault => ?_
    unfold QueueRange.decode at hfault
    split at hfault
    · cases hfault
    · cases hfault
      rfl

theorem size_plain : size.Plain :=
  range_plain.bind fun _ => plain_ofExcept fun _ => isAssertion_of_size

theorem readFrom_plain (position : UInt64) (count : Nat) : (readFrom position count).Plain := by
  induction count generalizing position with
  | zero => exact plain_pure _
  | succ count ih =>
    rw [readFrom]
    refine Plain.bind ?_ fun _ => (ih _).bind fun _ => plain_pure _
    refine (plain_look _).bind fun _ => (plain_orFail rfl _).bind fun _ => ?_
    exact (plain_orFail rfl _).bind fun _ => plain_pure _

theorem load_plain (r : QueueRange) : (load r).Plain := by
  refine (plain_ofExcept fun fault hfault => ?_).bind fun _ => readFrom_plain _ _
  unfold Room.make at hfault
  split at hfault
  · cases hfault
  · cases hfault
    rfl

theorem store_plain (stop : UInt64) (txs : List Transaction) : (store stop txs).Plain := by
  induction txs generalizing stop with
  | nil => exact plain_pure _
  | cons tx rest ih =>
    rw [store]
    exact (plain_write _ _).bind fun _ => (plain_orFail rfl _).bind fun next => ih next

theorem append_plain (txs : List Transaction) : (append txs).Plain :=
  range_plain.bind fun _ => (store_plain _ _).bind fun _ => (plain_write _ _).bind fun _ => plain_pure _

theorem popFront_plain (most : UInt64) : (popFront most).Plain := by
  refine range_plain.bind fun _ => (plain_ofExcept fun _ => isAssertion_of_size).bind fun _ => ?_
  refine (load_plain _).bind fun _ => (plain_forM fun _ _ => plain_delete _).bind fun _ => ?_
  exact (plain_write _ _).bind fun _ => plain_pure _

end Queue

/-! ## Blocks and commands -/

/-- A block that an assertion stops was running an entry that it had taken off the queue. -/
theorem Rounds.Stopped.asserts {r : Runner} (standard : r.Standard) {hashes : BlockHashes} {block : Block}
    {batch : UInt64} {f g : Contents} {fault : Fault} {committed taken : List Transaction}
    (h : Stopped r hashes block batch f fault committed taken g) (hassert : fault.isAssertion = true) :
    ∃ e gate h entries entry account, Reached r hashes block batch f e gate h ∧
      (popFront batch).eval h = .ok entries g ∧ entry ∈ entries ∧
      accountsIn g entry.tx.sender = some account ∧
      Runner.Refutes entry.tx ((worldIn g).use entry.tx account) fault := by
  cases h with
  | loading hload => exact absurd hload ((range_plain.bind fun _ => load_plain _).not_stops hassert)
  | round hqueued hruns hbroken =>
    cases hbroken with
    | taking hpop => exact absurd hpop ((popFront_plain _).not_stops hassert)
    | running hpop hentry _ htrial =>
      obtain ⟨account, haccount, hrefutes⟩ := Runner.trial_asserts standard htrial hassert
      exact ⟨_, _, _, _, _, account, ⟨_, hqueued, hruns⟩, hpop, hentry, haccount, hrefutes⟩
    | hook _ _ _ _ _ hcontract hhook =>
      obtain rfl := standard.staking.at? hcontract
      exact absurd hhook ((Staking.committed_plain _).not_stops hassert)
    | returning _ _ happend => exact absurd happend ((append_plain _).not_stops hassert)

namespace Engine

variable {e e' : Engine} {fault : Fault} (idle : e.desk.node.view.overlays = [])

include idle

theorem prepare_plain {seed : UInt64} {minGasPrice : Word} {maxGasLimit : UInt64}
    (h : prepare seed minGasPrice maxGasLimit e = .error fault e') : fault.isAssertion = false := by
  cases prepare_stops idle h with
  | charging hselect => exact Admission.select_plain _ _ _ _ _ _ hselect
  | queueing _ happend => exact append_plain _ _ _ _ happend
  | sizing _ _ hsize => exact isAssertion_of_size hsize

theorem execute_asserts {dealer : UInt64 → Dealer} {block : Block}
    (h : execute dealer block e = .error fault e') (hassert : fault.isAssertion = true) :
    ∃ committed taken, Rounds.Stopped e.runner e.desk.node.hashes block e.pool.batch e.contents fault
      committed taken e'.stored := by
  cases execute_stops idle h with
  | rounds hstopped => exact ⟨_, _, hstopped⟩
  | crediting _ hcredit =>
    refine absurd hcredit (Plain.not_stops ?_ hassert)
    unfold creditCoinbase
    split
    · exact plain_pure _
    · exact (account_plain _).bind fun _ => setAccount_plain _ _
  | sizing _ _ hsize => exact absurd hsize (size_plain.not_stops hassert)

end Engine

/-! ## Read-only calls -/

theorem Runner.runCall_stops {r : Runner} {request : CallRequest} {n m : Node} {fault : Fault}
    (idle : n.view.overlays = []) (h : r.runCall request n = .error fault m) :
    ∃ o, (r.simulate n.hashes request).above n.view.contents {} = .error fault o := by
  have hrun := Session.onOverlay_idle r.precompiles.contains (r.simulate n.hashes request)
    (fun result _ => result) idle
  change Session.onOverlay r.precompiles.contains (r.simulate n.hashes request) (fun result _ => result) n
    = _ at h
  rw [h] at hrun
  cases habove : (r.simulate n.hashes request).above n.view.contents {} with
  | ok out o =>
    rw [habove] at hrun
    obtain ⟨_, hends, -⟩ := hrun
    cases hends
  | error fault' o =>
    rw [habove] at hrun
    cases hrun
    exact ⟨o, rfl⟩

theorem Desk.releasing_stops {α : Type} {index : Nat} {step : Desk.Session α} {d d' : Desk} {fault : Fault}
    (h : Desk.releasing index step d = .error fault d') : ∃ d₁, step d = .error fault d₁ := by
  unfold releasing at h
  cases hstep : step d with
  | ok a d₁ =>
    obtain ⟨b, d₂, hrelease, -⟩ := release_ok index d₁
    simp only [hstep, hrelease] at h
    cases h
  | error fault' d₁ =>
    obtain ⟨b, d₂, hrelease, -⟩ := release_ok index d₁
    simp only [hstep, hrelease] at h
    cases h
    exact ⟨d₁, rfl⟩

/-- A call stops where its simulation does. -/
theorem Desk.call_stops {r : Runner} {request : CallRequest} {d d' : Desk} {fault : Fault}
    (idle : d.node.view.overlays = []) (h : Desk.call r request d = .error fault d') :
    ∃ o, (r.simulate d.node.hashes request).above d.node.view.contents {} = .error fault o := by
  unfold Desk.call at h
  obtain hclaim | ⟨index, d₁, hclaim, hcall⟩ := bind_stops.1 h
  · unfold claim at hclaim
    split at hclaim
    · cases hclaim
    · cases hclaim
  have hnode : d₁.node.view = d.node.view ∧ d₁.node.hashes = d.node.hashes := by
    unfold claim at hclaim
    split at hclaim
    · cases hclaim
      exact ⟨rfl, rfl⟩
    · cases hclaim
      exact ⟨rfl, rfl⟩
  split at hcall
  · cases hcall
  · obtain ⟨d₂, hslot⟩ := releasing_stops hcall
    rw [map_eq_pure_bind] at hslot
    obtain hslot | ⟨result, d₃, -, hdone⟩ := bind_stops.1 hslot
    · obtain hrun | ⟨result, d₃, -, hmeter⟩ := bind_stops.1 hslot
      · obtain ⟨m, hrun, -⟩ := zoom_stops.1 hrun
        rw [← hnode.1, ← hnode.2]
        exact Runner.runCall_stops (hnode.1 ▸ idle) hrun
      · obtain hmeter | ⟨_, d₄, -, hdone⟩ := bind_stops.1 hmeter
        · obtain ⟨m, hmeter, -⟩ := zoom_stops.1 hmeter
          exact absurd hmeter meter_stops
        · exact absurd hdone pure_stops
    · exact absurd hdone pure_stops

end RoundLedger
