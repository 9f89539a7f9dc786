import RoundLedger.Proofs.Effects

/-!
# What a failure leaves

Nothing takes the writes of a transaction back when it fails. A program is careful when it writes
only after the last point at which it can fail; the transfer backend and the staking contract are,
so a transaction that fails has used its nonce, got its fee for unused gas back, and left no other
trace.
-/

namespace RoundLedger

open Step

namespace Program

variable {α β : Type} {P Q R S : α → Prop} {P' Q' : β → Prop}

/-! ## Careful programs -/

/-- Whatever the program answers is of the kind. -/
def Answers (P : α → Prop) : Program α → Prop
  | done a => P a
  | fail _ => True
  | get _ next => ∀ value, (next value).Answers P
  | put _ _ next => next.Answers P

/-- What the program answers is of the first kind, or it is of the second kind and nothing was
written. -/
def Careful (P Q : α → Prop) : Program α → Prop
  | done a => P a ∨ Q a
  | fail _ => True
  | get _ next => ∀ value, (next value).Careful P Q
  | put _ _ next => next.Answers P

/-- The program gives answers of a kind and writes nothing. -/
abbrev Silent (Q : α → Prop) (p : Program α) : Prop := p.Careful (fun _ => False) Q

theorem Answers.careful {p : Program α} (h : p.Answers P) : p.Careful P Q := by
  induction p with
  | done a => exact .inl h
  | fail fault => trivial
  | get key next ih => exact fun value => ih value (h value)
  | put key value next _ => exact h

theorem answers_true (p : Program α) : p.Answers fun _ => True := by
  induction p with
  | done a => trivial
  | fail fault => trivial
  | get key next ih => exact ih
  | put key value next ih => exact ih

theorem Answers.bind {p : Program α} {g : α → Program β} (h : p.Answers P)
    (next : ∀ a, P a → (g a).Answers P') : (p >>= g).Answers P' := by
  change (p.bind g).Answers P'
  induction p with
  | done a => exact next a h
  | fail fault => trivial
  | get key _ ih => exact fun value => ih value (h value)
  | put key value _ ih => exact ih h

/-- What is answered in the end decides, whatever came before. -/
theorem answers_bind {p : Program α} {g : α → Program β} (next : ∀ a, (g a).Answers P') :
    (p >>= g).Answers P' :=
  (answers_true p).bind fun a _ => next a

theorem Careful.bind {p : Program α} {g : α → Program β} (h : p.Careful P Q)
    (late : ∀ a, P a → (g a).Answers P') (early : ∀ a, Q a → (g a).Careful P' Q') :
    (p >>= g).Careful P' Q' := by
  change (p.bind g).Careful P' Q'
  induction p with
  | done a => exact h.elim (fun ha => (late a ha).careful) (early a)
  | fail fault => trivial
  | get key _ ih => exact fun value => ih value (h value)
  | put key value rest _ => exact Answers.bind (p := rest) h late

/-- A program that writes nothing may come first. -/
theorem Silent.bind {p : Program α} {g : α → Program β} (h : p.Silent Q)
    (next : ∀ a, Q a → (g a).Careful P' Q') : (p >>= g).Careful P' Q' :=
  Careful.bind h (fun _ => False.elim) next

theorem careful_pure {a : α} (h : P a ∨ Q a) : (pure a : Program α).Careful P Q := h

theorem silent_look (key : Bytes) : (look key).Silent fun _ => True := fun _ => .inr trivial

theorem silent_ofExcept (x : Except Fault α) : (ofExcept x).Silent fun _ => True := by
  cases x with
  | ok a => exact .inr trivial
  | error fault => trivial

theorem silent_orFail (fault : Fault) (x : Option α) : (orFail fault x).Silent fun _ => True := by
  cases x with
  | some a => exact .inr trivial
  | none => trivial

/-! ### On an overlay -/

theorem above_bind_ok {p : Program α} {g : α → Program β} {f : Contents} {o o' : Overlay} {b : β} :
    (p >>= g).above f o = .ok b o' ↔ ∃ a o₁, p.above f o = .ok a o₁ ∧ (g a).above f o₁ = .ok b o' := by
  change (p.bind g).above f o = .ok b o' ↔ _
  induction p generalizing o with
  | done a =>
    constructor
    · exact fun h => ⟨a, o, rfl, h⟩
    · rintro ⟨_, _, ⟨⟩, h⟩
      exact h
  | fail fault =>
    constructor
    · exact fun h => absurd h throw_ok
    · rintro ⟨_, _, h, -⟩
      exact absurd h throw_ok
  | get key next ih =>
    cases hkey : o.writes[key]? with
    | some value =>
      rw [above_get_some hkey, Program.bind, above_get_some hkey]
      exact ih value
    | none =>
      rw [above_get_none hkey, Program.bind, above_get_none hkey]
      exact ih (f key)
  | put key value next ih => exact ih

theorem Answers.above {p : Program α} (h : p.Answers P) {f : Contents} {o o' : Overlay} {a : α}
    (hrun : p.above f o = .ok a o') : P a := by
  induction p generalizing o with
  | done b =>
    obtain ⟨rfl, -⟩ := pure_ok.1 hrun
    exact h
  | fail fault => exact absurd hrun throw_ok
  | get key next ih =>
    cases hkey : o.writes[key]? with
    | some value =>
      rw [above_get_some hkey] at hrun
      exact ih value (h value) hrun
    | none =>
      rw [above_get_none hkey] at hrun
      exact ih (f key) (h (f key)) hrun
  | put key value next ih => exact ih h hrun

/-- A careful program leaves the writes of its overlay as they were, or it answers what it answers
after it has written. -/
theorem Careful.above {p : Program α} (h : p.Careful P Q) {f : Contents} {o o' : Overlay} {a : α}
    (hrun : p.above f o = .ok a o') : P a ∨ Q a ∧ o'.writes = o.writes := by
  induction p generalizing o with
  | done b =>
    obtain ⟨rfl, rfl⟩ := pure_ok.1 hrun
    exact h.imp_right fun hb => ⟨hb, rfl⟩
  | fail fault => exact absurd hrun throw_ok
  | get key next ih =>
    cases hkey : o.writes[key]? with
    | some value =>
      rw [above_get_some hkey] at hrun
      exact ih value (h value) hrun
    | none =>
      rw [above_get_none hkey] at hrun
      have hrest := ih (f key) (h (f key)) hrun
      exact hrest
  | put key value next _ => exact .inl (Answers.above (p := next) h hrun)

theorem Silent.above {p : Program α} (h : p.Silent Q) {f : Contents} {o o' : Overlay} {a : α}
    (hrun : p.above f o = .ok a o') : Q a ∧ o'.writes = o.writes :=
  (Careful.above h hrun).elim False.elim id

end Program

open Program

/-! ## State -/

namespace State

theorem account_silent (address : Address) : (State.account address).Silent fun _ => True := by
  refine (silent_look _).bind fun record _ => ?_
  split
  · exact careful_pure (.inr trivial)
  · exact careful_pure (.inr trivial)
  · exact (silent_ofExcept _).bind fun _ _ => careful_pure (.inr trivial)

theorem code_silent (address : Address) : (State.code address).Silent fun _ => True := by
  refine (silent_look _).bind fun record _ => ?_
  split
  · exact careful_pure (.inr trivial)
  · exact (silent_ofExcept _).bind fun _ _ => careful_pure (.inr trivial)

theorem counter_silent (first : UInt8) : (State.counter first).Silent fun _ => True := by
  refine (silent_look _).bind fun record _ => ?_
  split
  · exact careful_pure (.inr trivial)
  · split
    · exact careful_pure (.inr trivial)
    · trivial

theorem checkNonce_silent (address : Address) (nonce : UInt64) :
    (State.checkNonce address nonce).Silent fun _ => True := by
  refine (account_silent address).bind fun account _ => ?_
  split
  · exact careful_pure (.inr trivial)
  · split
    · exact careful_pure (.inr trivial)
    · split <;> exact careful_pure (.inr trivial)

end State

/-! ## The staking contract -/

namespace Staking

variable {tx : Transaction} {cost : UInt64}

/-- The contract reports success, or a failure without output and logs. -/
abbrev Cautious (p : Program SystemOutcome) : Prop :=
  p.Careful (fun outcome => outcome.status = .success)
    (fun outcome => outcome.output = [] ∧ outcome.logs = [])

theorem cautious_failed (status : Status) (gasUsed : UInt64) : Cautious (pure (failed status gasUsed)) :=
  careful_pure (.inr ⟨rfl, rfl⟩)

theorem readWord_silent (slot : Digest) : (readWord slot).Silent fun _ => True := by
  refine (silent_look _).bind fun value _ => ?_
  dsimp only
  split
  · exact careful_pure (.inr trivial)
  · trivial

theorem view_silent (input : Bytes) : (view input).Silent fun _ => True := by
  unfold view
  split
  · exact careful_pure (.inr trivial)
  · split
    · exact careful_pure (.inr trivial)
    · exact (readWord_silent _).bind fun _ _ => careful_pure (.inr trivial)
  · exact (readWord_silent _).bind fun _ _ => careful_pure (.inr trivial)
  · exact careful_pure (.inr trivial)

theorem stake_cautious : Cautious (stake tx cost) := by
  unfold stake
  split
  · exact cautious_failed _ _
  · refine (State.account_silent _).bind fun found _ => ?_
    split
    · exact cautious_failed _ _
    · split
      · exact cautious_failed _ _
      · refine (State.account_silent _).bind fun contract _ => ?_
        -- from here on it can only succeed
        refine (answers_bind fun _ => answers_bind fun _ => ?_).careful
        exact answers_bind fun _ => answers_bind fun _ => answers_bind fun _ => answers_bind fun _ => rfl

theorem unstake_cautious : Cautious (unstake tx cost) := by
  unfold unstake
  split
  · exact cautious_failed _ _
  · split
    · exact cautious_failed _ _
    · refine (readWord_silent _).bind fun stake _ => ?_
      split
      · exact cautious_failed _ _
      · refine (State.account_silent _).bind fun found _ => ?_
        split
        · exact cautious_failed _ _
        · refine (State.account_silent _).bind fun contract _ => ?_
          dsimp only
          split
          · trivial
          · refine (answers_bind fun _ => answers_bind fun _ => ?_).careful
            exact answers_bind fun _ => answers_bind fun _ => answers_bind fun _ => rfl

theorem viewTransaction_cautious : Cautious (viewTransaction tx cost) := by
  unfold viewTransaction
  split
  · exact cautious_failed _ _
  · refine (view_silent _).bind fun answer _ => ?_
    split
    · exact careful_pure (.inl rfl)
    · exact cautious_failed _ _

theorem execute_cautious (block : Block) (tx : Transaction) : Cautious (execute block tx) := by
  unfold execute
  split
  · exact cautious_failed _ _
  · dsimp only
    split
    · exact cautious_failed _ _
    · split
      · exact stake_cautious
      · exact unstake_cautious
      · exact viewTransaction_cautious
      · exact viewTransaction_cautious
      · exact cautious_failed _ _

end Staking

/-! ## The transfer backend -/

namespace HostProgram

variable {α β : Type} {P : α → Prop} {P' : β → Prop}

/-- Whatever the host says, what comes out is of the kind. -/
def Answers (P : α → Prop) : HostProgram α → Prop
  | done a => P a
  | fail _ => True
  | ask _ next => ∀ answer, (next answer).Answers P

theorem answers_bind {p : HostProgram α} {g : α → HostProgram β} (next : ∀ a, (g a).Answers P') :
    (p >>= g).Answers P' := by
  change (p.bind g).Answers P'
  induction p with
  | done a => exact next a
  | fail fault => trivial
  | ask q _ ih => exact fun answer => ih answer

end HostProgram

namespace Transfer

open HostProgram (answers_bind)

/-- A call that succeeded, or one that changed nothing and put nothing out. -/
def Clean (outcome : CallOutcome) : Prop :=
  outcome.status = .success ∨ outcome.changes = none ∧ outcome.output = [] ∧ outcome.created = none

theorem finish_clean (request : CallRequest) (destination : Address) (gasLeft : UInt64) (output : Bytes) :
    (finish request destination gasLeft output).Answers Clean := by
  unfold finish
  split
  · exact answers_bind fun _ => .inl rfl
  · exact answers_bind fun _ => .inl rfl

theorem create_clean (request : CallRequest) (gasLeft : UInt64) :
    (create request gasLeft).Answers Clean := by
  unfold create
  refine answers_bind fun code => ?_
  split
  · exact .inr ⟨rfl, rfl, rfl⟩
  · refine answers_bind fun count => ?_
    split
    · trivial
    · exact answers_bind fun _ => answers_bind fun _ => .inl rfl

theorem callAddress_clean (request : CallRequest) (destination : Address) (gasLeft : UInt64) :
    (callAddress request destination gasLeft).Answers Clean := by
  unfold callAddress
  refine answers_bind fun call => ?_
  split
  · exact finish_clean _ _ _ _
  · exact .inr ⟨rfl, rfl, rfl⟩
  · exact .inr ⟨rfl, rfl, rfl⟩
  · exact finish_clean _ _ _ _

theorem backend_clean (request : CallRequest) : (backend request).Answers Clean := by
  unfold backend
  split
  · exact .inr ⟨rfl, rfl, rfl⟩
  · split
    · exact .inr ⟨rfl, rfl, rfl⟩
    · refine answers_bind fun account => ?_
      dsimp only
      split
      · exact .inr ⟨rfl, rfl, rfl⟩
      · split
        · exact create_clean _ _
        · exact callAddress_clean _ _ _

end Transfer

/-! ## Transactions -/

namespace Runner

variable {r : Runner} {hashes : BlockHashes} {block : Block} {tx : Transaction}

theorem answer_silent (staking : r.contracts.OnlyStaking) (q : Query) :
    (r.answer hashes q).Silent fun _ => True := by
  cases q with
  | counter first => exact State.counter_silent first
  | account address => exact State.account_silent address
  | code address => exact State.code_silent address
  | storage sequence slot => exact silent_look _
  | blockHash number => exact careful_pure (.inr trivial)
  | precompile address input gasLeft =>
    refine (silent_ofExcept _).bind fun call _ => ?_
    split
    · exact careful_pure (.inr trivial)
    · unfold ContractTable.callAsPrecompile
      split
      · exact careful_pure (.inr trivial)
      next contract hcontract =>
        obtain ⟨-, rfl⟩ := staking address contract hcontract
        dsimp only
        split
        · exact careful_pure (.inr trivial)
        · exact (Staking.view_silent input).bind fun _ _ => careful_pure (.inr trivial)

theorem serve_silent {α : Type} {P : α → Prop} (staking : r.contracts.OnlyStaking) {p : HostProgram α}
    (h : p.Answers P) : (r.serve hashes p).Silent fun out => P out.1 := by
  induction p with
  | done a => exact careful_pure (.inr h)
  | fail fault => trivial
  | ask q next ih =>
    refine (answer_silent staking q).bind fun a _ => ?_
    exact (ih a (h a)).bind fun out hout => careful_pure (.inr hout)

theorem callBackend_silent (backend : r.backend = Transfer.backend) (staking : r.contracts.OnlyStaking)
    (request : CallRequest) : (r.callBackend hashes request).Silent fun out => Transfer.Clean out.1 := by
  refine (serve_silent staking ?_).bind fun out hout => careful_pure (.inr hout)
  rw [backend]
  exact Transfer.backend_clean request

/-- The writes that set one account and no more. -/
def accountWrites (address : Address) (account : Account) : Writes :=
  (∅ : Writes).insert (Key.account address).bytes (some account.encode)

theorem insert_accountWrites (address : Address) (account account' : Account) :
    (accountWrites address account).insert (Key.account address).bytes (some account'.encode)
      = accountWrites address account' := by
  refine Std.ExtTreeMap.ext_getElem? fun key => ?_
  simp only [accountWrites, Std.ExtTreeMap.getElem?_insert]
  split <;> rfl

theorem accountsIn_of_accountWrites {f : Contents} {o : Overlay} {address : Address} {account : Account}
    (h : o.writes = accountWrites address account) :
    State.accountsIn (o.atop f) address = some account := by
  have hatop : o.atop f = f.put (Key.account address).bytes (some account.encode) := by
    funext key
    simp only [Overlay.atop, h, accountWrites, Contents.put, Std.ExtTreeMap.getElem?_insert,
      Std.LawfulEqCmp.compare_eq_iff_eq]
    split <;> simp
  rw [hatop, State.accountsIn_put, Accounts.set_same]

theorem addCapped_zero (amount : Word) : amount.addCapped 0 = amount := by
  have hfits : amount.uaddOverflow 0 = false := by simp [BitVec.uaddOverflow, amount.isLt]
  rw [BitVec.addCapped, hfits, if_neg Bool.false_ne_true]
  exact BitVec.add_zero amount

/-- The fee for unused gas is put on what is written of the sender. -/
theorem creditUnused_writes {f : Contents} {o o' : Overlay} {account : Account} {gasUsed : UInt64}
    {refund : Word} (h : (creditUnused tx gasUsed).above f o = .ok refund o')
    (hwrites : o.writes = accountWrites tx.sender account) :
    o'.writes = accountWrites tx.sender { account with balance := account.balance.addCapped refund } := by
  unfold creditUnused at h
  dsimp only at h
  split at h
  next hzero =>
    obtain ⟨rfl, rfl⟩ := pure_ok.1 h
    rw [hwrites, hzero, addCapped_zero]
  next =>
    obtain ⟨found, o₁, hfound, hpaid⟩ := above_bind_ok.1 h
    obtain ⟨-, hsame⟩ := (State.account_silent tx.sender).above hfound
    obtain ⟨haccount, -⟩ := State.account_ok (eval_of_above hfound)
    rw [accountsIn_of_accountWrites hwrites] at haccount
    subst haccount
    obtain ⟨_, o₂, hset, hdone⟩ := above_bind_ok.1 hpaid
    obtain ⟨rfl, rfl⟩ := pure_ok.1 hdone
    cases hset
    change o₁.writes.insert _ _ = _
    rw [hsame, hwrites, insert_accountWrites]
    rfl

/-- A result without logs, calls, output and contract. -/
structure Bare (result : CommittedResult) : Prop where
  logs : result.logs = []
  calls : result.calls = []
  returns : result.returns = []
  output : result.output = []
  contract : result.contract = none

/-- A run with a status of its own. It succeeded, or its overlay sets the sender's account and no more,
which is as it was before but for the fee for unused gas. -/
structure Traceless (sender : Address) (account : Account) (result : CommittedResult) (o : Overlay) :
    Prop where
  unassigned : result.status.isEngineAssigned = false
  trace : result.status = .success ∨ Bare result ∧
    o.writes = accountWrites sender { account with balance := account.balance.addCapped result.feeRefund }

section

variable {f : Contents} {o o' : Overlay} {account : Account}
  (hwrites : o.writes = accountWrites tx.sender account)

include hwrites

theorem runOnContract_traceless {result : CommittedResult}
    (h : (runOnContract Staking.contract block tx).above f o = .ok result o') :
    Traceless tx.sender account result o' := by
  have hsome : (State.accountsIn (o.atop f) tx.sender).isSome := by
    rw [accountsIn_of_accountWrites hwrites]
    rfl
  refine ⟨(runOnContract_ok hsome (eval_of_above h)).assigned, ?_⟩
  obtain ⟨outcome, o₁, hexecute, hcrediting⟩ := above_bind_ok.1 h
  obtain ⟨refund, o₂, hcredit, hdone⟩ := above_bind_ok.1 hcrediting
  obtain ⟨rfl, rfl⟩ := pure_ok.1 hdone
  rcases (Staking.execute_cautious block tx).above hexecute with hsuccess | ⟨⟨houtput, hlogs⟩, hsame⟩
  · exact .inl hsuccess
  · exact .inr ⟨⟨hlogs, rfl, rfl, houtput, rfl⟩, creditUnused_writes hcredit (hsame.trans hwrites)⟩

theorem runOnBackend_traceless (backend : r.backend = Transfer.backend)
    (staking : r.contracts.OnlyStaking) {out : CommittedResult × Conversation}
    (h : (r.runOnBackend hashes block tx).above f o = .ok out o') :
    Traceless tx.sender account out.1 o' := by
  refine ⟨(runOnBackend_ok backend staking (eval_of_above h)).assigned, ?_⟩
  obtain ⟨⟨outcome, conversation⟩, o₁, hcall, happlying⟩ := above_bind_ok.1 h
  obtain ⟨hclean, hsame⟩ := (callBackend_silent backend staking _).above hcall
  obtain ⟨_, o₂, happly, hcrediting⟩ := above_bind_ok.1 happlying
  obtain ⟨refund, o₃, hcredit, hdone⟩ := above_bind_ok.1 hcrediting
  obtain ⟨rfl, rfl⟩ := pure_ok.1 hdone
  rcases hclean with hsuccess | ⟨hchanges, houtput, hcreated⟩
  · exact .inl hsuccess
  · dsimp only at hchanges houtput hcreated
    rw [hchanges] at happly
    cases happly
    exact .inr ⟨⟨by rw [hchanges]; rfl, by rw [hchanges]; rfl, by rw [hchanges]; rfl, houtput, hcreated⟩,
      creditUnused_writes hcredit (hsame.trans hwrites)⟩

end

/-- A transaction is turned away and writes nothing, or it has used its nonce and leaves no other
trace when it fails. -/
theorem execute_traceless {f : Contents} {o : Overlay} (backend : r.backend = Transfer.backend)
    (staking : r.contracts.OnlyStaking) {out : CommittedResult × List Conversation}
    (h : (r.execute hashes block tx).above f {} = .ok out o) :
    (∃ mismatch : NonceMismatch, out.1 = .terminal tx mismatch.status ∧ o.writes = ∅) ∨
      ∃ account nonce, State.accountsIn f tx.sender = some account ∧
        nonce.toNat = account.nonce.toNat + 1 ∧ Traceless tx.sender { account with nonce } out.1 o := by
  obtain ⟨checked, o₁, hcheck, hchecked⟩ := above_bind_ok.1 h
  obtain ⟨-, hempty⟩ := (State.checkNonce_silent tx.sender tx.nonce).above hcheck
  have heval := eval_of_above hcheck
  rw [Overlay.atop_empty] at heval
  obtain ⟨-, hfits⟩ := State.checkNonce_ok heval
  cases checked with
  | error mismatch =>
    obtain ⟨rfl, rfl⟩ := pure_ok.1 hchecked
    exact .inl ⟨mismatch, rfl, hempty⟩
  | ok account =>
    obtain ⟨nonce, o₂, hadd, hsetting⟩ := above_bind_ok.1 hchecked
    obtain ⟨hnonce, -⟩ := eval_orFail_ok.1 (eval_of_above hadd)
    obtain ⟨-, hstill⟩ := (silent_orFail _ _).above hadd
    obtain ⟨_, o₃, hset, hrunning⟩ := above_bind_ok.1 hsetting
    cases hset
    have hwrites : (o₂.write (Key.account tx.sender).bytes (some (Account.encode { account with nonce }))).writes
        = accountWrites tx.sender { account with nonce } := by
      rw [Overlay.write, hstill, hempty]
      rfl
    have hnext : nonce.toNat = account.nonce.toNat + 1 := by
      unfold UInt64.add? at hnonce
      split at hnonce
      next hsmall =>
        cases hnonce
        exact UInt64.toNat_add_ofNat hsmall
      next => cases hnonce
    refine .inr ⟨account, nonce, hfits.1, hnext, ?_⟩
    split at hrunning
    next contract hcontract =>
      obtain rfl := staking.at? hcontract
      obtain ⟨result, o₄, hrun, hdone⟩ := above_bind_ok.1 hrunning
      obtain ⟨rfl, rfl⟩ := pure_ok.1 hdone
      exact runOnContract_traceless hwrites hrun
    next =>
      obtain ⟨⟨result, conversation⟩, o₄, hrun, hdone⟩ := above_bind_ok.1 hrunning
      obtain ⟨rfl, rfl⟩ := pure_ok.1 hdone
      exact runOnBackend_traceless hwrites backend staking hrun

/-- The statuses of transactions that are not run. -/
def turnedAway : List Status := [.tooOld, .accountNotExist, .nonceTooSmall, .nonceTooLarge]

theorem status_mem_turnedAway (mismatch : NonceMismatch) : mismatch.status ∈ turnedAway := by
  cases mismatch <;> decide

theorem assigned_of_turnedAway : ∀ status ∈ turnedAway, status.isEngineAssigned = true := by decide

/-- A transaction that is turned away writes nothing and costs nothing. One that fails otherwise
writes its sender's account only, with the nonce used and the fee for unused gas added, and reports
no logs, calls, output or contract. -/
theorem failure_traceless (backend : r.backend = Transfer.backend) (staking : r.contracts.OnlyStaking)
    {n m : Node} {result : CommittedResult} {o : Overlay}
    (h : r.runTransaction block tx n = .ok (result, o) m) :
    (result.status ∈ turnedAway → o.writes = ∅ ∧ result.gasUsed = 0 ∧ result.feeRefund = 0) ∧
    (result.status ∉ turnedAway → result.status ≠ .success →
      ∃ account nonce, State.accountsIn n.view.contents tx.sender = some account ∧
        nonce.toNat = account.nonce.toNat + 1 ∧
        o.writes = accountWrites tx.sender
          { account with nonce, balance := account.balance.addCapped result.feeRefund } ∧
        Bare result) := by
  obtain ⟨⟨conversations, htrial⟩, -⟩ := runTransaction_ok h
  unfold trial at htrial
  split at htrial
  next =>
    cases htrial
    exact ⟨fun _ => ⟨rfl, rfl, rfl⟩, fun hran => absurd (by decide : Status.tooOld ∈ turnedAway) hran⟩
  next =>
    obtain ⟨mismatch, hresult, hwrites⟩ | ⟨account, nonce, haccount, hnonce, htraceless⟩ :=
      execute_traceless backend staking htrial
    · dsimp only at hresult
      subst hresult
      exact ⟨fun _ => ⟨hwrites, rfl, rfl⟩, fun hran => absurd (status_mem_turnedAway mismatch) hran⟩
    · refine ⟨fun hturned => ?_, fun _ hfails => ?_⟩
      · have hassigned := assigned_of_turnedAway _ hturned
        rw [htraceless.unassigned] at hassigned
        cases hassigned
      · obtain ⟨hbare, hwrites⟩ := htraceless.trace.resolve_left hfails
        exact ⟨account, nonce, haccount, hnonce, hwrites, hbare⟩

/-- A stake of more than the sender has. -/
def overdrawnStake : Transaction :=
  { Rounds.transfer 0 with
    destination := some Staking.address, data := [0x3a, 0x4b, 0x66, 0xf1], value := 2000000 }

theorem overdrawnStake_traceless :
    (∃ result o m, Rounds.stakingRunner.runTransaction {} overdrawnStake (Rounds.twoTransfers 0)
        = .ok (result, o) m ∧ result.status = .insufficientBalance ∧
      o.writes = accountWrites 1 { balance := 1059000, nonce := 1 } ∧ Bare result) ∧
    ∃ result o m, Rounds.stakingRunner.runTransaction {} (Rounds.transfer 5) (Rounds.twoTransfers 0)
        = .ok (result, o) m ∧ result.status = .nonceTooLarge ∧
      o.writes = ∅ ∧ result.gasUsed = 0 ∧ result.feeRefund = 0 := by
  have staking : Rounds.stakingRunner.contracts.OnlyStaking := ContractTable.onlyStaking_insert
  constructor
  · have hends : endsWith (Rounds.stakingRunner.runTransaction {} overdrawnStake (Rounds.twoTransfers 0))
        (fun out _ => out.1.status = .insufficientBalance ∧ out.1.feeRefund = 59000) = true := by
      decide +kernel
    obtain ⟨⟨result, o⟩, m, h, htest⟩ := endsWith_iff.1 hends
    obtain ⟨hstatus, hrefund⟩ : result.status = .insufficientBalance ∧ result.feeRefund = 59000 :=
      of_decide_eq_true htest
    obtain ⟨account, nonce, haccount, hnonce, hwrites, hbare⟩ :=
      (failure_traceless rfl staking h).2 (by rw [hstatus]; decide) (by rw [hstatus]; decide)
    have hfound : State.accountsIn (Rounds.twoTransfers 0).view.contents 1 = some { balance := 1000000 } := by
      decide +kernel
    obtain rfl := Option.some.inj (haccount.symm.trans hfound)
    obtain rfl : nonce = 1 := UInt64.toNat_inj.1 hnonce
    rw [hrefund] at hwrites
    exact ⟨result, o, m, h, hstatus, hwrites, hbare⟩
  · have hends : endsWith (Rounds.stakingRunner.runTransaction {} (Rounds.transfer 5) (Rounds.twoTransfers 0))
        (fun out _ => out.1.status = .nonceTooLarge) = true := by
      decide +kernel
    obtain ⟨⟨result, o⟩, m, h, htest⟩ := endsWith_iff.1 hends
    have hstatus : result.status = .nonceTooLarge := of_decide_eq_true htest
    obtain ⟨hwrites, hgas, hrefund⟩ := (failure_traceless rfl staking h).1 (by rw [hstatus]; decide)
    exact ⟨result, o, m, h, hstatus, hwrites, hgas, hrefund⟩

end Runner

end RoundLedger
