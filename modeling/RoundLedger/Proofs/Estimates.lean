import RoundLedger.Proofs.Failures
import RoundLedger.Proofs.Metering
import RoundLedger.Proofs.Simulation

/-!
# Estimates

The estimate of a call that succeeds is the price of the call: the price of the request before it does
anything, with that of a precompile at its destination, or the price of an operation on stakes. Under a limit
that covers the estimate the call succeeds again and answers the same, and under each other limit it runs out
of gas.
-/

namespace RoundLedger

open Program Step

/-! ## Precompiles -/

theorem PrecompileCall.exists_returned {call : PrecompileCall} (h : call.isSuccess = true) :
    ∃ left output, call = .returned left output := by
  cases call with
  | outOfGas => cases h
  | failed left => cases h
  | returned left output => exact ⟨left, output, rfl⟩

namespace Dispatches

variable {dispatch : UInt64 → Program (Option PrecompileCall)} {price : Nat} {run : Program (Option Bytes)}
  {gas : UInt64} {call : PrecompileCall}

/-- A dispatch that is over at once has run something that is. -/
theorem answered (h : Dispatches dispatch price run) (hpaid : price ≤ gas.toNat)
    (hcall : dispatch gas = pure (some call)) : ∃ answer, run = pure answer ∧ call.Charged price gas answer := by
  obtain ⟨finish, hfinish, hrun⟩ := h.paid gas hpaid
  rw [hcall] at hrun
  cases run with
  | done answer =>
    injection hrun with hrun
    injection hrun with hrun
    exact ⟨answer, rfl, hrun ▸ hfinish answer⟩
  | fail fault => cases hrun
  | get key next => cases hrun
  | put key value next => cases hrun

theorem answers {answer : Option Bytes} (h : Dispatches dispatch price (pure answer)) (hpaid : price ≤ gas.toNat) :
    ∃ call, dispatch gas = pure (some call) ∧ call.Charged price gas answer := by
  obtain ⟨finish, hfinish, hrun⟩ := h.paid gas hpaid
  exact ⟨finish answer, hrun, hfinish answer⟩

end Dispatches

namespace PrecompileTable

variable {t : PrecompileTable} {address : Address} {input : Bytes}

/-- A call that returned returns the same on all gas that covers its price, and runs out of less. -/
theorem Metered.returns_again (metered : t.Metered) {gas left : UInt64} {output : BoundedOutput 256}
    (h : t.call address input gas = .ok (some (.returned left output))) :
    ∃ price : Nat, left.toNat + price = gas.toNat ∧ ∀ other : UInt64,
      (other.toNat < price → t.call address input other = .ok (some .outOfGas)) ∧
      (price ≤ other.toNat → ∃ left' output', t.call address input other = .ok (some (.returned left' output')) ∧
        left'.toNat + price = other.toNat ∧ output'.kept = output.kept) := by
  have hcontains : t.contains address = true := by
    rw [← Bool.not_eq_false, ← call_eq_none_iff metered gas, h]
    nofun
  obtain ⟨price, run, hpriced⟩ := metered.priced hcontains input
  have hdispatches := hpriced.dispatches
  have hlift {x y : Except Fault (Option PrecompileCall)} (heq : Program.ofExcept x = Program.ofExcept y) :
      x = y := by
    cases x <;> cases y <;> cases heq <;> rfl
  have hcall : Program.ofExcept (t.call address input gas) = pure (some (.returned left output)) := by
    rw [h]
    rfl
  have hpaid : price ≤ gas.toNat := by
    by_contra hshort
    rw [hdispatches.short gas (Nat.not_le.1 hshort)] at hcall
    cases hcall
  obtain ⟨answer, rfl, hcharged⟩ := hdispatches.answered hpaid hcall
  refine ⟨price, hcharged.gasLeft, fun other => ⟨fun hshort => hlift (hdispatches.short other hshort), ?_⟩⟩
  intro hcovers
  obtain ⟨call, hagain, hcharged'⟩ := hdispatches.answers hcovers
  obtain ⟨left', output', rfl⟩ : ∃ left' output', call = .returned left' output' :=
    PrecompileCall.exists_returned (hcharged'.success.trans hcharged.success.symm)
  exact ⟨left', output', hlift hagain, hcharged'.gasLeft, hcharged'.kept.trans hcharged.kept.symm⟩

end PrecompileTable

/-! ## The host -/

namespace Runner

variable {r : Runner} {hashes : BlockHashes} {f : Contents} {α β : Type}

theorem answer_precompile {destination : Address} (h : r.contracts[destination]? = none) (input : Bytes)
    (gas : UInt64) : r.answer hashes (.precompile destination input gas)
      = Program.ofExcept (r.precompiles.call destination input gas) := by
  have hnested := (ContractTable.callAsPrecompile_eq_none_iff r.contracts destination input gas).2 h
  unfold answer
  dsimp only
  rw [hnested]
  cases r.precompiles.call destination input gas with
  | error fault => rfl
  | ok call =>
    cases call with
    | none => rfl
    | some call => rfl

theorem yields_precompile {destination : Address} (h : r.contracts[destination]? = none) {input : Bytes}
    {gas : UInt64} {call : Option PrecompileCall} :
    r.Yields hashes f (HostProgram.query (.precompile destination input gas)) call ↔
      r.precompiles.call destination input gas = .ok call := by
  rw [yields_query, answer_precompile h, eval_ofExcept_ok]
  exact and_iff_left rfl

/-- What a backend may answer, it does answer. -/
theorem serve_returns {p : HostProgram α} {a : α} (h : r.Yields hashes f p a) :
    ∃ exchanges, (r.serve hashes p).eval f = .ok (a, exchanges) f := by
  induction p with
  | done b =>
    cases h
    exact ⟨[], rfl⟩
  | fail fault => exact h.elim
  | ask q next ih =>
    obtain ⟨answer, hanswer, hnext⟩ := h
    obtain ⟨exchanges, hrest⟩ := ih answer hnext
    exact ⟨⟨q, answer⟩ :: exchanges, eval_bind_ok.2 ⟨answer, f, hanswer, eval_bind_ok.2 ⟨_, f, hrest, rfl⟩⟩⟩

/-- What the first program may answer, the second has a like answer to. -/
def Follows (r : Runner) (hashes : BlockHashes) (f : Contents) (R : α → α → Prop) (p p' : HostProgram α) : Prop :=
  ∀ a, r.Yields hashes f p a → ∃ b, r.Yields hashes f p' b ∧ R a b

theorem follows_pure {R : α → α → Prop} {a b : α} (h : R a b) : r.Follows hashes f R (pure a) (pure b) := by
  rintro _ ⟨⟩
  exact ⟨b, rfl, h⟩

theorem follows_bind {R : α → α → Prop} (p : HostProgram β) {g g' : β → HostProgram α}
    (next : ∀ a, r.Follows hashes f R (g a) (g' a)) : r.Follows hashes f R (p >>= g) (p >>= g') := by
  intro b h
  obtain ⟨a, hp, hg⟩ := yields_bind.1 h
  obtain ⟨b', hg', hlike⟩ := next a b hg
  exact ⟨b', yields_bind.2 ⟨a, hp, hg'⟩, hlike⟩

end Runner

/-! ## The transfer backend -/

/-- An outcome of the same call with other gas, if the call at hand is a success: it differs in what was spent. -/
def CallOutcome.Again (spent spent' : UInt64) (outcome again : CallOutcome) : Prop :=
  outcome.status = .success → again.status = .success ∧ again.output = outcome.output ∧
    again.created = outcome.created ∧ outcome.gasEstimate = spent ∧ again.gasEstimate = spent'

namespace Transfer

variable {r : Runner} {hashes : BlockHashes} {f : Contents} {request : CallRequest} {left : UInt64}
  (asked : request.estimate = true) (limit left' : UInt64)

include asked

theorem finish_follows (destination : Address) (output : Bytes) :
    r.Follows hashes f (CallOutcome.Again (request.gasLimit - left) (limit - left'))
      (finish request destination left output)
      (finish { request with gasLimit := limit } destination left' output) := by
  unfold finish
  dsimp only
  split
  · exact Runner.follows_pure fun _ => ⟨rfl, rfl, rfl, if_pos asked, if_pos asked⟩
  · apply Runner.follows_bind
    intro accounts
    exact Runner.follows_pure fun _ => ⟨rfl, rfl, rfl, if_pos asked, if_pos asked⟩

theorem create_follows :
    r.Follows hashes f (CallOutcome.Again (request.gasLimit - left) (limit - left'))
      (create request left) (create { request with gasLimit := limit } left') := by
  unfold create
  apply Runner.follows_bind
  intro code
  split
  · exact Runner.follows_pure nofun
  · apply Runner.follows_bind
    intro count
    dsimp only
    split
    · exact fun _ h => h.elim
    · apply Runner.follows_bind
      intro existing
      apply Runner.follows_bind
      intro payer
      exact Runner.follows_pure fun _ => ⟨rfl, rfl, rfl, if_pos asked, if_pos asked⟩

omit asked

/-! ### The price of a request -/

/-- A call on the gas that is left when the request has paid its own price and shown its value. -/
def rest (request : CallRequest) (left : UInt64) : HostProgram CallOutcome :=
  match request.destination with
  | none => create request left
  | some destination => callAddress request destination left

theorem yields_short {intrinsic : UInt64}
    (hintrinsic : intrinsicGas? request.input request.destination.isNone = some intrinsic)
    (hshort : request.gasLimit < intrinsic) :
    r.Yields hashes f (backend request) { status := .outOfGas, gasLeft := 0 } := by
  unfold backend
  rw [hintrinsic]
  dsimp only
  rw [if_pos hshort]
  exact Runner.yields_pure.2 rfl

theorem yields_rest {intrinsic : UInt64} {account : Option Account} {outcome : CallOutcome}
    (hintrinsic : intrinsicGas? request.input request.destination.isNone = some intrinsic)
    (henough : intrinsic ≤ request.gasLimit)
    (haccount : r.Yields hashes f (HostProgram.query (.account request.sender)) account)
    (hbalance : ¬ account.elim 0 Account.balance < request.value)
    (h : r.Yields hashes f (rest request (request.gasLimit - intrinsic)) outcome) :
    r.Yields hashes f (backend request) outcome := by
  unfold backend
  rw [hintrinsic]
  dsimp only
  rw [if_neg (UInt64.not_lt.2 henough)]
  refine Runner.yields_bind.2 ⟨account, haccount, ?_⟩
  rw [if_neg hbalance]
  exact h

/-- A call that succeeded has come to its rest. -/
theorem backend_rest {outcome : CallOutcome} (success : outcome.status = .success)
    (h : r.Yields hashes f (backend request) outcome) :
    ∃ intrinsic account, intrinsicGas? request.input request.destination.isNone = some intrinsic ∧
      intrinsic ≤ request.gasLimit ∧ r.Yields hashes f (HostProgram.query (.account request.sender)) account ∧
      ¬ account.elim 0 Account.balance < request.value ∧
      r.Yields hashes f (rest request (request.gasLimit - intrinsic)) outcome := by
  unfold backend at h
  split at h
  next =>
    obtain rfl := Runner.yields_pure.1 h
    cases success
  next intrinsic hintrinsic =>
    split at h
    next =>
      obtain rfl := Runner.yields_pure.1 h
      cases success
    next henough =>
      obtain ⟨account, haccount, hfunded⟩ := Runner.yields_bind.1 h
      dsimp only at hfunded
      split at hfunded
      next =>
        obtain rfl := Runner.yields_pure.1 hfunded
        cases success
      next hbalance =>
        exact ⟨intrinsic, account, hintrinsic, UInt64.not_lt.1 henough, haccount, hbalance, hfunded⟩

/-! ### The price of a call -/

/-- A call that succeeded had a price, which the gas it was left with covers. It is a family of programs, by
the limit and by the gas that is left of it. -/
structure Priced (r : Runner) (hashes : BlockHashes) (f : Contents) (call : UInt64 → UInt64 → HostProgram CallOutcome)
    (limit left : UInt64) (outcome : CallOutcome) (price : Nat) : Prop where
  estimate : ∃ kept : UInt64, kept.toNat + price = left.toNat ∧ outcome.gasEstimate = limit - kept
  short : ∀ limit' left' : UInt64, left'.toNat < price →
    ∃ again, r.Yields hashes f (call limit' left') again ∧ again.status = .outOfGas
  covered : ∀ limit' left' : UInt64, price ≤ left'.toNat → ∃ again, r.Yields hashes f (call limit' left') again ∧
    again.status = .success ∧ again.output = outcome.output ∧ again.created = outcome.created ∧
    ∃ kept : UInt64, kept.toNat + price = left'.toNat ∧ again.gasEstimate = limit' - kept

include asked

variable {outcome : CallOutcome} (success : outcome.status = .success)

include success

/-- A creation costs nothing but the price that each request has. -/
theorem create_priced (h : r.Yields hashes f (create request left) outcome) :
    Priced r hashes f (fun limit => create { request with gasLimit := limit }) request.gasLimit left outcome 0 := by
  constructor
  case estimate =>
    obtain ⟨_, _, hlike⟩ := create_follows asked request.gasLimit left outcome h
    obtain ⟨-, -, -, hestimate, -⟩ := hlike success
    exact ⟨left, rfl, hestimate⟩
  case short =>
    intro _ _ hshort
    exact absurd hshort (Nat.not_lt_zero _)
  case covered =>
    intro limit' left' _
    obtain ⟨again, hagain, hlike⟩ := create_follows asked limit' left' outcome h
    obtain ⟨hstatus, houtput, hcreated, -, hestimate⟩ := hlike success
    exact ⟨again, hagain, hstatus, houtput, hcreated, left', rfl, hestimate⟩

omit asked in
/-- A call that succeeded went on with what the precompile at its destination left, or with all gas where there is
none. With other gas it goes on in the same way, or runs out at the precompile. -/
theorem callAddress_paid (metered : r.precompiles.Metered) {destination : Address}
    (hcontract : r.contracts[destination]? = none)
    (h : r.Yields hashes f (callAddress request destination left) outcome) :
    ∃ (price : Nat) (kept : UInt64) (output : Bytes), kept.toNat + price = left.toNat ∧
      r.Yields hashes f (finish request destination kept output) outcome ∧ ∀ limit' left' : UInt64,
        (left'.toNat < price → ∃ again,
          r.Yields hashes f (callAddress { request with gasLimit := limit' } destination left') again ∧
            again.status = .outOfGas) ∧
        (price ≤ left'.toNat → ∃ kept' : UInt64, kept'.toNat + price = left'.toNat ∧ ∀ again,
          r.Yields hashes f (finish { request with gasLimit := limit' } destination kept' output) again →
            r.Yields hashes f (callAddress { request with gasLimit := limit' } destination left') again) := by
  unfold callAddress at h ⊢
  obtain ⟨call, hcall, hcalled⟩ := Runner.yields_bind.1 h
  rw [Runner.yields_precompile hcontract] at hcall
  split at hcalled
  next =>
    -- Where no precompile is, no gas finds one.
    have habsent := (PrecompileTable.call_eq_none_iff metered left).1 hcall
    refine ⟨0, left, [], rfl, hcalled, fun limit' left' => ⟨fun hshort => absurd hshort (Nat.not_lt_zero _), ?_⟩⟩
    intro _
    refine ⟨left', rfl, fun again hagain => Runner.yields_bind.2 ⟨none, ?_, hagain⟩⟩
    exact (Runner.yields_precompile hcontract).2 ((PrecompileTable.call_eq_none_iff metered left').2 habsent)
  next =>
    obtain rfl := Runner.yields_pure.1 hcalled
    cases success
  next =>
    obtain rfl := Runner.yields_pure.1 hcalled
    cases success
  next kept output =>
    obtain ⟨price, hkept, hother⟩ := metered.returns_again hcall
    refine ⟨price, kept, output.kept, hkept, hcalled, fun limit' left' => ⟨fun hshort => ?_, fun hcovers => ?_⟩⟩
    · refine ⟨_, Runner.yields_bind.2 ⟨some .outOfGas, ?_, Runner.yields_pure.2 rfl⟩, rfl⟩
      exact (Runner.yields_precompile hcontract).2 ((hother left').1 hshort)
    · obtain ⟨kept', output', hcall', hkept', houtput⟩ := (hother left').2 hcovers
      refine ⟨kept', hkept', fun again hagain => Runner.yields_bind.2 ⟨some (.returned kept' output'), ?_, ?_⟩⟩
      · exact (Runner.yields_precompile hcontract).2 hcall'
      · dsimp only
        rw [houtput]
        exact hagain

theorem callAddress_priced (metered : r.precompiles.Metered) {destination : Address}
    (hcontract : r.contracts[destination]? = none)
    (h : r.Yields hashes f (callAddress request destination left) outcome) :
    ∃ price, Priced r hashes f (fun limit => callAddress { request with gasLimit := limit } destination)
      request.gasLimit left outcome price := by
  obtain ⟨price, kept, output, hkept, hfinish, hother⟩ := callAddress_paid success metered hcontract h
  refine ⟨price, ?estimate, fun limit' left' => (hother limit' left').1, ?covered⟩
  case estimate =>
    obtain ⟨_, _, hlike⟩ := finish_follows asked request.gasLimit kept destination output outcome hfinish
    obtain ⟨-, -, -, hestimate, -⟩ := hlike success
    exact ⟨kept, hkept, hestimate⟩
  case covered =>
    intro limit' left' hcovers
    obtain ⟨kept', hkept', hcall⟩ := (hother limit' left').2 hcovers
    obtain ⟨again, hagain, hlike⟩ := finish_follows asked limit' kept' destination output outcome hfinish
    obtain ⟨hstatus, houtput, hcreated, -, hestimate⟩ := hlike success
    exact ⟨again, hcall again hagain, hstatus, houtput, hcreated, kept', hkept', hestimate⟩

theorem rest_priced (metered : r.precompiles.Metered) (hcontract : r.contracts.at? request.destination = none)
    (h : r.Yields hashes f (rest request left) outcome) :
    ∃ price, Priced r hashes f (fun limit => rest { request with gasLimit := limit }) request.gasLimit left outcome
      price := by
  cases request with
  | mk sender destination nonce value gasPrice gasLimit input block revision estimate =>
    cases destination with
    | none => exact ⟨0, create_priced asked success h⟩
    | some destination => exact callAddress_priced asked success metered hcontract h

omit asked success

theorem toNat_spent {limit intrinsic kept : UInt64} {price : Nat} (hle : intrinsic ≤ limit)
    (hkept : kept.toNat + price = (limit - intrinsic).toNat) :
    (limit - kept).toNat = intrinsic.toNat + price := by
  have hintrinsic := UInt64.le_iff_toNat_le.1 hle
  rw [UInt64.toNat_sub_of_le _ _ hle] at hkept
  rw [UInt64.toNat_sub_of_le _ _ (UInt64.le_iff_toNat_le.2 (by omega))]
  omega

include asked success

/-- The estimate of a call is what the call needs, no more and no less. -/
theorem backend_estimate (metered : r.precompiles.Metered) (hcontract : r.contracts.at? request.destination = none)
    (h : r.Yields hashes f (backend request) outcome) (limit : UInt64) :
    ∃ again, r.Yields hashes f (backend { request with gasLimit := limit }) again ∧
      (outcome.gasEstimate ≤ limit → again.status = .success ∧ again.output = outcome.output ∧
        again.created = outcome.created ∧ again.gasEstimate = outcome.gasEstimate) ∧
      (limit < outcome.gasEstimate → again.status = .outOfGas) := by
  obtain ⟨intrinsic, account, hintrinsic, henough, haccount, hbalance, hrest⟩ := backend_rest success h
  obtain ⟨price, ⟨kept, hkept, hestimate⟩, hshort, hcovered⟩ := rest_priced asked success metered hcontract hrest
  have hneed : outcome.gasEstimate.toNat = intrinsic.toNat + price := by
    rw [hestimate]
    exact toNat_spent henough hkept
  rw [UInt64.le_iff_toNat_le, UInt64.lt_iff_toNat_lt, hneed]
  obtain hbelow | hle := UInt64.lt_or_le limit intrinsic
  · refine ⟨_, yields_short hintrinsic hbelow, fun hcovers => ?_, fun _ => rfl⟩
    rw [UInt64.lt_iff_toNat_lt] at hbelow
    omega
  have hleft := UInt64.toNat_sub_of_le _ _ hle
  have hle' := UInt64.le_iff_toNat_le.1 hle
  obtain hlack | hcovers := Nat.lt_or_ge (limit - intrinsic).toNat price
  · obtain ⟨again, hagain, hstatus⟩ := hshort limit (limit - intrinsic) hlack
    exact ⟨again, yields_rest hintrinsic hle haccount hbalance hagain, fun _ => by omega, fun _ => hstatus⟩
  · obtain ⟨again, hagain, hstatus, houtput, hcreated, kept', hkept', hestimate'⟩ :=
      hcovered limit (limit - intrinsic) hcovers
    refine ⟨again, yields_rest hintrinsic hle haccount hbalance hagain, fun _ => ?_, fun _ => by omega⟩
    refine ⟨hstatus, houtput, hcreated, UInt64.toNat_inj.1 ?_⟩
    rw [hestimate', hneed]
    exact toNat_spent hle hkept'

end Transfer

/-! ## The staking contract -/

theorem Program.Answers.eval {α : Type} {P : α → Prop} {p : Program α} (h : p.Answers P) {f g : Contents} {a : α}
    (hrun : p.eval f = .ok a g) : P a := by
  induction p generalizing f with
  | done b =>
    obtain ⟨rfl, -⟩ := eval_pure_ok.1 hrun
    exact h
  | fail fault => exact absurd hrun throw_ok
  | get key next ih => exact ih (f key) (h (f key)) hrun
  | put key value next ih => exact ih h hrun

namespace Staking

/-- An operation once its price is paid. -/
def perform (tx : Transaction) (selector : Selector) : Program SystemOutcome :=
  match selector with
  | .stake => stake tx (baseGas + selector.gas)
  | .unstake => unstake tx (baseGas + selector.gas)
  | .stakeOf | .totalStaked => viewTransaction tx (baseGas + selector.gas)
  | .unknown => return failed .revert (baseGas + selector.gas)

theorem execute_eq (block : Block) (tx : Transaction) :
    execute block tx = match selector? tx.data with
      | none => return failed .revert (min baseGas tx.gasLimit)
      | some selector =>
        if tx.gasLimit < baseGas + selector.gas then return failed .outOfGas tx.gasLimit
        else perform tx selector := by
  unfold execute
  cases selector? tx.data with
  | none => rfl
  | some selector => cases selector <;> rfl

theorem stake_charges (tx : Transaction) (cost : UInt64) : (stake tx cost).Answers (·.gasUsed = cost) := by
  unfold stake
  split
  · rfl
  · apply answers_bind
    intro sender
    split
    · rfl
    · split
      · rfl
      · iterate 7 refine answers_bind fun _ => ?_
        rfl

theorem unstake_charges (tx : Transaction) (cost : UInt64) : (unstake tx cost).Answers (·.gasUsed = cost) := by
  unfold unstake
  split
  · rfl
  · split
    · rfl
    · apply answers_bind
      intro stake
      split
      · rfl
      · apply answers_bind
        intro sender
        split
        · rfl
        · apply answers_bind
          intro contract
          dsimp only
          split
          · trivial
          · iterate 5 refine answers_bind fun _ => ?_
            rfl

theorem viewTransaction_charges (tx : Transaction) (cost : UInt64) :
    (viewTransaction tx cost).Answers (·.gasUsed = cost) := by
  unfold viewTransaction
  split
  · rfl
  · apply answers_bind
    intro answer
    split
    · rfl
    · rfl

/-- An operation costs its price, whatever it comes to. -/
theorem perform_charges (tx : Transaction) (selector : Selector) :
    (perform tx selector).Answers (·.gasUsed = baseGas + selector.gas) := by
  cases selector with
  | stake => exact stake_charges _ _
  | unstake => exact unstake_charges _ _
  | stakeOf => exact viewTransaction_charges _ _
  | totalStaked => exact viewTransaction_charges _ _
  | unknown => rfl

/-- A transaction that succeeded used the price of its operation. On a limit that covers it the outcome is the same,
and on each other limit it is out of gas. -/
theorem execute_again (block : Block) {tx : Transaction} {outcome : SystemOutcome} {f g : Contents}
    (h : (execute block tx).eval f = .ok outcome g) (success : outcome.status = .success) (limit : UInt64) :
    outcome.gasUsed ≤ tx.gasLimit ∧
      (outcome.gasUsed ≤ limit → (execute block { tx with gasLimit := limit }).eval f = .ok outcome g) ∧
      (limit < outcome.gasUsed → (execute block { tx with gasLimit := limit }).eval f
        = .ok (failed .outOfGas limit) f) := by
  rw [execute_eq] at h ⊢
  dsimp only
  cases hselector : selector? tx.data with
  | none =>
    rw [hselector] at h
    obtain ⟨rfl, -⟩ := eval_pure_ok.1 h
    cases success
  | some selector =>
    rw [hselector] at h
    dsimp only at h ⊢
    split at h
    next =>
      obtain ⟨rfl, -⟩ := eval_pure_ok.1 h
      cases success
    next henough =>
      rw [(perform_charges tx selector).eval h]
      refine ⟨UInt64.not_lt.1 henough, fun hcovers => ?_, fun hshort => ?_⟩
      · rw [if_neg (UInt64.not_lt.2 hcovers)]
        -- no operation reads the limit
        cases selector <;> exact h
      · rw [if_pos hshort]
        rfl

end Staking

/-! ## Calls -/

/-- What an estimate promises of the same request under a limit. -/
def CallResult.Promised (answer : CallResult) (limit : UInt64) (again : CallResult) : Prop :=
  (answer.gasEstimate ≤ limit → again.status = .success ∧ again.output = answer.output ∧
      again.created = answer.created ∧ again.gasEstimate = answer.gasEstimate) ∧
    (limit < answer.gasEstimate → again.status = .outOfGas)

namespace Runner

variable {r : Runner}

/-- A call answers what its simulation comes to on the contents of the view. -/
theorem runCall_iff {request : CallRequest} {answer : CallResult} {n : Node} :
    (∃ m, r.runCall request n = .ok answer m) ↔
      ∃ conversations g, (r.simulate n.hashes request).eval n.view.contents = .ok (answer, conversations) g := by
  change (∃ m, Session.onOverlay r.precompiles.contains (r.simulate n.hashes request) (fun answer _ => answer) n
    = .ok answer m) ↔ _
  have hcall := Session.onOverlay_eval r.precompiles.contains (r.simulate n.hashes request)
    (fun answer _ => answer) n
  cases heval : (r.simulate n.hashes request).eval n.view.contents with
  | ok out g =>
    rw [heval] at hcall
    obtain ⟨_, m, hcall⟩ := hcall
    rw [hcall]
    constructor
    · rintro ⟨_, ⟨⟩⟩
      exact ⟨out.2, g, rfl⟩
    · rintro ⟨conversations, _, ⟨⟩⟩
      exact ⟨m, rfl⟩
  | error fault g =>
    rw [heval] at hcall
    obtain ⟨m, hcall⟩ := hcall
    rw [hcall]
    exact ⟨nofun, nofun⟩

variable {hashes : BlockHashes} {request : CallRequest} {answer : CallResult} {conversations : List Conversation}
  {f g : Contents}

theorem simulate_contract_returns {contract : SystemContract} {outcome : SystemOutcome}
    (hcontract : r.contracts.at? request.destination = some contract)
    (h : (contract.execute request.block (transactionOf request)).eval f = .ok outcome g) :
    (r.simulate hashes request).eval f
      = .ok ({ status := outcome.status, gasUsed := min outcome.gasUsed request.gasLimit, output := outcome.output,
               logs := outcome.logs, created := none,
               gasEstimate := if request.estimate then min outcome.gasUsed request.gasLimit else 0 }, []) g := by
  rw [simulate_contract hcontract, eval_bind, bind_of_ok h]
  rfl

theorem simulate_backend_returns {outcome : CallOutcome} (h : r.Yields hashes f (r.backend request) outcome)
    (hcontract : r.contracts.at? request.destination = none) :
    ∃ again conversations, (r.simulate hashes request).eval f = .ok (again, conversations) f ∧
      again.status = outcome.status ∧ again.output = outcome.output ∧ again.created = outcome.created ∧
      again.gasEstimate = outcome.gasEstimate := by
  obtain ⟨exchanges, hserve⟩ := serve_returns h
  have hcall : (r.callBackend hashes request).eval f = .ok (outcome, ⟨request, exchanges⟩) f :=
    eval_bind_ok.2 ⟨_, f, hserve, rfl⟩
  rw [simulate_backend hcontract, eval_bind, bind_of_ok hcall]
  exact ⟨_, _, rfl, rfl, rfl, rfl, rfl⟩

section Simulate

variable (asked : request.estimate = true)
  (h : (r.simulate hashes request).eval f = .ok (answer, conversations) g) (success : answer.status = .success)
  (limit : UInt64)

include asked h success

theorem simulate_contract_again (hcontract : r.contracts.at? request.destination = some Staking.contract) :
    ∃ again g', (r.simulate hashes { request with gasLimit := limit }).eval f = .ok (again, []) g' ∧
      answer.Promised limit again := by
  rw [simulate_contract hcontract] at h
  obtain ⟨outcome, g₁, hexecute, hdone⟩ := eval_bind_ok.1 h
  obtain ⟨⟨⟩, rfl⟩ := eval_pure_ok.1 hdone
  obtain ⟨hle, hcovered, hshort⟩ := Staking.execute_again request.block hexecute success limit
  have hestimate : (if request.estimate then min outcome.gasUsed request.gasLimit else 0) = outcome.gasUsed := by
    rw [if_pos asked]
    exact if_pos hle
  unfold CallResult.Promised
  rw [hestimate]
  obtain hcovers | hlacks := UInt64.le_or_lt outcome.gasUsed limit
  · refine ⟨_, _, simulate_contract_returns hcontract (hcovered hcovers), fun _ => ?_, fun hlacks => ?_⟩
    · refine ⟨success, rfl, rfl, ?_⟩
      rw [if_pos asked]
      exact if_pos hcovers
    · exact absurd hcovers (UInt64.not_le.2 hlacks)
  · refine ⟨_, _, simulate_contract_returns hcontract (hshort hlacks), fun hcovers => ?_, fun _ => rfl⟩
    exact absurd hcovers (UInt64.not_le.2 hlacks)

theorem simulate_backend_again (backend : r.backend = Transfer.backend) (staking : r.contracts.OnlyStaking)
    (metered : r.precompiles.Metered) (hcontract : r.contracts.at? request.destination = none) :
    ∃ again conversations' g', (r.simulate hashes { request with gasLimit := limit }).eval f
      = .ok (again, conversations') g' ∧ answer.Promised limit again := by
  rw [simulate_backend hcontract] at h
  obtain ⟨⟨outcome, conversation⟩, g₁, hcall, hdone⟩ := eval_bind_ok.1 h
  obtain ⟨⟨⟩, rfl⟩ := eval_pure_ok.1 hdone
  obtain ⟨⟨_, _⟩, g₂, hserve, hpaired⟩ := eval_bind_ok.1 hcall
  obtain ⟨⟨⟩, rfl⟩ := eval_pure_ok.1 hpaired
  obtain ⟨rfl, hyields⟩ := serve_ok staking hserve
  rw [backend] at hyields
  obtain ⟨outcome', hyields', hcovered, hshort⟩ :=
    Transfer.backend_estimate asked success metered hcontract hyields limit
  rw [← backend] at hyields'
  obtain ⟨again, conversations', hrun, hstatus, houtput, hcreated, hestimate⟩ :=
    simulate_backend_returns hyields' hcontract
  refine ⟨again, conversations', _, hrun, ?_⟩
  unfold CallResult.Promised
  rw [hstatus, houtput, hcreated, hestimate]
  exact ⟨hcovered, hshort⟩

end Simulate

/-- An estimate is exact. The request of a call that succeeded, under a limit that covers the estimate, succeeds with
the same answer, and under each other limit it runs out of gas. -/
theorem estimate_exact (backend : r.backend = Transfer.backend) (staking : r.contracts.OnlyStaking)
    (metered : r.precompiles.Metered) {n m : Node} (asked : request.estimate = true)
    (h : r.runCall request n = .ok answer m) (success : answer.status = .success) (limit : UInt64) :
    ∃ again m', r.runCall { request with gasLimit := limit } n = .ok again m' ∧
      (answer.gasEstimate ≤ limit → again.status = .success ∧ again.output = answer.output ∧
        again.created = answer.created ∧ again.gasEstimate = answer.gasEstimate) ∧
      (limit < answer.gasEstimate → again.status = .outOfGas) := by
  obtain ⟨conversations, g, hsimulate⟩ := runCall_iff.1 ⟨m, h⟩
  obtain ⟨again, conversations', g', hagain, hpromised⟩ : ∃ again conversations' g',
      (r.simulate n.hashes { request with gasLimit := limit }).eval n.view.contents
        = .ok (again, conversations') g' ∧ answer.Promised limit again := by
    cases hcontract : r.contracts.at? request.destination with
    | some contract =>
      obtain rfl := staking.at? hcontract
      obtain ⟨again, g', hagain⟩ := simulate_contract_again asked hsimulate success limit hcontract
      exact ⟨again, [], g', hagain⟩
    | none => exact simulate_backend_again asked hsimulate success limit backend staking metered hcontract
  obtain ⟨m', hrun⟩ := runCall_iff.2 ⟨conversations', g', hagain⟩
  exact ⟨again, m', hrun, hpromised⟩

/-- Three bytes and a value for the identity at address 4. -/
def echo : CallRequest :=
  { sender := 1, destination := some 4, nonce := 0, value := 100, gasPrice := 1, gasLimit := 100000,
    input := [1, 2, 3], block := {}, revision := 9, estimate := true }

/-- With one unit of gas less than the estimate the identity is not paid. -/
theorem echo_estimated :
    ∃ answer m again m',
      ({ Rounds.stakingRunner with precompiles := .istanbul } : Runner).runCall echo (Rounds.twoTransfers 0)
        = .ok answer m ∧ answer.status = .success ∧ answer.gasEstimate = 21066 ∧ answer.output = [1, 2, 3] ∧
      ({ Rounds.stakingRunner with precompiles := .istanbul } : Runner).runCall { echo with gasLimit := 21065 }
        (Rounds.twoTransfers 0) = .ok again m' ∧ again.status = .outOfGas := by
  have hends : endsWith
      (({ Rounds.stakingRunner with precompiles := .istanbul } : Runner).runCall echo (Rounds.twoTransfers 0))
      (fun answer _ => answer.status = .success ∧ answer.gasEstimate = 21066 ∧ answer.output = [1, 2, 3]) = true := by
    decide +kernel
  obtain ⟨answer, m, hcall, hanswer⟩ := endsWith_iff.1 hends
  obtain ⟨success, hestimate, houtput⟩ := of_decide_eq_true hanswer
  obtain ⟨again, m', hagain, -, hshort⟩ := estimate_exact rfl ContractTable.onlyStaking_insert
    PrecompileTable.istanbul_metered rfl hcall success 21065
  refine ⟨answer, m, again, m', hcall, success, hestimate, houtput, hagain, hshort ?_⟩
  rw [hestimate]
  decide

end Runner

end RoundLedger
