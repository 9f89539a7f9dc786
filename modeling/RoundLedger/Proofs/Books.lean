import RoundLedger.Proofs.Partition
import RoundLedger.Proofs.Solvency

/-!
# Meters add up

A transaction is counted when it is admitted, when it is discarded and when its result is published, each time
once. So the meters add up to what is queued and to what is still collected. A change of stake is counted with
the result that is published; what ran in vain, and what is only asked for, is not.
-/

namespace RoundLedger

open Step Program State Queue

/-! ## Tallies -/

namespace Tally

variable {α : Type} [Ord α] [Std.TransOrd α] [Std.LawfulEqOrd α]

/-- The sum over all labels. -/
def total (t : Tally α) : Nat := (t.toList.map (·.2)).sum

theorem total_eq (t : Tally α) (label : α) : t.total = t.count label + Tally.total (t.erase label) := by
  have hsum := ((toList_perm t label).map (·.2)).sum_eq
  rw [total, hsum, count, Std.ExtTreeMap.getD_eq_getD_getElem?]
  cases t[label]? with
  | none => simp [total]
  | some n => simp [total]

theorem total_add (t : Tally α) (label : α) (n : Nat) : (t.add label n).total = t.total + n := by
  unfold add
  split
  next hzero => rw [hzero, Nat.add_zero]
  next =>
    have hsum := ((toList_insert_perm t label (t.count label + n)).map (·.2)).sum_eq
    rw [List.map_cons, List.sum_cons] at hsum
    rw [total, hsum, total_eq t label, total]
    omega

end Tally

/-- Every discard has one of the reasons. -/
theorem Admission.sum_count (a : Admission) : (DiscardReason.all.map a.count).sum = a.discarded.length := by
  unfold count
  induction a.discarded with
  | nil => rfl
  | cons discard rest ih =>
    obtain ⟨reason, tx⟩ := discard
    simp only [DiscardReason.all, List.map_cons, List.map_nil, List.sum_cons, List.sum_nil, List.countP_cons,
      List.length_cons, ← ih]
    cases reason <;> simp <;> omega

/-! ## Books -/

/-- What the meters show of transactions, summed over all labels. -/
structure Books where
  collected : Nat
  admitted : Nat
  discarded : Nat
  published : Nat
  deposits : Nat
  withdrawals : Nat
  queueLength : UInt64

def Meters.books (m : Meters) : Books where
  collected := m.collected
  admitted := m.admitted
  discarded := m.discarded.total
  published := m.succeeded + m.failed.total
  deposits := m.deposits
  withdrawals := m.withdrawals
  queueLength := m.queueLength

def Node.books (n : Node) : Books := n.meters.books

def Engine.books (e : Engine) : Books := e.desk.node.books

namespace Meters

theorem books_discard (m : Meters) (reason : DiscardReason) (n : Nat) :
    (m.discard reason n).books = { m.books with discarded := m.books.discarded + n } := by
  unfold discard books
  dsimp only
  rw [Tally.total_add]

theorem books_admission (m : Meters) (a : Admission) :
    (m.admission a).books = { m.books with discarded := m.books.discarded + a.discarded.length } := by
  have hfold (reasons : List DiscardReason) (m : Meters) :
      (reasons.foldl (fun m reason => m.discard reason (a.count reason)) m).books
        = { m.books with discarded := m.books.discarded + (reasons.map a.count).sum } := by
    induction reasons generalizing m with
    | nil => rfl
    | cons reason rest ih =>
      rw [List.foldl_cons, ih, books_discard, List.map_cons, List.sum_cons, Nat.add_assoc]
  rw [admission, hfold, a.sum_count]

theorem books_outcome (m : Meters) (status : Status) :
    (m.outcome status).books = { m.books with published := m.books.published + 1 } := by
  unfold outcome
  split
  · unfold books
    dsimp only
    rw [Nat.add_right_comm]
  · unfold books
    dsimp only
    rw [Tally.bump, Tally.total_add, Nat.add_assoc]

theorem books_outcomes (results : List CommittedResult) (m : Meters) :
    (results.foldl (fun m result => m.outcome result.status) m).books
      = { m.books with published := m.books.published + results.length } := by
  induction results generalizing m with
  | nil => rfl
  | cons result rest ih =>
    rw [List.foldl_cons, ih, books_outcome, List.length_cons, Nat.add_assoc, Nat.add_comm 1]

end Meters

/-! ## Steps that keep the books -/

namespace Step

variable {ε σ τ α β γ δ : Type}

/-- The state that a step ends in, also when it stops. -/
def final : EStateM.Result ε σ α → σ
  | .ok _ s => s
  | .error _ s => s

/-- A step keeps a part of the state, also when it stops. -/
def Keeps (part : σ → γ) (step : EStateM ε σ α) : Prop := ∀ s, part (final (step s)) = part s

variable {part : σ → γ}

theorem Keeps.ok {step : EStateM ε σ α} (h : Keeps part step) {s t : σ} {a : α} (hstep : step s = .ok a t) :
    part t = part s := by
  have hkept := h s
  rwa [hstep] at hkept

theorem keeps_pure (a : α) : Keeps part (pure a : EStateM ε σ α) := fun _ => rfl

theorem keeps_get : Keeps part (get : EStateM ε σ σ) := fun _ => rfl

theorem keeps_modify {f : σ → σ} (h : ∀ s, part (f s) = part s) : Keeps part (modify f : EStateM ε σ PUnit) := h

theorem Keeps.bind {x : EStateM ε σ α} {f : α → EStateM ε σ β} (hx : Keeps part x) (hf : ∀ a, Keeps part (f a)) :
    Keeps part (x >>= f) := by
  intro s
  have hfirst := hx s
  change part (final (EStateM.bind x f s)) = part s
  unfold EStateM.bind
  cases hstep : x s with
  | ok a t =>
    rw [hstep] at hfirst
    exact (hf a t).trans hfirst
  | error e t =>
    rw [hstep] at hfirst
    exact hfirst

theorem Keeps.map {x : EStateM ε σ α} (hx : Keeps part x) (f : α → β) : Keeps part (f <$> x) := by
  intro s
  have hstep := hx s
  change part (final (EStateM.map f x s)) = part s
  unfold EStateM.map
  cases hrun : x s <;> rw [hrun] at hstep <;> exact hstep

theorem Keeps.forM {items : List β} {f : β → EStateM ε σ PUnit} (h : ∀ item, Keeps part (f item)) :
    Keeps part (items.forM f) := by
  induction items with
  | nil => exact keeps_pure _
  | cons item rest ih => exact (h item).bind fun _ => ih

theorem Keeps.zoom {get : σ → τ} {restore : σ → τ → σ} {step : EStateM ε τ α} {inner : τ → δ}
    (h : Keeps inner step) (hpart : ∀ s t, inner t = inner (get s) → part (restore s t) = part s) :
    Keeps part (RoundLedger.zoom get restore step) := by
  intro s
  have hinner := h (get s)
  unfold RoundLedger.zoom
  cases hstep : step (get s) with
  | ok a t =>
    rw [hstep] at hinner
    exact hpart s t hinner
  | error e t =>
    rw [hstep] at hinner
    exact hpart s t hinner

end Step

namespace Session

theorem access_keeps {α : Type} (p : Program α) : Keeps Node.books (access p) := by
  have hview : Keeps (fun _ : View => ()) p.run := fun _ => rfl
  exact hview.zoom fun _ _ _ => rfl

theorem meter_keeps {f : Meters → Meters} (h : ∀ m, (f m).books = m.books) : Keeps Node.books (meter f) :=
  keeps_modify fun n => h n.meters

theorem openOverlay_keeps : Keeps Node.books openOverlay := keeps_modify fun _ => rfl

theorem takeOverlay_keeps : Keeps Node.books takeOverlay := by
  intro n
  unfold takeOverlay
  cases n.view.taken <;> rfl

theorem hear_keeps (isPrecompile : Address → Bool) (c : Conversation) : Keeps Node.books (hear isPrecompile c) :=
  keeps_modify fun _ => rfl

end Session

namespace Runner

variable (r : Runner)

theorem runTransaction_keeps (block : Block) (tx : Transaction) : Keeps Node.books (r.runTransaction block tx) := by
  unfold runTransaction
  split
  · exact keeps_pure _
  · refine keeps_get.bind fun node => Session.openOverlay_keeps.bind fun _ => ?_
    refine (Session.access_keeps _).bind fun out => Session.takeOverlay_keeps.bind fun overlay => ?_
    exact (Keeps.forM fun c => Session.hear_keeps _ c).bind fun _ => keeps_pure _

theorem runCall_keeps (request : CallRequest) : Keeps Node.books (r.runCall request) := by
  unfold runCall
  refine keeps_get.bind fun node => Session.openOverlay_keeps.bind fun _ => ?_
  refine (Session.access_keeps _).bind fun out => Session.takeOverlay_keeps.bind fun _ => ?_
  exact (Keeps.forM fun c => Session.hear_keeps _ c).bind fun _ => keeps_pure _

end Runner

namespace Desk

def books (d : Desk) : Books := d.node.books

theorem claim_keeps : Keeps Desk.books claim := by
  intro d
  unfold claim
  cases d.slots.claim? <;> rfl

theorem release_keeps (index : Nat) : Keeps Desk.books (release index) := by
  intro d
  unfold release
  cases d.slots.release? index <;> rfl

theorem onNode_keeps {α : Type} {step : RoundLedger.Session α} (h : Keeps Node.books step) :
    Keeps Desk.books (onNode step) := h.zoom fun _ _ hnode => hnode

theorem callOnSlot_keeps (r : Runner) (request : CallRequest) : Keeps Desk.books (callOnSlot r request) := by
  refine (onNode_keeps (r.runCall_keeps request)).bind fun result => ?_
  refine (onNode_keeps (Session.meter_keeps ?_)).bind fun _ => keeps_pure _
  exact fun _ => rfl

theorem releasing_keeps {α : Type} {step : Session α} (h : Keeps Desk.books step) (index : Nat) :
    Keeps Desk.books (releasing index step) := by
  intro d
  have hstep := h d
  unfold releasing
  cases hrun : step d with
  | ok a d₁ =>
    have hrelease := release_keeps index d₁
    rw [hrun] at hstep
    dsimp only
    cases hdone : release index d₁ <;> rw [hdone] at hrelease <;> exact hrelease.trans hstep
  | error fault d₁ =>
    have hrelease := release_keeps index d₁
    rw [hrun] at hstep
    dsimp only
    cases hdone : release index d₁ <;> rw [hdone] at hrelease <;> exact hrelease.trans hstep

theorem call_keeps (r : Runner) (request : CallRequest) : Keeps Desk.books (call r request) := by
  unfold call
  refine claim_keeps.bind fun claimed => ?_
  split
  · exact keeps_pure _
  · exact releasing_keeps ((callOnSlot_keeps r request).map some) _

end Desk

namespace Engine

theorem onDesk_keeps {α : Type} {step : Desk.Session α} (h : Keeps Desk.books step) :
    Keeps Engine.books (onDesk step) := h.zoom fun _ _ hdesk => hdesk

theorem access_keeps {α : Type} (p : Program α) : Keeps Engine.books (access p) :=
  onDesk_keeps (Desk.onNode_keeps (Session.access_keeps p))

theorem aside_keeps {α : Type} {step : Session α} (h : Keeps Engine.books step) :
    Keeps Engine.books (aside step) := by
  intro e
  have hstep := h e
  unfold aside
  cases hrun : step e <;> rw [hrun] at hstep <;> exact hstep

theorem call_keeps (request : CallRequest) (block : Block) (estimate : Bool) :
    Keeps Engine.books (call request block estimate) :=
  keeps_get.bind fun e => onDesk_keeps (Desk.call_keeps e.runner _)

end Engine

/-- Read-only calls are not in the books. -/
theorem Event.run_keeps {event : Event} (hcall : event.isCall = true) : Keeps Engine.books event.run := by
  cases event with
  | call request block estimate =>
    exact (Engine.aside_keeps (Engine.call_keeps request block estimate)).bind fun _ => keeps_pure _
  | poolCall contracts request =>
    refine keeps_get.bind fun e => ?_
    exact (Engine.aside_keeps (Engine.onDesk_keeps (Desk.call_keeps _ _))).bind fun _ => keeps_pure _
  | _ => cases hcall

/-! ## Changes of stake -/

/-- The contract reports no change of stake. -/
def SystemContract.Silent (contract : SystemContract) : Prop :=
  ∀ (result : CommittedResult) (f f' : Contents) (event : Option StakeEvent),
    (contract.committed result).eval f = .ok event f' → event = none

namespace ContractTable

/-- Nothing but the staking contract is registered at its address, and no other contract reports changes of
stake. -/
structure StakesAtHome (t : ContractTable) : Prop where
  home : ∀ contract, t[Staking.address]? = some contract → contract = Staking.contract
  silent : ∀ address contract, address ≠ Staking.address → t[address]? = some contract → contract.Silent

theorem OnlyStaking.stakesAtHome {t : ContractTable} (h : t.OnlyStaking) : t.StakesAtHome where
  home contract hcontract := (h _ contract hcontract).2
  silent address contract hne hcontract := absurd (h address contract hcontract).1 hne

/-- A success that was sent to the registered staking contract with the selector. -/
def Counts (t : ContractTable) (selector : Staking.Selector) (result : CommittedResult) : Prop :=
  Staking.address ∈ t ∧ result.tx.destination = some Staking.address ∧ result.status = .success ∧
    Staking.selector? result.tx.data = some selector

instance (t : ContractTable) (selector : Staking.Selector) : DecidablePred (t.Counts selector) :=
  fun _ => inferInstanceAs (Decidable (_ ∧ _ ∧ _ ∧ _))

end ContractTable

/-- The books with the changes of stake that the results stand for. -/
def Books.staked (b : Books) (t : ContractTable) (results : List CommittedResult) : Books :=
  { b with
    deposits := b.deposits + results.countP (t.Counts .stake)
    withdrawals := b.withdrawals + results.countP (t.Counts .unstake) }

theorem Books.staked_append (b : Books) (t : ContractTable) (results results' : List CommittedResult) :
    (b.staked t results).staked t results' = b.staked t (results ++ results') := by
  simp only [staked, List.countP_append, Nat.add_assoc]

def StakeEvent.selector : StakeEvent → Staking.Selector
  | deposited _ => .stake
  | withdrawn _ => .unstake

theorem Staking.committed_ok {result : CommittedResult} {event : Option StakeEvent} {f f' : Contents}
    (h : (committed result).eval f = .ok event f') {selector : Selector}
    (hselector : selector = .stake ∨ selector = .unstake) :
    event.map StakeEvent.selector = some selector ↔
      result.status = .success ∧ selector? result.tx.data = some selector := by
  unfold committed at h
  split at h
  next hfailed =>
    obtain ⟨rfl, -⟩ := eval_pure_ok.1 h
    have hfailed : result.status ≠ .success := by simpa [Status.isSuccess] using hfailed
    exact ⟨nofun, fun hcounts => absurd hcounts.1 hfailed⟩
  next hsuccess =>
    have hsuccess : result.status = .success := by simpa [Status.isSuccess] using hsuccess
    obtain ⟨sum, g, -, hevent⟩ := eval_bind_ok.1 h
    split at hevent
    next hstake =>
      obtain ⟨rfl, -⟩ := eval_pure_ok.1 hevent
      rw [hstake]
      exact ⟨fun heq => ⟨hsuccess, heq⟩, fun heq => heq.2⟩
    next hunstake =>
      obtain ⟨rfl, -⟩ := eval_pure_ok.1 hevent
      rw [hunstake]
      exact ⟨fun heq => ⟨hsuccess, heq⟩, fun heq => heq.2⟩
    next hstake hunstake =>
      obtain ⟨rfl, -⟩ := eval_pure_ok.1 hevent
      refine ⟨nofun, fun hcounts => ?_⟩
      obtain rfl | rfl := hselector
      · exact absurd hcounts.2 hstake
      · exact absurd hcounts.2 hunstake

theorem ContractTable.StakesAtHome.reports {t : ContractTable} (home : t.StakesAtHome) {result : CommittedResult}
    {contract : SystemContract} (hat : t.at? result.tx.destination = some contract)
    {event : Option StakeEvent} {f f' : Contents} (h : (contract.committed result).eval f = .ok event f')
    {selector : Staking.Selector} (hselector : selector = .stake ∨ selector = .unstake) :
    event.map StakeEvent.selector = some selector ↔ t.Counts selector result := by
  cases hto : result.tx.destination with
  | none =>
    rw [hto] at hat
    cases hat
  | some address =>
    rw [hto] at hat
    have hfound : t[address]? = some contract := hat
    by_cases haddress : address = Staking.address
    · subst haddress
      obtain rfl := home.home contract hfound
      have hmem : Staking.address ∈ t := Std.ExtTreeMap.mem_iff_isSome_getElem?.2 (by rw [hfound]; rfl)
      rw [Staking.committed_ok h hselector]
      exact ⟨fun hcounts => ⟨hmem, hto, hcounts⟩, fun hcounts => hcounts.2.2⟩
    · obtain rfl := home.silent address contract haddress hfound _ _ _ _ h
      refine ⟨nofun, fun hcounts => ?_⟩
      exact absurd (Option.some.inj (hto.symm.trans hcounts.2.1)) haddress

theorem Books.staked_of_event (b : Books) {t : ContractTable} {result : CommittedResult} {event : Option StakeEvent}
    (h : ∀ selector, selector = .stake ∨ selector = .unstake →
      (event.map StakeEvent.selector = some selector ↔ t.Counts selector result)) :
    b.staked t [result] = match event with
      | none => b
      | some (.deposited _) => { b with deposits := b.deposits + 1 }
      | some (.withdrawn _) => { b with withdrawals := b.withdrawals + 1 } := by
  have hstake := h .stake (.inl rfl)
  have hunstake := h .unstake (.inr rfl)
  simp only [staked, List.countP_singleton, decide_eq_true_eq, ← hstake, ← hunstake]
  cases event with
  | none => rfl
  | some event => cases event <;> rfl

namespace Runner

variable {r : Runner} (home : r.contracts.StakesAtHome)

include home

theorem notifyCommitted_books {result : CommittedResult} {u : Unit} {n n' : Node}
    (h : r.notifyCommitted result n = .ok u n') : n'.books = n.books.staked r.contracts [result] := by
  unfold notifyCommitted at h
  cases hat : r.contracts.at? result.tx.destination with
  | none =>
    rw [hat] at h
    obtain ⟨-, rfl⟩ := pure_ok.1 h
    have hnone (selector : Staking.Selector) (_ : selector = .stake ∨ selector = .unstake) :
        (none : Option StakeEvent).map StakeEvent.selector = some selector ↔ r.contracts.Counts selector result := by
      refine ⟨nofun, fun hcounts => ?_⟩
      have hfound := Std.ExtTreeMap.mem_iff_isSome_getElem?.1 hcounts.1
      rw [hcounts.2.1] at hat
      rw [show r.contracts[Staking.address]? = none from hat] at hfound
      cases hfound
    exact (n.books.staked_of_event hnone).symm
  | some contract =>
    rw [hat] at h
    obtain ⟨event, m, haccess, hreport⟩ := bind_ok.1 h
    have hkept : m.books = n.books := (Session.access_keeps _).ok haccess
    obtain ⟨v, hrun, -⟩ := Step.access_ok.1 haccess
    rw [← hkept, m.books.staked_of_event fun selector => home.reports hat (eval_of_run hrun)]
    cases event with
    | none =>
      obtain ⟨-, rfl⟩ := pure_ok.1 hreport
      rfl
    | some event =>
      obtain rfl := Step.meter_ok.1 hreport
      cases event <;> rfl

end Runner

/-! ## Rounds -/

namespace Rounds

variable {r : Runner} {block : Block}

theorem runAll_keeps (r : Runner) (block : Block) (order : List QueueEntry) :
    Keeps Node.books (runAll r block order) := by
  induction order with
  | nil => exact keeps_pure _
  | cons entry rest ih =>
    rw [runAll]
    exact (r.runTransaction_keeps block entry.tx).bind fun _ => ih.bind fun _ => keeps_pure _

theorem sendBack_keeps (p : Progress) : Keeps Node.books (sendBack p) := by
  unfold sendBack
  split
  · refine (Session.meter_keeps ?_).bind fun _ => (Session.access_keeps _).bind fun _ => keeps_pure _
    exact fun _ => rfl
  · exact keeps_pure _

section

variable (home : r.contracts.StakesAtHome)

include home

/-- What is published is told to its contract, and nothing else is. -/
theorem applyEntry_books {outputs : Outputs} {p p' : Progress} {entry : QueueEntry} {n n' : Node} {b : Books}
    (h : applyEntry r outputs p entry n = .ok p' n')
    (sofar : n.books = b.staked r.contracts (p.published.map (·.result))) :
    n'.books = b.staked r.contracts (p'.published.map (·.result)) := by
  obtain ⟨-, rfl, rfl⟩ | ⟨result, o, -, ⟨-, rfl, rfl⟩ | ⟨-, rfl, hnotify⟩⟩ := applyEntry_inv h
  · exact sofar
  · exact sofar
  · have hnotified := Runner.notifyCommitted_books home hnotify
    change n'.books = n.books.staked _ _ at hnotified
    rw [hnotified, sofar, Books.staked_append, Progress.commit, List.map_append, List.map_singleton]

theorem runRound_books {dealer : Dealer} {s s' : dealer.State} {gate : NonceGate} {entries : List QueueEntry}
    {p : Progress} {n n' : Node} (h : runRound r block dealer s gate entries n = .ok (p, s') n') :
    n'.books = n.books.staked r.contracts (p.published.map (·.result)) := by
  obtain ⟨outputs, ran, hall, hfold⟩ := runRound_inv h
  refine foldlM_ok (fun _ p m => m.books = n.books.staked r.contracts (p.published.map (·.result))) hfold ?_ ?_
  · exact (runAll_keeps _ _ _).ok hall
  · exact fun _ _ _ _ _ _ _ _ sofar hstep => applyEntry_books home hstep sofar

theorem runRounds_books {batch : UInt64} {dealer : Dealer} {count : Nat} {s : dealer.State} {gate : NonceGate}
    {e e' : BlockExecution} {n n' : Node} {b : Books}
    (h : runRounds r batch block dealer count s gate e n = .ok e' n')
    (sofar : n.books = b.staked r.contracts e.results) : n'.books = b.staked r.contracts e'.results := by
  induction count generalizing s gate e n with
  | zero =>
    obtain ⟨rfl, rfl⟩ := pure_ok.1 h
    exact sofar
  | succ count ih =>
    obtain ⟨entries, popped, hpop, hround⟩ := runRounds_inv h
    have hpopped : popped.books = n.books := (Session.access_keeps _).ok hpop
    obtain ⟨-, rfl, rfl⟩ | ⟨-, p, s', settled, sent, hsettle, hsend, hrest⟩ := hround
    · rw [hpopped, sofar]
    · have hsent : sent.books = settled.books := (sendBack_keeps p).ok hsend
      refine ih hrest ?_
      rw [hsent, runRound_books home hsettle, hpopped, sofar, Books.staked_append]
      simp only [BlockExecution.results, addRound, List.map_append]

theorem execute_books {pool : Pool} {dealer : Dealer} {n n' : Node} {e : BlockExecution}
    (h : pool.execute r block dealer n = .ok e n') : n'.books = n.books.staked r.contracts e.results := by
  obtain ⟨entries, loaded, ran, hload, hruns, rfl⟩ := execute_inv h
  have hloaded : loaded.books = n.books.staked r.contracts (BlockExecution.results {}) :=
    (Session.access_keeps _).ok hload
  have hran := runRounds_books home hruns hloaded
  exact hran

end

end Rounds

/-! ## Steps of the engine -/

theorem Queue.size_eval_ok {f f' : Contents} {length : UInt64} :
    size.eval f = .ok length f' ↔ ∃ r, rangeIn f = .ok r ∧ r.size = .ok length ∧ f = f' := by
  unfold size
  rw [eval_bind_ok]
  constructor
  · rintro ⟨r, _, hread, hlength⟩
    obtain ⟨hrange, rfl⟩ := range_ok.1 hread
    exact ⟨r, hrange, eval_ofExcept_ok.1 hlength⟩
  · rintro ⟨r, hrange, hlength⟩
    exact ⟨r, f, range_ok.2 ⟨hrange, rfl⟩, eval_ofExcept_ok.2 hlength⟩

namespace Engine

variable {e e' : Engine}

theorem meter_books {f : Meters → Meters} {u : Unit} (h : meter f e = .ok u e') :
    e'.books = (f e.desk.node.meters).books := by
  obtain ⟨n, hmeter, rfl⟩ := onNode_ok h
  obtain rfl := Step.meter_ok.1 hmeter
  rfl

/-- What an admission adds to the books. -/
theorem prepare_books {seed : UInt64} {minGasPrice : Word} {maxGasLimit : UInt64} {touched : List Address}
    (h : prepare seed minGasPrice maxGasLimit e = .ok touched e') :
    ∃ admission f range discarded,
      (Admission.select e.collected minGasPrice maxGasLimit).eval e.contents = .ok admission f ∧
      (Queue.append admission.admitted).eval f = .ok range e'.contents ∧
      range.size = .ok e'.books.queueLength ∧
      discarded + e'.collected.length = admission.deferred.length + admission.discarded.length ∧
      e'.books =
        { e.books with
          collected := e.books.collected + e.collected.length
          admitted := e.books.admitted + admission.admitted.length
          discarded := e.books.discarded + discarded
          queueLength := e'.books.queueLength } := by
  obtain ⟨admission, f, range, queueLength, hselect, happend, -, hlength, hkept, hmeters⟩ := prepare_inv h
  have hbooks : e'.books = (e.admissionMeters admission queueLength).books := congrArg Meters.books hmeters
  have hlater (m : Meters) : Meters.books { m with
        admitted := m.admitted + admission.admitted.length
        queueLength
        preparations := m.preparations + 1 }
      = { m.books with admitted := m.books.admitted + admission.admitted.length, queueLength } := rfl
  rw [admissionMeters, hlater, Meters.books_discard, Meters.books_admission] at hbooks
  refine ⟨admission, f, range, admission.discarded.length
    + (admission.deferred.filter (·.isTooOld e.lastHeight)).length, hselect, happend, ?_, ?_, ?_⟩
  · rw [hlength, hbooks]
  · have hsplit := List.length_eq_length_filter_add (l := admission.deferred) (·.isTooOld e.lastHeight)
    rw [hkept]
    omega
  · rw [hbooks, ← Nat.add_assoc]
    rfl

/-- What a block adds to the books. -/
theorem execute_books (home : e.runner.contracts.StakesAtHome) {dealer : UInt64 → Dealer} {block : Block} {u : Unit}
    (h : execute dealer block e = .ok u e') :
    Queue.size.eval e'.contents = .ok e'.books.queueLength e'.contents ∧
      e'.books =
        { e.books.staked e.runner.contracts e'.committed with
          published := e.books.published + e'.committed.length
          queueLength := e'.books.queueLength } := by
  unfold execute at h
  obtain ⟨_, _, hget, h₁⟩ := bind_ok.1 h
  obtain ⟨rfl, rfl⟩ := get_ok.1 hget
  obtain ⟨execution, e₁, hpool, h₂⟩ := bind_ok.1 h₁
  obtain ⟨n, hexecute, rfl⟩ := onNode_ok hpool
  obtain ⟨_, e₂, hcredit, h₃⟩ := bind_ok.1 h₂
  obtain ⟨_, e₃, hrecord, h₄⟩ := bind_ok.1 h₃
  obtain ⟨n₃, hinsert, rfl⟩ := onNode_ok hrecord
  obtain rfl := modify_ok.1 hinsert
  obtain ⟨_, e₄, hheight, h₅⟩ := bind_ok.1 h₄
  obtain rfl := modify_ok.1 hheight
  obtain ⟨_, e₅, hmeter₅, h₆⟩ := bind_ok.1 h₅
  obtain ⟨length, e₆, hsize, h₇⟩ := bind_ok.1 h₆
  obtain ⟨_, e₇, hmeter₇, h₈⟩ := bind_ok.1 h₇
  obtain rfl := modify_ok.1 h₈
  have hbooks₁ : n.books = e.books.staked e.runner.contracts execution.results := Rounds.execute_books home hexecute
  have hbooks₂ : e₂.books = n.books := (access_keeps _).ok hcredit
  have hbooks₅ : e₅.books = { e₂.books with published := e₂.books.published + execution.results.length } :=
    (meter_books hmeter₅).trans (Meters.books_outcomes _ _)
  have hbooks₆ : e₆.books = e₅.books := (access_keeps _).ok hsize
  have hbooks₇ : e₇.books = { e₆.books with queueLength := length } := meter_books hmeter₇
  have hsized := access_ok hsize
  have hsame : e₆.contents = e₅.contents := by
    obtain ⟨_, -, -, hsame⟩ := size_eval_ok.1 hsized
    exact hsame.symm
  constructor
  · change Queue.size.eval e₇.contents = .ok e₇.books.queueLength e₇.contents
    rw [meter_ok hmeter₇, hbooks₇]
    rwa [← hsame] at hsized
  · change e₇.books = { e.books.staked e.runner.contracts execution.results with
      published := e.books.published + execution.results.length
      queueLength := e₇.books.queueLength }
    rw [hbooks₇, hbooks₆, hbooks₅, hbooks₂, hbooks₁]
    rfl

/-- An admission makes the queue longer by what it admits. -/
theorem queueLength_of_prepare {length : UInt64} (hbefore : Queue.size.eval e.contents = .ok length e.contents)
    {seed : UInt64} {minGasPrice : Word} {maxGasLimit : UInt64} {touched : List Address}
    (h : prepare seed minGasPrice maxGasLimit e = .ok touched e') :
    ∃ admitted discarded,
      Queue.size.eval e'.contents = .ok e'.books.queueLength e'.contents ∧
      e'.books.queueLength.toNat = length.toNat + admitted ∧
      e'.books =
        { e.books with
          collected := e.books.collected + (admitted + discarded + e'.collected.length)
          admitted := e.books.admitted + admitted
          discarded := e.books.discarded + discarded
          queueLength := e'.books.queueLength } := by
  obtain ⟨admission, f, range, discarded, hselect, happend, hlength, hsplit, hbooks⟩ := prepare_books h
  obtain ⟨r, happended, rfl⟩ := append_ok happend
  have hkept : rangeIn f = rangeIn e.contents := rangeIn_congr fun key hkey =>
    eval_avoids hselect (Admission.select_avoids (fun k hk => Key.not_isQueue_of_isState hk) _ _ _ _) hkey
  obtain ⟨r', hrange, hsize, -⟩ := size_eval_ok.1 hbefore
  obtain rfl : r = r' := Except.ok.inj (happended.range.symm.trans (hkept.trans hrange))
  obtain ⟨hordered, hsize⟩ := size_ok hsize
  have hnow := (size_ok hlength).2
  dsimp only at hnow
  rw [happended.stop_toNat] at hnow
  have hcount := (Admission.select_perm hselect).length_eq
  simp only [List.length_append, List.length_map] at hcount
  refine ⟨admission.admitted.length, discarded, size_eval_ok.2 ⟨_, happended.next, hlength, rfl⟩, by omega, ?_⟩
  have hcollected : e.collected.length = admission.admitted.length + discarded + e'.collected.length := by omega
  rw [hbooks, hcollected]

/-- A block makes the queue shorter by what it publishes. -/
theorem queueLength_of_execute (avoids : e.runner.contracts.Avoids Key.IsQueue)
    (home : e.runner.contracts.StakesAtHome) {length : UInt64}
    (hbefore : Queue.size.eval e.contents = .ok length e.contents) {dealer : UInt64 → Dealer} {block : Block}
    {u : Unit} (h : execute dealer block e = .ok u e') :
    e'.books.queueLength.toNat + e'.committed.length = length.toNat := by
  obtain ⟨execution, n, hexecute, hcredit, hcommitted⟩ := execute_ok h
  obtain ⟨r, hrange, hsize, -⟩ := size_eval_ok.1 hbefore
  obtain ⟨hordered, hsize⟩ := size_ok hsize
  obtain ⟨before, entries, gate, hbefore, -, -, hruns, -⟩ := Rounds.execute_runs hexecute
  obtain rfl : before = r := Except.ok.inj (hbefore.symm.trans hrange)
  obtain ⟨now, hmoved⟩ := hruns.moved avoids hrange (UInt64.le_iff_toNat_le.2 hordered)
  have hcredited : rangeIn e'.contents = .ok now := by
    rw [creditCoinbase_ok hcredit, rangeIn_congr fun key hkey => Contents.credit_queue _ _ _ hkey, hmoved.range]
  obtain ⟨r', hrange', hsize', -⟩ := size_eval_ok.1 (execute_books home h).1
  obtain rfl : r' = now := Except.ok.inj (hrange'.symm.trans hcredited)
  have hnow := size_ok hsize'
  have hstart := hmoved.start
  have hstop := hmoved.stop
  rw [hcommitted, BlockExecution.results, List.length_map]
  omega

end Engine

/-! ## Histories -/

/-- The books of an engine that began with the books `b`, and has published the results. -/
structure Books.AddUp (b : Books) (t : ContractTable) (results : List CommittedResult) (e : Engine) : Prop where
  admitted : ∃ length, Queue.size.eval e.contents = .ok length e.contents ∧
    e.books.admitted + b.published = b.admitted + e.books.published + length.toNat
  published : e.books.published = b.published + results.length
  deposits : e.books.deposits = b.deposits + results.countP (t.Counts .stake)
  withdrawals : e.books.withdrawals = b.withdrawals + results.countP (t.Counts .unstake)

namespace Engine

variable {b : Books} {t : ContractTable} {results : List CommittedResult} {e e' : Engine}

theorem addUp_of_same (sofar : b.AddUp t results e) (hbooks : e'.books = e.books)
    (hcontents : e'.contents = e.contents) : b.AddUp t results e' where
  admitted := by
    rw [hbooks, hcontents]
    exact sofar.admitted
  published := by rw [hbooks, sofar.published]
  deposits := by rw [hbooks, sofar.deposits]
  withdrawals := by rw [hbooks, sofar.withdrawals]

theorem addUp_of_prepare (sofar : b.AddUp t results e) {seed : UInt64} {minGasPrice : Word} {maxGasLimit : UInt64}
    {touched : List Address} (h : prepare seed minGasPrice maxGasLimit e = .ok touched e') :
    b.AddUp t results e' := by
  obtain ⟨⟨length, hlength, hadmitted⟩, hpublished, hdeposits, hwithdrawals⟩ := sofar
  obtain ⟨admitted, discarded, hsize, hnow, hbooks⟩ := queueLength_of_prepare hlength h
  constructor
  case admitted =>
    refine ⟨_, hsize, ?_⟩
    rw [hnow, hbooks]
    dsimp only
    omega
  case published => rw [hbooks, hpublished]
  case deposits => rw [hbooks, hdeposits]
  case withdrawals => rw [hbooks, hwithdrawals]

theorem addUp_of_execute (avoids : e.runner.contracts.Avoids Key.IsQueue) (home : e.runner.contracts.StakesAtHome)
    (sofar : b.AddUp e.runner.contracts results e) {dealer : UInt64 → Dealer} {block : Block} {u : Unit}
    (h : execute dealer block e = .ok u e') : b.AddUp e.runner.contracts (results ++ e'.committed) e' := by
  obtain ⟨⟨length, hlength, hadmitted⟩, hpublished, hdeposits, hwithdrawals⟩ := sofar
  obtain ⟨hsize, hbooks⟩ := execute_books home h
  have hnow := queueLength_of_execute avoids home hlength h
  constructor
  case admitted =>
    refine ⟨_, hsize, ?_⟩
    rw [hbooks]
    dsimp only [Books.staked]
    omega
  case published =>
    rw [hbooks, List.length_append]
    dsimp only
    omega
  case deposits =>
    rw [hbooks, List.countP_append]
    dsimp only [Books.staked]
    omega
  case withdrawals =>
    rw [hbooks, List.countP_append]
    dsimp only [Books.staked]
    omega

/-- A step that does not stop, and registers nothing, keeps the books. -/
theorem addUp_of_run (avoids : e.runner.contracts.Avoids Key.IsQueue) (home : e.runner.contracts.StakesAtHome)
    (idle : e.Idle) (sofar : b.AddUp e.runner.contracts results e) {event : Event}
    (routine : event.Routine fun _ => True) {published : List (List CommittedResult)}
    (h : event.run e = .ok published e') :
    b.AddUp e.runner.contracts (results ++ published.flatten) e' ∧ e'.runner = e.runner := by
  have hquiet (hpublished : published = []) (hbooks : e'.books = e.books) (hcontents : e'.contents = e.contents) :
      b.AddUp e.runner.contracts (results ++ published.flatten) e' := by
    rw [hpublished, List.flatten_nil, List.append_nil]
    exact addUp_of_same sofar hbooks hcontents
  have hcall (hcall : event.isCall = true) :
      b.AddUp e.runner.contracts (results ++ published.flatten) e' ∧ e'.runner = e.runner := by
    have hbooks := (event.run_keeps hcall).ok h
    obtain ⟨d, hrun, hview, -⟩ := event.run_call hcall idle.overlays
    cases hrun.symm.trans h
    exact ⟨hquiet rfl hbooks (congrArg View.contents hview), rfl⟩
  cases event with
  | collect tx =>
    obtain ⟨_, e₁, hcollect, hdone⟩ := bind_ok.1 h
    obtain rfl := modify_ok.1 hcollect
    obtain ⟨hnone, rfl⟩ := pure_ok.1 hdone
    exact ⟨hquiet hnone.symm rfl rfl, rfl⟩
  | prepare seed minGasPrice maxGasLimit =>
    obtain ⟨_, e₁, hprepare, hdone⟩ := bind_ok.1 h
    obtain ⟨rfl, rfl⟩ := pure_ok.1 hdone
    rw [List.flatten_nil, List.append_nil]
    exact ⟨addUp_of_prepare sofar hprepare, (prepare_keeps idle.overlays hprepare).2.1⟩
  | execute dealer block =>
    obtain ⟨_, e₁, hexecute, hpublish⟩ := bind_ok.1 h
    obtain ⟨_, _, hget, hdone⟩ := bind_ok.1 hpublish
    obtain ⟨rfl, rfl⟩ := get_ok.1 hget
    obtain ⟨rfl, rfl⟩ := pure_ok.1 hdone
    rw [List.flatten_singleton]
    exact ⟨addUp_of_execute avoids home sofar hexecute, (execute_keeps idle.overlays hexecute).2.1⟩
  | recordBlockHash number hash =>
    obtain ⟨_, e₁, hrecord, hdone⟩ := bind_ok.1 h
    obtain ⟨n, hinsert, rfl⟩ := onNode_ok hrecord
    obtain rfl := modify_ok.1 hinsert
    obtain ⟨hnone, rfl⟩ := pure_ok.1 hdone
    exact ⟨hquiet hnone.symm rfl rfl, rfl⟩
  | register address contract => exact routine.elim
  | call => exact hcall rfl
  | poolCall => exact hcall rfl

theorem addUp_of_play (avoids : e.runner.contracts.Avoids Key.IsQueue) (home : e.runner.contracts.StakesAtHome)
    (idle : e.Idle) (sofar : b.AddUp e.runner.contracts results e) {history : List Event}
    (routine : ∀ event ∈ history, event.Routine fun _ => True) (running : (play history e).stopped = false) :
    b.AddUp e.runner.contracts (results ++ (play history e).published.flatten) (play history e).last ∧
      (play history e).last.runner = e.runner := by
  induction history generalizing e results with
  | nil =>
    rw [play, List.flatten_nil, List.append_nil]
    exact ⟨sofar, rfl⟩
  | cons event rest ih =>
    obtain ⟨hevent, hrest⟩ := List.forall_mem_cons.1 routine
    rw [play] at running ⊢
    cases hrun : event.run e with
    | ok published e₁ =>
      rw [hrun] at running
      obtain ⟨hnext, hrunner⟩ := addUp_of_run avoids home idle sofar hevent hrun
      dsimp only
      rw [List.flatten_append, ← List.append_assoc]
      rw [← hrunner] at avoids home hnext ⊢
      exact ih avoids home (idle.run hrun) hnext hrest running
    | error fault e₁ =>
      rw [hrun] at running
      cases running

/-- The meters add up with the state after every history that begins with an empty queue. An admission counts
every transaction that it takes up, and the length of the queue is shown after each admission and each block. -/
theorem meters_add_up {start : Engine} (idle : start.Idle)
    (empty : Queue.size.eval start.contents = .ok 0 start.contents)
    (avoids : start.runner.contracts.Avoids Key.IsQueue) (home : start.runner.contracts.StakesAtHome)
    {history : List Event} (routine : ∀ event ∈ history, event.Routine fun _ => True)
    (running : (play history start).stopped = false) :
    start.books.AddUp start.runner.contracts (play history start).published.flatten (play history start).last ∧
    (∀ seed minGasPrice maxGasLimit touched e',
      prepare seed minGasPrice maxGasLimit (play history start).last = .ok touched e' →
      Queue.size.eval e'.contents = .ok e'.books.queueLength e'.contents ∧
      ∃ admitted discarded,
        e'.books.admitted = (play history start).last.books.admitted + admitted ∧
        e'.books.discarded = (play history start).last.books.discarded + discarded ∧
        e'.books.collected
          = (play history start).last.books.collected + (admitted + discarded + e'.collected.length)) ∧
    (∀ dealer block u e', execute dealer block (play history start).last = .ok u e' →
      Queue.size.eval e'.contents = .ok e'.books.queueLength e'.contents) := by
  have hstart : start.books.AddUp start.runner.contracts [] start :=
    ⟨⟨0, empty, rfl⟩, rfl, rfl, rfl⟩
  obtain ⟨hlast, hrunner⟩ := addUp_of_play avoids home idle hstart routine running
  refine ⟨hlast, fun seed minGasPrice maxGasLimit touched e' h => ?_, fun dealer block u e' h => ?_⟩
  · obtain ⟨length, hlength, -⟩ := hlast.admitted
    obtain ⟨admitted, discarded, hsize, -, hbooks⟩ := queueLength_of_prepare hlength h
    refine ⟨hsize, admitted, discarded, ?_⟩
    rw [hbooks]
    exact ⟨rfl, rfl, rfl⟩
  · rw [← hrunner] at home
    exact (execute_books home h).1

/-- Two accounts stake and one takes a part back. Then a deposit is only asked for. -/
def stakeAndAsk : List Event :=
  stakeAndUnstake ++ [.call ((withAccounts 1 2).runner.requestOf {} (stakeBy 2 1 5)) {} false]

theorem withAccounts_add_up :
    (play stakeAndAsk (withAccounts 1 2)).stopped = false ∧
    (withAccounts 1 2).books.AddUp (withAccounts 1 2).runner.contracts
      (play stakeAndAsk (withAccounts 1 2)).published.flatten (play stakeAndAsk (withAccounts 1 2)).last ∧
    (play stakeAndAsk (withAccounts 1 2)).last.books.deposits = 2 ∧
    (play stakeAndAsk (withAccounts 1 2)).last.books.withdrawals = 1 := by
  have htest : (let outcome := play stakeAndAsk (withAccounts 1 2)
      outcome.stopped == false && outcome.last.books.deposits == 2 && outcome.last.books.withdrawals == 1) = true := by
    decide +kernel
  simp only [Bool.and_eq_true, beq_iff_eq] at htest
  obtain ⟨⟨hrunning, hdeposits⟩, hwithdrawals⟩ := htest
  have staking : (withAccounts 1 2).runner.contracts.OnlyStaking := ContractTable.onlyStaking_insert
  have hidle : (withAccounts 1 2).Idle := ⟨rfl, List.nodup_nil⟩
  have hempty : Queue.size.eval (withAccounts 1 2).contents = .ok 0 (withAccounts 1 2).contents :=
    size_eval_ok.2 ⟨{}, by decide +kernel, rfl, rfl⟩
  have hroutine : ∀ event ∈ stakeAndAsk, event.Routine fun _ => True := by
    simp [stakeAndAsk, stakeAndUnstake, Event.Routine]
  exact ⟨hrunning, (meters_add_up hidle hempty staking.avoids staking.stakesAtHome hroutine hrunning).1,
    hdeposits, hwithdrawals⟩

end Engine

end RoundLedger
