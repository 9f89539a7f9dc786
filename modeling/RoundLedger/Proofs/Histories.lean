import RoundLedger.Proofs.Engine
import RoundLedger.Proofs.ReadOnly

/-!
# Histories that agree

Two histories of one engine with the same admissions, blocks and records publish the same and end with the
same store, also when read-only calls stand between the steps of one of them, or when the work of the
rounds is handed out in other orders. What both leave a trace in is which block was asked for last, so this
holds as long as no block hash is pushed out, or none is asked for.
-/

namespace RoundLedger

open Step

variable {backend : Backend} {L : Likeness backend}

namespace Engine

/-- What is committed. The queue is part of it. -/
def store (e : Engine) : Store := e.desk.node.view.base

/-- The same state, and lists of recent blocks that answer alike. -/
structure Twin (L : Likeness backend) (e e' : Engine) : Prop where
  node : Node.Twin L e.desk.node e'.desk.node
  config : e.config = e'.config
  runner : e.runner = e'.runner
  backend : e.runner.backend = backend
  collected : e.collected = e'.collected
  lastHeight : e.lastHeight = e'.lastHeight
  committed : e.committed = e'.committed
  seed : e.reorderSeed = e'.reorderSeed ∨ L.Loose

structure SameStore (e e' : Engine) : Prop where
  store : e.store = e'.store
  collected : e.collected = e'.collected

abbrev Agree {α β : Type} (L : Likeness backend) (A : α → β → Prop)
    (x : EStateM.Result Fault Engine α) (y : EStateM.Result Fault Engine β) : Prop :=
  Step.Agree A (Twin L) SameStore x y

section

variable {e e' : Engine} (twin : Twin L e e')

include twin

theorem Twin.sameStore : SameStore e e' := ⟨twin.node.sameStore, twin.collected⟩

theorem onNode_agree {α β : Type} {A : α → β → Prop} {step : RoundLedger.Session α}
    {step' : RoundLedger.Session β}
    (h : Session.Agree L A (step e.desk.node) (step' e'.desk.node)) :
    Agree L A (onNode step e) (onNode step' e') := by
  have hdesk : Step.Agree A (fun d d' : Desk => Node.Twin L d.node d'.node)
      (fun d d' => d.node.SameStore d'.node) (Desk.onNode step e.desk) (Desk.onNode step' e'.desk) := by
    unfold Desk.onNode
    exact .zoom h (fun _ _ hnode => hnode) (fun _ _ hstore => hstore)
  unfold onNode onDesk
  refine .zoom hdesk ?_ ?_
  · exact fun d d' hnode => { twin with node := hnode }
  · exact fun d d' hstore => ⟨hstore, twin.collected⟩

theorem access_agree {α : Type} (p : Program α) : Agree L Eq (access p e) (access p e') :=
  onNode_agree twin (Session.access_agree twin.node p)

theorem meter_agree (f : Meters → Meters) : Agree L Eq (meter f e) (meter f e') :=
  onNode_agree twin (Session.meter_agree twin.node f)

theorem collect_agree (tx : Transaction) : Agree L Eq (collect tx e) (collect tx e') :=
  .modify { twin with collected := congrArg (· ++ [tx]) twin.collected }

/-- The seed of an admission chooses an order and nothing else. -/
theorem prepare_agree {seed seed' : UInt64} (hseed : seed = seed' ∨ L.Loose) (minGasPrice : Word)
    (maxGasLimit : UInt64) :
    Agree L Eq (prepare seed minGasPrice maxGasLimit e) (prepare seed' minGasPrice maxGasLimit e') := by
  unfold prepare
  have htaken : Agree L Eq (takeCollected e) (takeCollected e') :=
    .ok twin.collected { twin with collected := rfl }
  refine .bind htaken ?_
  rintro collected _ e₁ e₁' - rfl twin₁
  refine .bind (meter_agree twin₁ _) ?_
  rintro _ _ e₂ e₂' - - twin₂
  refine .bind (access_agree twin₂ _) ?_
  rintro admission _ e₃ e₃' - rfl twin₃
  refine .bind (meter_agree twin₃ _) ?_
  rintro _ _ e₄ e₄' - - twin₄
  refine .bind (access_agree twin₄ _) ?_
  rintro range _ e₅ e₅' - rfl twin₅
  rw [get_bind, get_bind, twin₅.lastHeight]
  dsimp only
  refine .bind (meter_agree twin₅ _) ?_
  rintro _ _ e₆ e₆' - - twin₆
  refine .bind (.modify (R := Twin L) { twin₆ with collected := rfl, seed := hseed }) ?_
  rintro _ _ e₇ e₇' - - twin₇
  refine .bind (meter_agree twin₇ _) ?_
  rintro _ _ e₈ e₈' - - twin₈
  refine .bind (access_agree twin₈ _) ?_
  rintro length _ e₉ e₉' - rfl twin₉
  refine .bind (meter_agree twin₉ _) ?_
  rintro _ _ e₁₀ e₁₀' - - twin₁₀
  exact .pure rfl twin₁₀

theorem recordBlockHash_agree {number : UInt64} (hknown : L.Known number) (hash : Digest) :
    Agree L Eq (recordBlockHash number hash e) (recordBlockHash number hash e') :=
  onNode_agree twin (.modify { twin.node with hashes := L.insert hknown twin.node.hashes hash })

theorem execute_agree {dealer dealer' : UInt64 → Dealer} (hdealer : dealer = dealer' ∨ L.Loose)
    {block : Block} (hknown : L.Known block.number) :
    Agree L Eq (execute dealer block e) (execute dealer' block e') := by
  have halike : Rounds.DealAlike L (dealer e.reorderSeed) (dealer' e'.reorderSeed)
      (dealer e.reorderSeed).start (dealer' e'.reorderSeed).start := by
    obtain rfl | hloose := hdealer
    · obtain hseed | hloose := twin.seed
      · rw [hseed]
        exact .inl rfl
      · exact .inr hloose
    · exact .inr hloose
  unfold execute
  rw [get_bind, get_bind, pool, pool, ← twin.config, ← twin.runner]
  refine .bind (onNode_agree twin (Rounds.execute_agree twin.node twin.backend _ halike)) ?_
  rintro execution _ e₁ e₁' - rfl twin₁
  refine .bind (access_agree twin₁ _) ?_
  rintro _ _ e₂ e₂' - - twin₂
  refine .bind (recordBlockHash_agree twin₂ hknown _) ?_
  rintro _ _ e₃ e₃' - - twin₃
  refine .bind (.modify (R := Twin L) { twin₃ with lastHeight := rfl }) ?_
  rintro _ _ e₄ e₄' - - twin₄
  refine .bind (meter_agree twin₄ _) ?_
  rintro _ _ e₅ e₅' - - twin₅
  refine .bind (access_agree twin₅ _) ?_
  rintro length _ e₆ e₆' - rfl twin₆
  refine .bind (meter_agree twin₆ _) ?_
  rintro _ _ e₇ e₇' - - twin₇
  exact .modify { twin₇ with committed := rfl }

theorem register_agree (address : Address) (contract : SystemContract) :
    Agree L Eq (register address contract e) (register address contract e') := by
  unfold register
  rw [get_bind, get_bind, ← twin.runner]
  refine .bind (access_agree twin _) ?_
  rintro contracts _ e₁ e₁' - rfl twin₁
  refine .modify { twin₁ with runner := ?_, backend := twin₁.backend }
  dsimp only
  rw [twin₁.runner]

end

end Engine

/-! ## Read-only calls -/

namespace Engine

/-- Runs a step that nothing else waits for. When it stops with a fault, its overlay is dropped and the
history goes on. -/
def aside {α : Type} (step : Session α) : Session Unit := fun e =>
  match step e with
  | .ok _ e => .ok () e
  | .error _ e => .ok () { e with desk := { e.desk with node := e.desk.node.dropped } }

/-- A read-only call leaves an engine as it was, but some blocks count as used. -/
theorem aside_call (r : Runner) (request : CallRequest) {e : Engine}
    (idle : e.desk.node.view.overlays = []) :
    ∃ d, aside (onDesk (Desk.call r request)) e = .ok () { e with desk := d } ∧
      e.desk.node.Beside (fun number => (r.backend request).Asks number) d.node := by
  have hcall : e.desk.node.Spared (fun number => (r.backend request).Asks number) Desk.node
      (Desk.call r request e.desk) := Desk.call_spared idle
  unfold aside onDesk zoom
  cases hrun : Desk.call r request e.desk with
  | ok a d =>
    rw [hrun] at hcall
    exact ⟨d, rfl, hcall⟩
  | error fault d =>
    rw [hrun] at hcall
    exact ⟨_, rfl, hcall⟩

theorem Twin.beside {e e' : Engine} (twin : Twin L e e') {Asked : UInt64 → Prop} {d : Desk}
    (h : e.desk.node.Beside Asked d.node) (hfree : ∀ number, Asked number → L.Free number) :
    Twin L { e with desk := d } e' := by
  obtain ⟨hview, asked, hasked, hhashes⟩ := h
  refine { twin with node := ⟨hview.trans twin.node.view, hview ▸ twin.node.idle, ?_⟩ }
  dsimp only
  rw [hhashes]
  exact L.foldl_touch_left twin.node.hashes fun number hnumber => hfree number (hasked number hnumber)

end Engine

/-! ## Histories -/

/-- A step of an engine's history. -/
inductive Event
  | collect (tx : Transaction)
  | prepare (seed : UInt64) (minGasPrice : Word) (maxGasLimit : UInt64)
  /-- A block, with the dealers that hand out its work. -/
  | execute (dealer : UInt64 → Dealer) (block : Block)
  | recordBlockHash (number : UInt64) (hash : Digest)
  | register (address : Address) (contract : SystemContract)
  /-- A read-only call of the engine. -/
  | call (request : CallRequest) (block : Block) (estimate : Bool)
  /-- A read-only call on a pool that was handed out when other contracts were registered. -/
  | poolCall (contracts : ContractTable) (request : CallRequest)

namespace Event

def isCall : Event → Bool
  | call .. | poolCall .. => true
  | _ => false

/-- A read-only call that may ask for the hash of the block. -/
def Asks (backend : Backend) (number : UInt64) : Event → Prop
  | call request block estimate =>
    ∃ revision, (backend { request with block, estimate, revision }).Asks number
  | poolCall _ request => (backend request).Asks number
  | _ => False

/-- The block whose hash is recorded. -/
def recorded? : Event → Option UInt64
  | execute _ block => some block.number
  | recordBlockHash number _ => some number
  | _ => none

/-- Runs a step and answers the lists of results that it publishes. -/
def run : Event → Engine.Session (List (List CommittedResult))
  | collect tx => do
    Engine.collect tx
    return []
  | prepare seed minGasPrice maxGasLimit => do
    let _ ← Engine.prepare seed minGasPrice maxGasLimit
    return []
  | execute dealer block => do
    Engine.execute dealer block
    return [(← get).committed]
  | recordBlockHash number hash => do
    Engine.recordBlockHash number hash
    return []
  | register address contract => do
    Engine.register address contract
    return []
  | call request block estimate => do
    Engine.aside (Engine.call request block estimate)
    return []
  | poolCall contracts request => do
    let e ← get
    Engine.aside (Engine.onDesk (Desk.call { e.runner with contracts } request))
    return []

/-- Steps of two histories that do the same work, in orders that may differ when `loose` holds. The blocks
that they record are known. -/
inductive Alike (loose : Prop) (known : UInt64 → Prop) : Event → Event → Prop
  | collect (tx) : Alike loose known (.collect tx) (.collect tx)
  | prepare {seed seed' minGasPrice maxGasLimit} : seed = seed' ∨ loose →
      Alike loose known (.prepare seed minGasPrice maxGasLimit) (.prepare seed' minGasPrice maxGasLimit)
  | execute {dealer dealer' block} : dealer = dealer' ∨ loose → known block.number →
      Alike loose known (.execute dealer block) (.execute dealer' block)
  | recordBlockHash {number hash} : known number →
      Alike loose known (.recordBlockHash number hash) (.recordBlockHash number hash)
  | register (address contract) :
      Alike loose known (.register address contract) (.register address contract)

/-- Steps that differ only in the order in which work is handed out: in the seed of an admission, or in the
dealers of a block. -/
abbrev SameWork : Event → Event → Prop := Alike True fun _ => True

theorem Alike.refl {event : Event} (hcall : event.isCall = false) (loose : Prop) :
    event.Alike loose (fun _ => True) event := by
  cases event with
  | collect tx => exact .collect tx
  | prepare => exact .prepare (.inl rfl)
  | execute => exact .execute (.inl rfl) trivial
  | recordBlockHash => exact .recordBlockHash trivial
  | register address contract => exact .register address contract
  | call => cases hcall
  | poolCall => cases hcall

theorem Alike.mono {loose loose' : Prop} {known known' : UInt64 → Prop} {event event' : Event}
    (h : event.Alike loose known event') (hloose : loose → loose')
    (hknown : ∀ number, event.recorded? = some number → known' number) :
    event.Alike loose' known' event' := by
  cases h with
  | collect tx => exact .collect tx
  | prepare hseed => exact .prepare (hseed.imp_right hloose)
  | execute hdealer _ => exact .execute (hdealer.imp_right hloose) (hknown _ rfl)
  | recordBlockHash _ => exact .recordBlockHash (hknown _ rfl)
  | register address contract => exact .register address contract

theorem Alike.run_agree {event event' : Event} (h : event.Alike L.Loose L.Known event')
    {e e' : Engine} (twin : Engine.Twin L e e') : Engine.Agree L Eq (event.run e) (event'.run e') := by
  cases h with
  | collect tx =>
    refine .bind (Engine.collect_agree twin tx) ?_
    rintro _ _ e₁ e₁' - - twin₁
    exact .pure rfl twin₁
  | prepare hseed =>
    refine .bind (Engine.prepare_agree twin hseed _ _) ?_
    rintro _ _ e₁ e₁' - - twin₁
    exact .pure rfl twin₁
  | execute hdealer hknown =>
    refine .bind (Engine.execute_agree twin hdealer hknown) ?_
    rintro _ _ e₁ e₁' - - twin₁
    rw [get_bind, get_bind, twin₁.committed]
    exact .pure rfl twin₁
  | recordBlockHash hknown =>
    refine .bind (Engine.recordBlockHash_agree twin hknown _) ?_
    rintro _ _ e₁ e₁' - - twin₁
    exact .pure rfl twin₁
  | register address contract =>
    refine .bind (Engine.register_agree twin address contract) ?_
    rintro _ _ e₁ e₁' - - twin₁
    exact .pure rfl twin₁

theorem run_call {event : Event} (hcall : event.isCall = true) {e : Engine}
    (idle : e.desk.node.view.overlays = []) :
    ∃ d, event.run e = .ok [] { e with desk := d } ∧
      e.desk.node.Beside (fun number => event.Asks e.runner.backend number) d.node := by
  cases event with
  | call request block estimate =>
    obtain ⟨d, haside, hview, asked, hasked, hhashes⟩ := Engine.aside_call e.runner
      { request with block, estimate, revision := e.runner.revision } idle
    refine ⟨d, ?_, hview, asked, fun number hnumber => ⟨_, hasked number hnumber⟩, hhashes⟩
    have hruns : Engine.aside (Engine.call request block estimate) e = .ok () { e with desk := d } := by
      rw [Engine.aside, Engine.call, get_bind]
      exact haside
    rw [run, bind_of_ok hruns]
    rfl
  | poolCall contracts request =>
    obtain ⟨d, haside, hbeside⟩ := Engine.aside_call { e.runner with contracts } request idle
    refine ⟨d, ?_, hbeside⟩
    rw [run, get_bind, bind_of_ok haside]
    rfl
  | _ => cases hcall

end Event

namespace Engine

/-- What becomes of a history. It stops at the first step that stops with a fault. -/
structure Outcome where
  /-- The results of every block that was run, the first block in front. -/
  published : List (List CommittedResult) := []
  stopped : Bool := false
  last : Engine

def play : List Event → Engine → Outcome
  | [], e => { last := e }
  | event :: rest, e =>
    match event.run e with
    | .ok published e =>
      let outcome := play rest e
      { outcome with published := published ++ outcome.published }
    | .error _ e => { stopped := true, last := e }

/-- The same results were published, and the same store and collected transactions are left. -/
structure Outcome.Agrees (o o' : Outcome) : Prop where
  published : o.published = o'.published
  stopped : o.stopped = o'.stopped
  store : o.last.store = o'.last.store
  collected : o.last.collected = o'.last.collected

/-- Two histories with the same work, with calls in the first one. -/
inductive Aligned (L : Likeness backend) : List Event → List Event → Prop
  | nil : Aligned L [] []
  | step {event event' rest rest'} : event.Alike L.Loose L.Known event' → Aligned L rest rest' →
      Aligned L (event :: rest) (event' :: rest')
  | call {event rest rest'} : event.isCall = true →
      (∀ number, event.Asks backend number → L.Free number) → Aligned L rest rest' →
      Aligned L (event :: rest) rest'

theorem Aligned.agrees {history history' : List Event} (h : Aligned L history history')
    {e e' : Engine} (twin : Twin L e e') : (play history e).Agrees (play history' e') := by
  induction h generalizing e e' with
  | nil => exact ⟨rfl, rfl, twin.sameStore.store, twin.sameStore.collected⟩
  | @step event event' rest rest' halike _ ih =>
    have hagree := halike.run_agree twin
    unfold play
    generalize event.run e = outcome, event'.run e' = outcome' at hagree
    cases hagree with
    | ok hsame twin₁ =>
      obtain ⟨hpublished, hstopped, hstore, hcollected⟩ := ih twin₁
      exact ⟨by dsimp only; rw [hsame, hpublished], hstopped, hstore, hcollected⟩
    | error hsame => exact ⟨rfl, rfl, hsame.store, hsame.collected⟩
  | @call event rest rest' hcall hfree _ ih =>
    obtain ⟨d, hrun, hbeside⟩ := event.run_call hcall twin.node.idle
    obtain ⟨hpublished, hstopped, hstore, hcollected⟩ :=
      ih (twin.beside hbeside fun number hasks => hfree number (twin.backend ▸ hasks))
    rw [play, hrun]
    exact ⟨hpublished, hstopped, hstore, hcollected⟩

/-- The blocks whose hashes a history records. -/
def recorded (history : List Event) : List UInt64 := history.filterMap Event.recorded?

theorem mem_recorded_head {event : Event} {number : UInt64} (h : event.recorded? = some number)
    (rest : List Event) : number ∈ recorded (event :: rest) :=
  List.mem_filterMap.2 ⟨event, List.mem_cons_self, h⟩

theorem mem_recorded_tail {rest : List Event} {number : UInt64} (h : number ∈ recorded rest)
    (event : Event) : number ∈ recorded (event :: rest) := by
  obtain ⟨other, hother, hnumber⟩ := List.mem_filterMap.1 h
  exact List.mem_filterMap.2 ⟨other, List.mem_cons_of_mem _ hother, hnumber⟩

theorem Aligned.filter {history : List Event} (hknown : ∀ number ∈ recorded history, L.Known number)
    (hfree : ∀ event ∈ history, ∀ number, event.Asks backend number → L.Free number) :
    Aligned L history (history.filter fun event => !event.isCall) := by
  induction history with
  | nil => exact .nil
  | cons event rest ih =>
    have hrest : Aligned L rest (rest.filter fun event => !event.isCall) :=
      ih (fun number hnumber => hknown number (mem_recorded_tail hnumber event)) fun other hother =>
        hfree other (List.mem_cons_of_mem _ hother)
    cases hcall : event.isCall with
    | true =>
      rw [List.filter_cons_of_neg (by simp [hcall])]
      exact .call hcall (hfree event List.mem_cons_self) hrest
    | false =>
      rw [List.filter_cons_of_pos (by simp [hcall])]
      refine .step ((Event.Alike.refl hcall L.Loose).mono id fun number hnumber => ?_) hrest
      exact hknown number (mem_recorded_head hnumber rest)

theorem Aligned.of_sameWork (hloose : L.Loose) {history history' : List Event}
    (hknown : ∀ number ∈ recorded history, L.Known number)
    (h : List.Forall₂ Event.SameWork history history') : Aligned L history history' := by
  induction h with
  | nil => exact .nil
  | @cons event event' rest rest' hsame _ ih =>
    refine .step (hsame.mono (fun _ => hloose) fun number hnumber => ?_)
      (ih fun number hnumber => hknown number (mem_recorded_tail hnumber event))
    exact hknown number (mem_recorded_head hnumber rest)

/-- The engine is between two steps. -/
structure Idle (e : Engine) : Prop where
  overlays : e.desk.node.view.overlays = []
  distinct : e.desk.node.hashes.numbers.Nodup

/-- There is room for every block whose hash is held or recorded. -/
def Roomy (e : Engine) (history : List Event) : Prop :=
  (e.desk.node.hashes.numbers ++ recorded history).toFinset.card ≤ BlockHashes.capacity

instance (e : Engine) (history : List Event) : Decidable (Roomy e history) :=
  inferInstanceAs (Decidable (_ ≤ _))

theorem Idle.twin {e : Engine} (idle : e.Idle) {L : Likeness e.runner.backend}
    (hrel : L.Rel e.desk.node.hashes e.desk.node.hashes) : Twin L e e :=
  ⟨⟨rfl, idle.overlays, hrel⟩, rfl, rfl, rfl, rfl, rfl, rfl, .inl rfl⟩

theorem Idle.twin_equal {e : Engine} (idle : e.Idle) : Twin (.equal e.runner.backend) e e :=
  idle.twin ⟨rfl, idle.distinct⟩

theorem start_node {config : EngineConfig} {base : Store} {backend : Backend}
    {precompiles : PrecompileTable} {e : Engine}
    (h : start config base backend precompiles = .ok (.ok e)) : e.desk.node = { view := { base } } := by
  unfold start Desk.start at h
  cases hconfig : config.validate with
  | error cause =>
    rw [hconfig] at h
    cases h
  | ok _ =>
    rw [hconfig] at h
    cases hslots : Slots.check config.slots.toNat with
    | error fault =>
      rw [hslots] at h
      cases h
    | ok _ =>
      rw [hslots] at h
      cases hroom : Room.make collectedRoom config.collectedCapacity.toNat with
      | error fault =>
        rw [hroom] at h
        cases h
      | ok _ =>
        rw [hroom] at h
        cases h
        rfl

theorem start_idle {config : EngineConfig} {base : Store} {backend : Backend}
    {precompiles : PrecompileTable} {e : Engine}
    (h : start config base backend precompiles = .ok (.ok e)) : e.Idle := by
  have hnode := start_node h
  constructor
  · rw [hnode]
  · rw [hnode]
    exact List.nodup_nil

/-- A step that does not stop with a fault leaves the engine between two steps again. -/
theorem Idle.run {event : Event} {e e' : Engine} {published : List (List CommittedResult)}
    (idle : e.Idle) (h : event.run e = .ok published e') : e'.Idle := by
  cases hcall : event.isCall with
  | true =>
    obtain ⟨d, hrun, hview, asked, -, hhashes⟩ := event.run_call hcall idle.overlays
    rw [hrun] at h
    cases h
    refine ⟨hview ▸ idle.overlays, ?_⟩
    dsimp only
    rw [hhashes]
    exact BlockHashes.nodup_foldl_touch idle.distinct asked
  | false =>
    have hsame : event.Alike (Likeness.equal e.runner.backend).Loose (fun _ => True) event := .refl hcall _
    have hagree := hsame.run_agree idle.twin_equal
    rw [h] at hagree
    cases hagree with
    | ok _ twin => exact ⟨twin.node.idle, twin.node.hashes.2⟩

theorem Idle.play {history : List Event} {e : Engine} (idle : e.Idle)
    (h : (play history e).stopped = false) : (play history e).last.Idle := by
  induction history generalizing e with
  | nil => exact idle
  | cons event rest ih =>
    rw [Engine.play] at h ⊢
    cases hrun : event.run e with
    | ok published e₁ =>
      rw [hrun] at h
      exact ih (idle.run hrun) h
    | error fault e₁ =>
      rw [hrun] at h
      cases h

theorem Idle.twin_roomy {e : Engine} (idle : e.Idle) {history : List Event} (hroom : e.Roomy history) :
    Twin (.roomy e.runner.backend _ hroom) e e :=
  idle.twin (.refl idle.distinct fun _ hnumber =>
    List.mem_toFinset.2 (List.mem_append_left _ hnumber))

/-- Read-only calls leave no trace, provided that they ask for no block hash or that no block hash is
ever pushed out. -/
theorem calls_unobserved {e : Engine} (idle : e.Idle) (history : List Event)
    (h : (∀ event ∈ history, ∀ number, ¬ event.Asks e.runner.backend number) ∨ e.Roomy history) :
    (play history e).Agrees (play (history.filter fun event => !event.isCall) e) := by
  obtain hsilent | hroom := h
  · have haligned : Aligned (.equal e.runner.backend) history _ :=
      .filter (fun _ _ => trivial) hsilent
    exact haligned.agrees idle.twin_equal
  · have haligned : Aligned (.roomy e.runner.backend _ hroom) history _ :=
      .filter (fun _ hnumber => List.mem_toFinset.2 (List.mem_append_right _ hnumber))
        fun _ _ _ _ => trivial
    exact haligned.agrees (idle.twin_roomy hroom)

/-- The order in which the work of the rounds is handed out leaves no trace, provided that the backend asks
for no block hash or that no block hash is ever pushed out. -/
theorem order_unobserved {e : Engine} (idle : e.Idle) {history history' : List Event}
    (same : List.Forall₂ Event.SameWork history history')
    (h : (∀ request number, ¬ (e.runner.backend request).Asks number) ∨ e.Roomy history) :
    (play history e).Agrees (play history' e) := by
  obtain hsilent | hroom := h
  · have haligned : Aligned (.equal e.runner.backend) history history' :=
      .of_sameWork hsilent (fun _ _ => trivial) same
    exact haligned.agrees idle.twin_equal
  · have haligned : Aligned (.roomy e.runner.backend _ hroom) history history' :=
      .of_sameWork trivial (fun _ hnumber => List.mem_toFinset.2 (List.mem_append_right _ hnumber)) same
    exact haligned.agrees (idle.twin_roomy hroom)

/-! ## Block hashes that are pushed out -/

theorem published_append {history : List Event} {e : Engine} (h : (play history e).stopped = false)
    (rest : List Event) : (play (history ++ rest) e).published
      = (play history e).published ++ (play rest (play history e).last).published := by
  induction history generalizing e with
  | nil => rfl
  | cons event history ih =>
    rw [play] at h
    rw [List.cons_append, play, play]
    cases hrun : event.run e with
    | ok published e₁ =>
      rw [hrun] at h
      dsimp only
      rw [ih h, List.append_assoc]
    | error fault e₁ =>
      rw [hrun] at h
      cases h

def withHashes (e : Engine) (hashes : BlockHashes) : Engine :=
  { e with desk := { e.desk with node := { e.desk.node with hashes } } }

/-- The numbers of `count` blocks from the block `first` on. -/
def blocksFrom (first count : Nat) : List UInt64 :=
  (List.range count).map fun n => UInt64.ofNat (n + first)

/-- Records one hash for all of the blocks. -/
def records (numbers : List UInt64) : List Event := numbers.map (.recordBlockHash · 1)

theorem play_records (numbers : List UInt64) (rest : List Event) (e : Engine) :
    play (records numbers ++ rest) e
      = play rest (e.withHashes (numbers.foldl (fun h number => h.insert number 1) e.desk.node.hashes)) := by
  induction numbers generalizing e with
  | nil => rfl
  | cons number numbers ih => exact ih _

/-- What is published when many blocks are recorded in the middle of a history. -/
theorem published_records (blocks : List (UInt64 × Digest)) {history rest : List Event} {e : Engine}
    {first count : Nat} (hstopped : (play history e).stopped = false)
    (hrecent : (play history e).last.desk.node.hashes.recent = blocks)
    (hfirst : first + count < UInt64.size)
    (hblocks : (blocks.map (·.1)).Nodup ∧ (∀ block ∈ blocks, block.1.toNat < first) ∧
      blocks.length ≤ BlockHashes.capacity) :
    (play (history ++ (records (blocksFrom first count) ++ rest)) e).published
      = (play history e).published ++ (play rest ((play history e).last.withHashes
          ⟨(((blocksFrom first count).map (·, 1)).reverse ++ blocks).take
            BlockHashes.capacity⟩)).published := by
  obtain ⟨hdistinct, hbelow, hfits⟩ := hblocks
  have hnumber {n : Nat} (hn : n ∈ List.range count) : (UInt64.ofNat (n + first)).toNat = n + first := by
    rw [List.mem_range] at hn
    exact UInt64.toNat_ofNat_of_lt' (by omega)
  have hnew : (blocksFrom first count).Nodup := by
    refine List.nodup_range.map_on fun n hn n' hn' hsame => ?_
    have hvalues := congrArg UInt64.toNat hsame
    rw [hnumber hn, hnumber hn'] at hvalues
    omega
  have hall : (blocksFrom first count ++ (play history e).last.desk.node.hashes.numbers).Nodup := by
    rw [BlockHashes.numbers, hrecent, List.nodup_append]
    refine ⟨hnew, hdistinct, fun number hmem other hother hsame => ?_⟩
    obtain ⟨n, hn, rfl⟩ := List.mem_map.1 hmem
    obtain ⟨block, hblock, rfl⟩ := List.mem_map.1 hother
    have hless := hbelow block hblock
    rw [← hsame, hnumber hn] at hless
    omega
  have hcache := BlockHashes.recent_foldl_insert hall (by rw [hrecent]; exact hfits) 1
  rw [hrecent] at hcache
  rw [published_append hstopped, play_records, ← hcache]

end Engine

/-! ## Questions about blocks -/

/-- Asks for the hashes of the blocks that are named, and answers the last byte of each. -/
def HostProgram.askAll : Bytes → HostProgram Bytes
  | [] => return []
  | name :: rest => do
    let hash ← HostProgram.query (.blockHash name.toUInt64)
    let answers ← askAll rest
    return UInt8.ofNat hash.toNat :: answers

/-- A backend that answers the hashes of the blocks named in the input. -/
def Backend.asking : Backend := fun request => do
  let output ← HostProgram.askAll request.input
  return { status := .success, gasLeft := request.gasLimit, output }

def Dealer.backwards : Dealer where
  State := Unit
  start := ()
  deal := fun s work => (work.reverse, s)
  deal_perm := fun _ work => List.reverse_perm work

namespace Engine

/-- Accounts at 1 and 2 and an empty queue. -/
def quizzed : Engine :=
  let record : Bytes := Account.encode { balance := 1000000 }
  let base : Store := ((∅ : Store).insert (Key.account 1).bytes record).insert (Key.account 2).bytes record
  { runner := { backend := .asking }
    desk := { node := { view := { base } }, slots := .ofSize 1 } }

/-- A transaction that asks for the blocks that are named. -/
def question (sender : Address) (nonce : UInt64) (names : Bytes) (height : UInt64) : Transaction :=
  { sender, destination := some 5, nonce, value := 0, gasPrice := 1, gasLimit := 100000, data := names,
    height }

def questionCall (names : Bytes) : Event :=
  .call { sender := 1, destination := some 5, nonce := 0, value := 0, gasPrice := 1, gasLimit := 100000,
          input := names, block := {}, revision := 9, estimate := false } {} false

theorem quizzed_idle : quizzed.Idle := ⟨rfl, List.nodup_nil⟩

/-- A call asks for a block before the engine runs a transaction that asks for two. -/
def callFirst (later : List UInt64) : List Event :=
  [.recordBlockHash 0 1, .recordBlockHash 1 1, .collect (question 1 0 [0, 1] 250), .prepare 0 0 100000,
    questionCall [0]] ++ (records later ++ [.execute (fun _ => .inOrder) { number := 257 }])

def outputs (o : Outcome) : List (List Bytes) := o.published.map fun results => results.map (·.output)

theorem filter_callFirst (later : List UInt64) :
    (callFirst later).filter (fun event => !event.isCall)
      = [.recordBlockHash 0 1, .recordBlockHash 1 1, .collect (question 1 0 [0, 1] 250),
          .prepare 0 0 100000] ++ (records later ++ [.execute (fun _ => .inOrder) { number := 257 }]) := by
  have hrecords : (records later).filter (fun event => !event.isCall) = records later := by
    simp [records, Event.isCall]
  rw [callFirst, List.filter_append, List.filter_append, hrecords]
  rfl

theorem callFirst_unobserved :
    quizzed.Idle ∧ quizzed.Roomy (callFirst [2, 3]) ∧
      outputs (play (callFirst [2, 3]) quizzed) = [[[1, 1]]] := by
  have hroom : quizzed.Roomy (callFirst [2, 3]) := by decide +kernel
  have hagrees := calls_unobserved quizzed_idle (callFirst [2, 3]) (.inr hroom)
  refine ⟨quizzed_idle, hroom, ?_⟩
  rw [outputs, hagrees.published, filter_callFirst]
  decide +kernel

/-- With 255 more blocks one is pushed out. It is the one that the call did not ask for. -/
theorem callFirst_observed :
    quizzed.Idle ∧ outputs (play (callFirst (blocksFrom 2 255)) quizzed) = [[[1, 0]]] ∧
      outputs (play ((callFirst (blocksFrom 2 255)).filter fun event => !event.isCall) quizzed)
        = [[[0, 1]]] := by
  refine ⟨quizzed_idle, ?_, ?_⟩
  · rw [outputs, callFirst, published_records [(0, 1), (1, 1)]]
    · decide +kernel
    · decide +kernel
    · decide +kernel
    · decide
    · simp [BlockHashes.capacity]
  · rw [outputs, filter_callFirst, published_records [(1, 1), (0, 1)]]
    · decide +kernel
    · decide +kernel
    · decide +kernel
    · decide
    · simp [BlockHashes.capacity]

/-- Two transactions of one block ask for a block each, and a third one asks for both later on. -/
def orderFirst (dealer : Dealer) (later : List UInt64) : List Event :=
  [.recordBlockHash 0 1, .recordBlockHash 1 1, .collect (question 1 0 [0] 250),
      .collect (question 2 0 [1] 250), .prepare 0 0 100000]
    ++ .execute (fun _ => dealer) { number := 2 }
    :: [.collect (question 1 1 [0, 1] 250), .prepare 0 0 100000]
    ++ (records later ++ [.execute (fun _ => .inOrder) { number := 257 }])

theorem orderFirst_sameWork (dealer dealer' : Dealer) (later : List UInt64) :
    List.Forall₂ Event.SameWork (orderFirst dealer later) (orderFirst dealer' later) := by
  have hrefl {history : List Event} (h : ∀ event ∈ history, event.isCall = false) :
      List.Forall₂ Event.SameWork history history :=
    List.forall₂_same.2 fun event hevent => .refl (h event hevent) True
  have hlater : ∀ event ∈ records later ++ [.execute (fun _ => .inOrder) { number := 257 }],
      event.isCall = false := by
    simp only [List.mem_append, records, List.mem_map, List.mem_singleton]
    rintro _ (⟨number, -, rfl⟩ | rfl) <;> rfl
  refine List.rel_append (List.rel_append (hrefl ?_) (.cons ?_ (hrefl ?_))) (hrefl hlater)
  · simp [Event.isCall]
  · exact .execute (.inr trivial) trivial
  · simp [Event.isCall]

theorem orderFirst_unobserved :
    quizzed.Idle ∧ List.Forall₂ Event.SameWork (orderFirst .backwards [3]) (orderFirst .inOrder [3]) ∧
      quizzed.Roomy (orderFirst .backwards [3]) ∧
      outputs (play (orderFirst .backwards [3]) quizzed) = [[[1], [1]], [[1, 1]]] := by
  have hsame := orderFirst_sameWork .backwards .inOrder [3]
  have hroom : quizzed.Roomy (orderFirst .backwards [3]) := by decide +kernel
  have hagrees := order_unobserved quizzed_idle hsame (.inr hroom)
  refine ⟨quizzed_idle, hsame, hroom, ?_⟩
  rw [outputs, hagrees.published]
  decide +kernel

/-- With 254 more blocks one is pushed out, the one that was asked for first. -/
theorem orderFirst_observed :
    quizzed.Idle ∧
      List.Forall₂ Event.SameWork (orderFirst .inOrder (blocksFrom 3 254))
        (orderFirst .backwards (blocksFrom 3 254)) ∧
      outputs (play (orderFirst .inOrder (blocksFrom 3 254)) quizzed) = [[[1], [1]], [[0, 1]]] ∧
      outputs (play (orderFirst .backwards (blocksFrom 3 254)) quizzed) = [[[1], [1]], [[1, 0]]] := by
  refine ⟨quizzed_idle, orderFirst_sameWork _ _ _, ?_, ?_⟩
  · rw [outputs, orderFirst, published_records [(2, 0), (1, 1), (0, 1)]]
    · decide +kernel
    · decide +kernel
    · decide +kernel
    · decide
    · simp [BlockHashes.capacity]
  · rw [outputs, orderFirst, published_records [(2, 0), (0, 1), (1, 1)]]
    · decide +kernel
    · decide +kernel
    · decide +kernel
    · decide
    · simp [BlockHashes.capacity]

end Engine

end RoundLedger
