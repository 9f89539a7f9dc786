import RoundLedger.Proofs.Recency
import RoundLedger.Proofs.Rounds

/-!
# Blocks that agree

Two nodes with the same state that answer alike about recent blocks run a block alike, also when they hand
out the work of each round in different orders. Either both stop with a fault, or both publish the same and
are left with the same state, and they answer alike again.
-/

namespace RoundLedger

namespace Step

variable {ε σ τ α β γ δ : Type}

/-! ## Steps at the front -/

theorem get_bind (f : σ → EStateM ε σ α) (s : σ) : (get >>= f) s = f s s := rfl

theorem modify_bind (f : σ → σ) (g : PUnit → EStateM ε σ α) (s : σ) :
    (modify f >>= g) s = g ⟨⟩ (f s) := rfl

theorem bind_of_ok {x : EStateM ε σ α} {s t : σ} {a : α} (h : x s = .ok a t)
    (f : α → EStateM ε σ γ) : (x >>= f) s = f a t := by
  change EStateM.bind x f s = _
  rw [EStateM.bind, h]

theorem bind_error {x : EStateM ε σ α} {s t : σ} {e : ε} (h : x s = .error e t)
    (f : α → EStateM ε σ γ) : (x >>= f) s = .error e t := by
  change EStateM.bind x f s = _
  rw [EStateM.bind, h]

/-! ## Steps that agree -/

/-- Two steps both end well, with related answers in related states, or both stop with a fault. -/
inductive Agree (A : α → β → Prop) (R E : σ → τ → Prop) :
    EStateM.Result ε σ α → EStateM.Result ε τ β → Prop
  | ok {a b s t} : A a b → R s t → Agree A R E (.ok a s) (.ok b t)
  | error {e e' s t} : E s t → Agree A R E (.error e s) (.error e' t)

variable {A : α → β → Prop} {B : γ → δ → Prop} {R R' E : σ → τ → Prop}

theorem Agree.bind {x : EStateM ε σ α} {y : EStateM ε τ β} {f : α → EStateM ε σ γ}
    {g : β → EStateM ε τ δ} {s : σ} {t : τ} (h : Agree A R E (x s) (y t))
    (next : ∀ a b s' t', x s = .ok a s' → A a b → R s' t' → Agree B R' E (f a s') (g b t')) :
    Agree B R' E ((x >>= f) s) ((y >>= g) t) := by
  generalize hx : x s = outcome, hy : y t = outcome' at h
  cases h with
  | ok ha hr =>
    rw [bind_of_ok hx, bind_of_ok hy]
    exact next _ _ _ _ hx ha hr
  | error he =>
    rw [bind_error hx, bind_error hy]
    exact .error he

theorem Agree.pure {a : α} {b : β} {s : σ} {t : τ} (ha : A a b) (hr : R s t) :
    Agree A R E ((pure a : EStateM ε σ α) s) ((pure b : EStateM ε τ β) t) := .ok ha hr

theorem Agree.modify {f : σ → σ} {g : τ → τ} {s : σ} {t : τ} (hr : R (f s) (g t)) :
    Agree Eq R E ((modify f : EStateM ε σ PUnit) s) ((modify g : EStateM ε τ PUnit) t) := .ok rfl hr

theorem Agree.foldlM {step step' : α → γ → EStateM ε σ α} {s : σ} {t : σ} {R E : σ → σ → Prop}
    (items : List γ) (a : α) (hr : R s t)
    (next : ∀ a item s t, R s t → Agree Eq R E (step a item s) (step' a item t)) :
    Agree Eq R E (items.foldlM step a s) (items.foldlM step' a t) := by
  induction items generalizing a s t with
  | nil => exact .pure rfl hr
  | cons item rest ih =>
    rw [List.foldlM_cons, List.foldlM_cons]
    refine .bind (next a item s t hr) ?_
    rintro a _ s' t' - rfl hr'
    exact ih a hr'

theorem Agree.zoom {υ φ : Type} {part : υ → σ} {part' : φ → τ} {restore : υ → σ → υ}
    {restore' : φ → τ → φ} {x : EStateM ε σ α} {y : EStateM ε τ β} {s : υ} {t : φ}
    {Q F : υ → φ → Prop} (h : Agree A R E (x (part s)) (y (part' t)))
    (ok : ∀ s' t', R s' t' → Q (restore s s') (restore' t t'))
    (error : ∀ s' t', E s' t' → F (restore s s') (restore' t t')) :
    Agree A Q F (zoom part restore x s) (zoom part' restore' y t) := by
  unfold RoundLedger.zoom
  generalize x (part s) = outcome, y (part' t) = outcome' at h
  cases h with
  | ok ha hr => exact .ok ha (ok _ _ hr)
  | error he => exact .error (error _ _ he)

end Step

open Step Program

/-! ## Views without overlays -/

namespace View

theorem get_of_idle {v : View} (idle : v.overlays = []) (key : Bytes) : (v.get key).2 = v := by
  obtain ⟨base, overlays⟩ := v
  cases idle
  rfl

theorem overlays_put {v : View} (idle : v.overlays = []) (key : Bytes) (value : Option Bytes) :
    (v.put key value).overlays = [] := by
  obtain ⟨base, overlays⟩ := v
  cases idle
  rfl

theorem overlays_apply {v : View} (idle : v.overlays = []) (o : Overlay) :
    (v.apply o).overlays = [] := by
  rw [apply, Std.ExtTreeMap.foldl_eq_foldl_toList]
  generalize o.writes.toList = changes
  induction changes generalizing v with
  | nil => exact idle
  | cons change rest ih => exact ih (overlays_put idle _ _)

end View

namespace Program

variable {α : Type}

theorem overlays_of_run {p : Program α} {v w : View} {a : α} (h : p.run v = .ok a w)
    (idle : v.overlays = []) : w.overlays = [] := by
  induction p generalizing v with
  | done b =>
    obtain ⟨-, rfl⟩ := pure_ok.1 h
    exact idle
  | fail fault => exact absurd h throw_ok
  | get key next ih =>
    rw [run_get, View.get_of_idle idle] at h
    exact ih _ h idle
  | put key value next ih => exact ih h (View.overlays_put idle key value)

/-- A program on the only overlay of a view leaves the store below as it is. -/
theorem run_single (p : Program α) (base : Store) (o : Overlay) :
    p.run ⟨base, [o]⟩ = match p.above (⟨base, []⟩ : View).contents o with
      | .ok a o => .ok a ⟨base, [o]⟩
      | .error fault o => .error fault ⟨base, [o]⟩ := by
  induction p generalizing o with
  | done a => rfl
  | fail fault => rfl
  | get key next ih =>
    rw [run_get]
    cases hkey : o.writes[key]? with
    | some value =>
      have hget : (View.get ⟨base, [o]⟩ key).2 = ⟨base, [o]⟩ := by simp [View.get, View.lookUp, hkey]
      have hvalue : View.value ⟨base, [o]⟩ key = value := by simp [View.value, View.valueIn, hkey]
      rw [hget, hvalue, above_get_some hkey]
      exact ih value o
    | none =>
      have hget : (View.get ⟨base, [o]⟩ key).2 = ⟨base, [o.noteRead key]⟩ := by
        simp [View.get, View.lookUp, hkey]
      have hvalue : View.value ⟨base, [o]⟩ key = (⟨base, []⟩ : View).contents key := by
        simp [View.contents, View.value, View.valueIn, hkey]
      rw [hget, hvalue, above_get_none hkey]
      exact ih _ (o.noteRead key)
  | put key value next ih => exact ih (o.write key value)

end Program

/-! ## Nodes -/

variable {backend : Backend} {L : Likeness backend}

/-- The same state with no overlay open, and lists of recent blocks that answer alike. -/
structure Node.Twin (L : Likeness backend) (n m : Node) : Prop where
  view : n.view = m.view
  idle : n.view.overlays = []
  hashes : L.Rel n.hashes m.hashes

def Node.SameStore (n m : Node) : Prop := n.view.base = m.view.base

/-- Steps of two nodes agree. After faults the stores are the same. -/
abbrev Session.Agree {α β : Type} (L : Likeness backend) (A : α → β → Prop)
    (x : EStateM.Result Fault Node α) (y : EStateM.Result Fault Node β) : Prop :=
  Step.Agree A (Node.Twin L) Node.SameStore x y

section

variable {n m : Node} (twin : Node.Twin L n m)

include twin

theorem Node.Twin.sameStore : n.SameStore m := congrArg View.base twin.view

theorem Session.access_agree {α : Type} (p : Program α) :
    Session.Agree L Eq (Session.access p n) (Session.access p m) := by
  unfold access zoom
  rw [← twin.view]
  cases hrun : p.run n.view with
  | ok a v => exact .ok rfl ⟨rfl, overlays_of_run hrun twin.idle, twin.hashes⟩
  | error fault v => exact .error rfl

theorem Session.meter_agree (f : Meters → Meters) :
    Session.Agree L Eq (Session.meter f n) (Session.meter f m) :=
  .modify ⟨twin.view, twin.idle, twin.hashes⟩

end

/-! ## Transactions -/

theorem Session.hear_all (isPrecompile : Address → Bool) (conversations : List Conversation) (n : Node) :
    ∃ m, conversations.forM (Session.hear isPrecompile) n = .ok ⟨⟩ m ∧ m.view = n.view ∧
      m.hashes = (conversations.flatMap (·.blocksAsked)).foldl BlockHashes.touch n.hashes := by
  induction conversations generalizing n with
  | nil => exact ⟨n, rfl, rfl, rfl⟩
  | cons c rest ih =>
    obtain ⟨m, hrest, hview, hhashes⟩ := ih _
    refine ⟨m, hrest, hview, ?_⟩
    rw [hhashes, List.flatMap_cons, List.foldl_append]

/-- Runs a program on an overlay of its own, which is taken off again before its conversations are
recorded. -/
def Session.onOverlay {α β : Type} (isPrecompile : Address → Bool) (p : Program (α × List Conversation))
    (answer : α → Overlay → β) : Session β := do
  openOverlay
  let (a, conversations) ← access p
  let o ← takeOverlay
  conversations.forM (hear isPrecompile)
  return answer a o

/-- The view is as it was, unless the program stops with a fault. Then the overlay stays open. -/
theorem Session.onOverlay_idle {α β : Type} (isPrecompile : Address → Bool)
    (p : Program (α × List Conversation)) (answer : α → Overlay → β) {n : Node}
    (idle : n.view.overlays = []) :
    match p.above n.view.contents {} with
    | .ok (a, conversations) o => ∃ m, onOverlay isPrecompile p answer n = .ok (answer a o) m ∧
        m.view = n.view ∧
        m.hashes = (conversations.flatMap (·.blocksAsked)).foldl BlockHashes.touch n.hashes
    | .error fault o =>
      onOverlay isPrecompile p answer n = .error fault { n with view := ⟨n.view.base, [o]⟩ } := by
  obtain ⟨⟨base, overlays⟩, hashes, meters, journal⟩ := n
  cases idle
  have hrun := run_single p base {}
  unfold onOverlay
  rw [openOverlay, modify_bind, View.opened]
  cases habove : p.above (⟨base, []⟩ : View).contents {} with
  | ok out o =>
    rw [habove] at hrun
    have haccess : access p { view := ⟨base, [{}]⟩, hashes, meters, journal }
        = .ok out { view := ⟨base, [o]⟩, hashes, meters, journal } := by
      rw [access, zoom, hrun]
    have htake : takeOverlay { view := ⟨base, [o]⟩, hashes, meters, journal }
        = .ok o { view := ⟨base, []⟩, hashes, meters, journal } := rfl
    obtain ⟨m, hhear, hview, hhashes⟩ := hear_all isPrecompile out.2
      { view := ⟨base, []⟩, hashes, meters, journal }
    rw [bind_of_ok haccess]
    dsimp only
    rw [bind_of_ok htake, bind_of_ok hhear]
    exact ⟨m, rfl, hview, hhashes⟩
  | error fault o =>
    rw [habove] at hrun
    have haccess : access p { view := ⟨base, [{}]⟩, hashes, meters, journal }
        = .error fault { view := ⟨base, [o]⟩, hashes, meters, journal } := by
      rw [access, zoom, hrun]
    exact bind_error haccess _

namespace Runner

variable {r : Runner} {block : Block}

/-- The output of an entry with its position, and the blocks asked for. -/
abbrev Try := (UInt64 × CommittedResult × Overlay) × List UInt64

/-- What an entry comes to on the contents `f`, unless its run stops. -/
def tried (r : Runner) (hashes : BlockHashes) (block : Block) (f : Contents) (entry : QueueEntry) :
    Option Try :=
  match r.trial hashes block entry.tx f with
  | .ok (result, conversations) o =>
    some ((entry.position, result, o), conversations.flatMap (·.blocksAsked))
  | .error _ _ => none

theorem tried_congr {h h' : BlockHashes} (same : ∀ number, h.lookUp number = h'.lookUp number)
    (r : Runner) (block : Block) (f : Contents) : r.tried h block f = r.tried h' block f :=
  funext fun entry => by rw [tried, tried, trial_congr same]

theorem tried_position {h : BlockHashes} {f : Contents} {entry : QueueEntry} {t : Try}
    (htried : r.tried h block f entry = some t) : t.1.1 = entry.position := by
  unfold tried at htried
  split at htried
  · cases htried
    rfl
  · cases htried

theorem tried_positions {h : BlockHashes} {f : Contents} {order : List QueueEntry} {tries : List Try}
    (htried : order.map (r.tried h block f) = tries.map some) :
    tries.map (·.1.1) = order.map (·.position) := by
  induction order generalizing tries with
  | nil => rw [List.map_eq_nil_iff.1 htried.symm, List.map_nil, List.map_nil]
  | cons entry rest ih =>
    obtain ⟨t, tries', rfl, hentry, hrest⟩ := List.map_eq_cons_iff.1 htried.symm
    rw [List.map_cons, List.map_cons, tried_position hentry.symm, ih hrest.symm]

theorem none_notMem_tried {h : BlockHashes} {f : Contents} {order : List QueueEntry} {tries : List Try}
    (htried : order.map (r.tried h block f) = tries.map some) :
    none ∉ order.map (r.tried h block f) := by
  rw [htried]
  simp

theorem tried_asks {h : BlockHashes} {f : Contents} {order : List QueueEntry} {tries : List Try}
    (htried : order.map (r.tried h block f) = tries.map some) {number : UInt64}
    (hnumber : number ∈ tries.flatMap (·.2)) : ∃ request, (r.backend request).Asks number := by
  obtain ⟨t, ht, hnumber⟩ := List.mem_flatMap.1 hnumber
  have hmem : some t ∈ order.map (r.tried h block f) := by
    rw [htried]
    exact List.mem_map_of_mem ht
  obtain ⟨entry, -, hentry⟩ := List.mem_map.1 hmem
  unfold tried at hentry
  split at hentry
  next htrial =>
    cases hentry
    exact ⟨_, trial_asks htrial hnumber⟩
  · cases hentry

/-- Running a transaction leaves the view as it is, and counts the blocks that were asked for as used. -/
theorem runTransaction_idle (r : Runner) (block : Block) {n : Node} (idle : n.view.overlays = [])
    (entry : QueueEntry) :
    match r.tried n.hashes block n.view.contents entry with
    | some (output, asked) => ∃ m, r.runTransaction block entry.tx n = .ok output.2 m ∧
        m.view = n.view ∧ m.hashes = asked.foldl BlockHashes.touch n.hashes
    | none => ∃ fault m, r.runTransaction block entry.tx n = .error fault m ∧ m.SameStore n := by
  unfold tried trial runTransaction
  by_cases htooOld : entry.tx.isTooOld block.number = true
  · rw [if_pos htooOld, if_pos htooOld]
    exact ⟨n, rfl, rfl, rfl⟩
  · rw [if_neg htooOld, if_neg htooOld, get_bind]
    have hrun := Session.onOverlay_idle r.precompiles.contains (r.execute n.hashes block entry.tx)
      Prod.mk idle
    dsimp only
    cases habove : (r.execute n.hashes block entry.tx).above n.view.contents {} with
    | ok out o =>
      rw [habove] at hrun
      exact hrun
    | error fault o =>
      rw [habove] at hrun
      exact ⟨fault, _, hrun, rfl⟩

end Runner

theorem Node.Twin.tried_eq {n m : Node} (twin : Node.Twin L n m) (r : Runner) (block : Block) :
    r.tried n.hashes block n.view.contents = r.tried m.hashes block m.view.contents := by
  rw [twin.view, Runner.tried_congr (L.lookUp twin.hashes)]

/-- The blocks that a round asks for leave the lists alike, also when they were asked for in another
order. -/
theorem Node.Twin.touched {n m : Node} (twin : Node.Twin L n m) {r : Runner} {block : Block}
    (hbackend : r.backend = backend) {order order' : List QueueEntry} {tries tries' : List Runner.Try}
    (htries : order.map (r.tried n.hashes block n.view.contents) = tries.map some)
    (htries' : order'.map (r.tried n.hashes block n.view.contents) = tries'.map some)
    (hloose : order = order' ∨ L.Loose) :
    L.Rel ((tries.flatMap (·.2)).foldl BlockHashes.touch n.hashes)
      ((tries'.flatMap (·.2)).foldl BlockHashes.touch m.hashes) := by
  obtain rfl | hloose := hloose
  · obtain rfl : tries = tries' :=
      List.map_injective_iff.2 (Option.some_injective _) (htries.symm.trans htries')
    exact L.foldl_touch twin.hashes _
  · have hfree {order : List QueueEntry} {tries : List Runner.Try}
        (h : order.map (r.tried n.hashes block n.view.contents) = tries.map some) :
        ∀ number ∈ tries.flatMap (·.2), L.Free number := by
      intro number hnumber
      obtain ⟨request, hasks⟩ := Runner.tried_asks h hnumber
      exact L.loose hloose request number (hbackend ▸ hasks)
    exact L.foldl_touch_left (L.foldl_touch_right twin.hashes (hfree htries')) (hfree htries)

/-! ## One round -/

namespace Rounds

variable {r : Runner} {block : Block}

/-- The work of a round runs to its end, and then every entry comes to what it comes to on the state
before the round, or it stops at an entry whose run stops. -/
theorem runAll_idle (r : Runner) (block : Block) {n : Node} (idle : n.view.overlays = [])
    (order : List QueueEntry) :
    (∃ (tries : List Runner.Try) (m : Node),
      order.map (r.tried n.hashes block n.view.contents) = tries.map some ∧
      runAll r block order n = .ok (tries.map (·.1)) m ∧ m.view = n.view ∧
      m.hashes = (tries.flatMap (·.2)).foldl BlockHashes.touch n.hashes) ∨
    none ∈ order.map (r.tried n.hashes block n.view.contents) ∧
      ∃ fault m, runAll r block order n = .error fault m ∧ m.SameStore n := by
  induction order generalizing n with
  | nil => exact .inl ⟨[], n, rfl, rfl, rfl, rfl⟩
  | cons entry rest ih =>
    have hentry := r.runTransaction_idle block idle entry
    cases htried : r.tried n.hashes block n.view.contents entry with
    | none =>
      rw [htried] at hentry
      obtain ⟨fault, m, hrun, hsame⟩ := hentry
      refine .inr ⟨by simp [htried], fault, m, ?_, hsame⟩
      rw [runAll]
      exact bind_error hrun _
    | some try' =>
      obtain ⟨output, asked⟩ := try'
      rw [htried] at hentry
      obtain ⟨m, hrun, hview, hhashes⟩ := hentry
      have hsame : r.tried m.hashes block m.view.contents = r.tried n.hashes block n.view.contents := by
        rw [hview, hhashes, Runner.tried_congr (BlockHashes.lookUp_foldl_touch n.hashes asked)]
      rw [runAll, bind_of_ok hrun, List.map_cons, htried]
      have hrest := ih (hview ▸ idle)
      rw [hsame] at hrest
      obtain ⟨tries, l, htries, hall, hview', hhashes'⟩ | ⟨hnone, fault, l, hall, hstore⟩ := hrest
      · refine .inl ⟨(output, asked) :: tries, l, by rw [htries, List.map_cons], ?_,
          hview'.trans hview, ?_⟩
        · rw [bind_of_ok hall, ← Runner.tried_position htried]
          rfl
        · rw [hhashes', hhashes, List.flatMap_cons, List.foldl_append]
      · refine .inr ⟨List.mem_cons_of_mem _ hnone, fault, l, bind_error hall _, ?_⟩
        rw [Node.SameStore, hstore, hview]

section

variable {n m : Node} (twin : Node.Twin L n m) (hbackend : r.backend = backend)

include twin hbackend in
/-- The order of the work matters only to which block was asked for last. -/
theorem runAll_agree {order order' : List QueueEntry} (horder : order.Perm order')
    (hloose : order = order' ∨ L.Loose) (distinct : (order.map (·.position)).Nodup) :
    Session.Agree L (fun outputs outputs' => ∀ position : UInt64,
        outputs.lookup position = outputs'.lookup position)
      (runAll r block order n) (runAll r block order' m) := by
  have hsame := twin.tried_eq r block
  have hrunAll' := runAll_idle r block (twin.view ▸ twin.idle) order'
  rw [← hsame] at hrunAll'
  obtain ⟨tries, n', htries, hrun, hview, hhashes⟩ | ⟨hnone, fault, n', hrun, hstore⟩ :=
      runAll_idle r block twin.idle order
  · obtain ⟨tries', m', htries', hrun', hview', hhashes'⟩ | ⟨hnone, -⟩ := hrunAll'
    · have hperm : tries.Perm tries' := by
        refine (List.map_perm_map_iff (Option.some_injective _)).1 ?_
        rw [← htries, ← htries']
        exact horder.map _
      have hpositions : ((tries.map (·.1)).map (·.1)).Nodup := by
        rw [List.map_map]
        exact Runner.tried_positions htries ▸ distinct
      rw [hrun, hrun']
      refine .ok (lookup_perm (hperm.map _) hpositions) ⟨?_, ?_, ?_⟩
      · rw [hview, hview', twin.view]
      · rw [hview]
        exact twin.idle
      · rw [hhashes, hhashes']
        exact twin.touched hbackend htries htries' hloose
    · exact absurd ((horder.map _).mem_iff.2 hnone) (Runner.none_notMem_tried htries)
  · obtain ⟨tries', m', htries', -⟩ | ⟨-, fault', m', hrun', hstore'⟩ := hrunAll'
    · exact absurd ((horder.map _).mem_iff.1 hnone) (Runner.none_notMem_tried htries')
    · rw [hrun, hrun']
      exact .error (hstore.trans (twin.sameStore.trans hstore'.symm))

include twin in
theorem notifyCommitted_agree (result : CommittedResult) :
    Session.Agree L Eq (r.notifyCommitted result n) (r.notifyCommitted result m) := by
  unfold Runner.notifyCommitted
  cases r.contracts.at? result.tx.destination with
  | none => exact .pure rfl twin
  | some contract =>
    refine .bind (Session.access_agree twin _) ?_
    rintro event _ n' m' - rfl twin'
    cases event with
    | none => exact .pure rfl twin'
    | some event => exact Session.meter_agree twin' _

include twin in
theorem applyEntry_agree {outputs outputs' : Outputs}
    (hsame : ∀ position, outputs.lookup position = outputs'.lookup position) (p : Progress)
    (entry : QueueEntry) :
    Session.Agree L Eq (applyEntry r outputs p entry n) (applyEntry r outputs' p entry m) := by
  unfold applyEntry
  rw [hsame]
  cases outputs'.lookup entry.position with
  | none => exact .pure rfl twin
  | some output =>
    obtain ⟨result, o⟩ := output
    dsimp only
    split
    · exact .pure rfl twin
    · refine .bind (.modify (R := Node.Twin L) ⟨?_, ?_, twin.hashes⟩) ?_
      · rw [twin.view]
      · exact View.overlays_apply twin.idle o
      · rintro _ _ n' m' - - twin'
        refine .bind (notifyCommitted_agree twin' result) ?_
        rintro _ _ n'' m'' - - twin''
        exact .pure rfl twin''

/-- The dealers go on alike: they are one dealer in one state, or the order of the work may differ. -/
def DealAlike (L : Likeness backend) (d d' : Dealer) (s : d.State) (s' : d'.State) : Prop :=
  (⟨d, s⟩ : (d : Dealer) × d.State) = ⟨d', s'⟩ ∨ L.Loose

include twin hbackend in
theorem runRound_agree {d d' : Dealer} {s : d.State} {s' : d'.State} (halike : DealAlike L d d' s s')
    (gate : NonceGate) {entries : List QueueEntry} (distinct : (entries.map (·.position)).Nodup) :
    Session.Agree L (fun out out' => out.1 = out'.1 ∧ DealAlike L d d' out.2 out'.2)
      (runRound r block d s gate entries n) (runRound r block d' s' gate entries m) := by
  let work := entries.filter fun entry => gate.mayRun block.number entry.tx
  have hperm : (d.deal s work).1.Perm work := d.deal_perm s work
  have hperm' : (d'.deal s' work).1.Perm work := d'.deal_perm s' work
  have horder : (d.deal s work).1 = (d'.deal s' work).1 ∨ L.Loose := by
    obtain hsame | hloose := halike
    · cases hsame
      exact .inl rfl
    · exact .inr hloose
  have hnext : DealAlike L d d' (d.deal s work).2 (d'.deal s' work).2 := by
    obtain hsame | hloose := halike
    · cases hsame
      exact .inl rfl
    · exact .inr hloose
  have hpositions : ((d.deal s work).1.map (·.position)).Nodup :=
    (hperm.map _).nodup_iff.2 (distinct.sublist (List.filter_sublist.map _))
  unfold runRound
  refine .bind (runAll_agree twin hbackend (hperm.trans hperm'.symm) horder hpositions) ?_
  rintro outputs outputs' n' m' - hsame twin'
  refine .bind (.foldlM entries _ twin' fun p entry _ _ h => applyEntry_agree h hsame p entry) ?_
  rintro p _ n'' m'' - rfl twin''
  exact .pure ⟨rfl, hnext⟩ twin''

/-! ## All rounds -/

include twin in
theorem sendBack_agree (p : Progress) : Session.Agree L Eq (sendBack p n) (sendBack p m) := by
  unfold sendBack
  split
  · refine .bind (Session.meter_agree twin _) ?_
    rintro _ _ n' m' - - twin'
    refine .bind (Session.access_agree twin' _) ?_
    rintro _ _ n'' m'' - - twin''
    exact .pure rfl twin''
  · exact .pure rfl twin

include twin hbackend in
theorem runRounds_agree {batch : UInt64} {d d' : Dealer} {s : d.State} {s' : d'.State}
    (halike : DealAlike L d d' s s') (count : Nat) (gate : NonceGate) (e : BlockExecution) :
    Session.Agree L Eq (runRounds r batch block d count s gate e n)
      (runRounds r batch block d' count s' gate e m) := by
  induction count generalizing n m s s' gate e with
  | zero => exact .pure rfl twin
  | succ count ih =>
    rw [runRounds, runRounds]
    refine .bind (Session.access_agree twin _) ?_
    rintro entries _ n' m' haccess rfl twin'
    obtain ⟨v, hrun, -⟩ := access_ok.1 haccess
    have distinct := nodup_of_popFront (eval_of_run hrun)
    split
    · exact .pure rfl twin'
    · refine .bind (runRound_agree twin' hbackend halike gate distinct) ?_
      rintro ⟨p, t⟩ ⟨_, t'⟩ n'' m'' - ⟨rfl, halike'⟩ twin''
      refine .bind (sendBack_agree twin'' p) ?_
      rintro _ _ n₃ m₃ - - twin₃
      exact ih twin₃ halike' p.gate (addRound e p)

include twin hbackend in
/-- Nodes that agree publish the same in a block, and agree after it. -/
theorem execute_agree (pool : Pool) {d d' : Dealer} (halike : DealAlike L d d' d.start d'.start) :
    Session.Agree L Eq (pool.execute r block d n) (pool.execute r block d' m) := by
  unfold Pool.execute
  refine .bind (Session.access_agree twin _) ?_
  rintro entries _ n' m' - rfl twin'
  refine .bind (runRounds_agree twin' hbackend halike _ _ _) ?_
  rintro e _ n'' m'' - rfl twin''
  refine .bind (Session.meter_agree twin'' _) ?_
  rintro _ _ n₃ m₃ - - twin₃
  exact .pure rfl twin₃

end

end Rounds

end RoundLedger
