import RoundLedger.Proofs.Stops

/-!
# Blocks that stop

A block stops at an entry whose run stops, at a commit hook, or at the queue itself. What had been taken off
the queue by then and was neither committed nor put back is in no record any more (`Broken`, `Stopped`).
-/

namespace RoundLedger

open Step Program Queue

variable {r : Runner} {hashes : BlockHashes} {block : Block} {fault : Fault}

namespace Runner

theorem runTransaction_view {tx : Transaction} {n m : Node} {out : CommittedResult × Overlay}
    (idle : n.view.overlays = []) (h : r.runTransaction block tx n = .ok out m) : m.view = n.view := by
  have hrun := r.runTransaction_idle block idle ⟨0, tx⟩
  dsimp only at hrun
  rw [h] at hrun
  split at hrun
  · obtain ⟨l, hends, hview, -⟩ := hrun
    cases hends
    exact hview
  · obtain ⟨fault, l, hends, -⟩ := hrun
    cases hends

/-- A transaction whose run stops leaves its overlay open, and the store as it is. -/
theorem runTransaction_stops {tx : Transaction} {n m : Node} (idle : n.view.overlays = [])
    (h : r.runTransaction block tx n = .error fault m) :
    (∃ o, r.trial n.hashes block tx n.view.contents = .error fault o) ∧
      m.view.stored = n.view.stored := by
  unfold runTransaction at h
  unfold trial
  split at h
  · cases h
  next hyoung =>
    have hrun := Session.onOverlay_idle r.precompiles.contains (r.execute n.hashes block tx) Prod.mk idle
    rw [get_bind] at h
    rw [if_neg hyoung]
    cases habove : (r.execute n.hashes block tx).above n.view.contents {} with
    | ok out o =>
      rw [habove] at hrun
      obtain ⟨l, hends, -⟩ := hrun
      cases hends.symm.trans h
    | error fault' o =>
      rw [habove] at hrun
      cases hrun.symm.trans h
      exact ⟨⟨o, rfl⟩, rfl⟩

theorem notifyCommitted_overlays {result : CommittedResult} {n m : Node} {u : Unit}
    (idle : n.view.overlays = []) (h : r.notifyCommitted result n = .ok u m) :
    m.view.overlays = [] := by
  unfold notifyCommitted at h
  cases hcontract : r.contracts.at? result.tx.destination with
  | none =>
    simp only [hcontract] at h
    obtain ⟨-, rfl⟩ := pure_ok.1 h
    exact idle
  | some contract =>
    simp only [hcontract] at h
    obtain ⟨event, l, haccess, hmeter⟩ := bind_ok.1 h
    have hidle := Session.access_overlays idle haccess
    cases event with
    | none =>
      obtain ⟨-, rfl⟩ := pure_ok.1 hmeter
      exact hidle
    | some event =>
      rw [meter_ok.1 hmeter]
      exact hidle

theorem notifyCommitted_stops {result : CommittedResult} {n m : Node} (idle : n.view.overlays = [])
    (h : r.notifyCommitted result n = .error fault m) :
    ∃ contract, r.contracts.at? result.tx.destination = some contract ∧
      (contract.committed result).eval n.view.contents = .error fault m.view.stored := by
  unfold notifyCommitted at h
  cases hcontract : r.contracts.at? result.tx.destination with
  | none =>
    simp only [hcontract] at h
    cases h
  | some contract =>
    simp only [hcontract] at h
    obtain haccess | ⟨event, l, -, hmeter⟩ := bind_stops.1 h
    · exact ⟨contract, rfl, Session.access_stored idle haccess⟩
    · cases event with
      | none => cases hmeter
      | some event => exact absurd hmeter meter_stops

end Runner

namespace Rounds

/-! ## One round -/

/-- A round on the contents `h` that stopped: what it had committed, what it had taken off the queue and
neither committed nor put back, and the contents that it left. -/
inductive Broken (r : Runner) (hashes : BlockHashes) (block : Block) (batch : UInt64) (gate : NonceGate)
    (h : Contents) (fault : Fault) : List Transaction → List Transaction → Contents → Prop
  | taking {g} : (popFront batch).eval h = .error fault g → Broken r hashes block batch gate h fault [] [] g
  /-- Every entry runs before the first one is committed. -/
  | running {h₁ entries entry o} : (popFront batch).eval h = .ok entries h₁ → entry ∈ entries →
      gate.mayRun block.number entry.tx = true → r.trial hashes block entry.tx h₁ = .error fault o →
      Broken r hashes block batch gate h fault [] (entries.map (·.tx)) h₁
  | hook {h₁ h₂ g done entry rest p result c o contract} :
      (popFront batch).eval h = .ok (done ++ entry :: rest) h₁ →
      Settled r hashes block gate h₁ done p h₂ → gate.mayRun block.number entry.tx = true →
      r.trial hashes block entry.tx h₁ = .ok (result, c) o → o.conflictsWith p.written = false →
      r.contracts.at? result.tx.destination = some contract →
      (contract.committed result).eval (o.atop h₂) = .error fault g →
      Broken r hashes block batch gate h fault (p.published.map (·.result.tx) ++ [result.tx])
        (p.retry ++ rest.map (·.tx)) g
  | returning {h₁ h₂ g entries p} : (popFront batch).eval h = .ok entries h₁ →
      Settled r hashes block gate h₁ entries p h₂ → (append p.retry).eval h₂ = .error fault g →
      Broken r hashes block batch gate h fault (p.published.map (·.result.tx)) p.retry g

theorem runAll_view {order : List QueueEntry} {outputs : Outputs} {n m : Node}
    (idle : n.view.overlays = []) (h : runAll r block order n = .ok outputs m) : m.view = n.view := by
  obtain ⟨tries, l, -, hends, hview, -⟩ | ⟨-, fault, l, hends, -⟩ := runAll_idle r block idle order
  · cases hends.symm.trans h
    exact hview
  · cases hends.symm.trans h

theorem runAll_stops {order : List QueueEntry} {n m : Node} (idle : n.view.overlays = [])
    (h : runAll r block order n = .error fault m) :
    (∃ entry ∈ order, ∃ o, r.trial n.hashes block entry.tx n.view.contents = .error fault o) ∧
      m.view.stored = n.view.stored := by
  induction order generalizing n with
  | nil => cases h
  | cons entry rest ih =>
    rw [runAll] at h
    obtain hentry | ⟨output, l, hentry, hbehind⟩ := bind_stops.1 h
    · obtain ⟨htrial, hstored⟩ := Runner.runTransaction_stops idle hentry
      exact ⟨⟨entry, List.mem_cons_self, htrial⟩, hstored⟩
    · obtain ⟨-, halike⟩ := Runner.runTransaction_ok hentry
      have hview := Runner.runTransaction_view idle hentry
      obtain hrest | ⟨outputs, l', -, hdone⟩ := bind_stops.1 hbehind
      · obtain ⟨⟨other, hother, o, htrial⟩, hstored⟩ := ih (hview ▸ idle) hrest
        rw [halike.contents, Runner.trial_congr halike.hashes] at htrial
        exact ⟨⟨other, List.mem_cons_of_mem _ hother, o, htrial⟩, hview ▸ hstored⟩
      · cases hdone

theorem applyEntry_overlays {outputs : Outputs} {p p' : Progress} {entry : QueueEntry} {n m : Node}
    (idle : n.view.overlays = []) (h : applyEntry r outputs p entry n = .ok p' m) :
    m.view.overlays = [] := by
  obtain ⟨-, -, rfl⟩ | ⟨result, o, -, ⟨-, -, rfl⟩ | ⟨-, -, hnotify⟩⟩ := applyEntry_inv h
  · exact idle
  · exact idle
  · exact Runner.notifyCommitted_overlays (View.overlays_apply idle _) hnotify

theorem applyEntry_stops {outputs : Outputs} {p : Progress} {entry : QueueEntry} {n m : Node}
    (idle : n.view.overlays = []) (h : applyEntry r outputs p entry n = .error fault m) :
    ∃ result o contract, outputs.lookup entry.position = some (result, o) ∧
      o.conflictsWith p.written = false ∧ r.contracts.at? result.tx.destination = some contract ∧
      (contract.committed result).eval (o.atop n.view.contents) = .error fault m.view.stored := by
  unfold applyEntry at h
  cases hlookup : outputs.lookup entry.position with
  | none =>
    simp only [hlookup] at h
    cases h
  | some output =>
    obtain ⟨result, o⟩ := output
    simp only [hlookup] at h
    split at h
    · cases h
    next hconflict =>
      obtain happly | ⟨_, l, happly, hhook⟩ := bind_stops.1 h
      · exact absurd happly modify_stops
      obtain rfl := modify_ok.1 happly
      obtain hnotify | ⟨_, l', -, hdone⟩ := bind_stops.1 hhook
      · obtain ⟨contract, hcontract, heval⟩ :=
          Runner.notifyCommitted_stops (View.overlays_apply idle o) hnotify
        rw [View.contents_applied] at heval
        exact ⟨result, o, contract, rfl, by simpa using hconflict, hcontract, heval⟩
      · cases hdone

theorem foldlM_overlays {outputs : Outputs} {p p' : Progress} {entries : List QueueEntry} {n m : Node}
    (idle : n.view.overlays = []) (h : entries.foldlM (applyEntry r outputs) p n = .ok p' m) :
    m.view.overlays = [] :=
  foldlM_ok (fun _ _ m => m.view.overlays = []) h idle
    fun _ _ _ _ _ _ _ _ hidle hstep => applyEntry_overlays hidle hstep

theorem runRound_overlays {dealer : Dealer} {s : dealer.State} {gate : NonceGate}
    {entries : List QueueEntry} {out : Progress × dealer.State} {n m : Node}
    (idle : n.view.overlays = []) (h : runRound r block dealer s gate entries n = .ok out m) :
    m.view.overlays = [] := by
  obtain ⟨outputs, ran, hall, hfold⟩ := runRound_inv h
  exact foldlM_overlays (runAll_view idle hall ▸ idle) hfold

theorem runRound_stops {dealer : Dealer} {s : dealer.State} {gate : NonceGate} {batch : UInt64}
    {h : Contents} {entries : List QueueEntry} {n m : Node} (idle : n.view.overlays = [])
    (hpop : (popFront batch).eval h = .ok entries n.view.contents)
    (hstop : runRound r block dealer s gate entries n = .error fault m) :
    ∃ committed taken,
      Broken r n.hashes block batch gate h fault committed taken m.view.stored := by
  have distinct := nodup_of_popFront hpop
  unfold runRound at hstop
  obtain hall | ⟨outputs, l, hall, happly⟩ := bind_stops.1 hstop
  · obtain ⟨⟨entry, hentry, o, htrial⟩, hstored⟩ := runAll_stops idle hall
    obtain ⟨hmem, hmay⟩ := List.mem_filter.1 ((dealer.deal_perm s _).mem_iff.1 hentry)
    rw [hstored, ← View.contents_of_idle idle]
    exact ⟨_, _, .running hpop hmem hmay htrial⟩
  · have hview := runAll_view idle hall
    have htried := runAll_tried hall distinct
    rw [← hview] at htried hpop idle
    obtain hfold | ⟨p, l', -, hdone⟩ := bind_stops.1 happly
    · obtain ⟨done, entry, rest, p, l', rfl, hdone, hentry⟩ := foldlM_stops hfold
      obtain ⟨hsettled, -⟩ := htried.settled (List.subset_append_left _ _) hdone
      obtain ⟨result, o, contract, hlookup, hconflict, hcontract, hhook⟩ :=
        applyEntry_stops (foldlM_overlays idle hdone) hentry
      obtain ⟨hmay, c, htrial⟩ := htried.ran entry (by simp) result o hlookup
      exact ⟨_, _, .hook hpop hsettled hmay htrial hconflict hcontract hhook⟩
    · cases hdone

/-! ## All rounds -/

theorem sendBack_overlays {p : Progress} {n m : Node} {u : Unit} (idle : n.view.overlays = [])
    (h : sendBack p n = .ok u m) : m.view.overlays = [] := by
  unfold sendBack at h
  split at h
  · obtain ⟨_, l, hmeter, happend⟩ := bind_ok.1 h
    have hview : l.view = n.view := by rw [meter_ok.1 hmeter]
    obtain ⟨range, l', haccess, hdone⟩ := bind_ok.1 happend
    obtain ⟨-, rfl⟩ := pure_ok.1 hdone
    exact Session.access_overlays (hview ▸ idle) haccess
  · obtain ⟨-, rfl⟩ := pure_ok.1 h
    exact idle

theorem sendBack_stops {p : Progress} {n m : Node} (idle : n.view.overlays = [])
    (h : sendBack p n = .error fault m) :
    (append p.retry).eval n.view.contents = .error fault m.view.stored := by
  unfold sendBack at h
  split at h
  · obtain hmeter | ⟨_, l, hmeter, happend⟩ := bind_stops.1 h
    · exact absurd hmeter meter_stops
    have hview : l.view = n.view := by rw [meter_ok.1 hmeter]
    obtain haccess | ⟨range, l', -, hdone⟩ := bind_stops.1 happend
    · exact hview ▸ Session.access_stored (hview ▸ idle) haccess
    · cases hdone
  · cases h

theorem Broken.congr {hashes' : BlockHashes} {batch : UInt64} {gate : NonceGate} {h g : Contents}
    {committed taken : List Transaction}
    (broken : Broken r hashes block batch gate h fault committed taken g)
    (same : ∀ number, hashes.lookUp number = hashes'.lookUp number) :
    Broken r hashes' block batch gate h fault committed taken g := by
  cases broken with
  | taking hpop => exact .taking hpop
  | running hpop hentry hmay htrial =>
    rw [Runner.trial_congr same] at htrial
    exact .running hpop hentry hmay htrial
  | hook hpop hsettled hmay htrial hconflict hcontract hhook =>
    rw [Runner.trial_congr same] at htrial
    exact .hook hpop (hsettled.congr same) hmay htrial hconflict hcontract hhook
  | returning hpop hsettled happend => exact .returning hpop (hsettled.congr same) happend

theorem runRounds_overlays {batch : UInt64} {dealer : Dealer} {gate : NonceGate} {count : Nat}
    {s : dealer.State} {e e' : BlockExecution} {n n' : Node} (idle : n.view.overlays = [])
    (h : runRounds r batch block dealer count s gate e n = .ok e' n') : n'.view.overlays = [] := by
  induction count generalizing s gate e n with
  | zero =>
    obtain ⟨-, rfl⟩ := pure_ok.1 h
    exact idle
  | succ count ih =>
    obtain ⟨entries, popped, haccess, hround⟩ := runRounds_inv h
    have hidle := Session.access_overlays idle haccess
    obtain ⟨-, -, rfl⟩ | ⟨-, p, s', settled, sent, hsettle, hsend, hrest⟩ := hround
    · exact hidle
    · exact ih (sendBack_overlays (runRound_overlays hidle hsettle) hsend) hrest

theorem runRounds_stops {batch : UInt64} {dealer : Dealer} {gate₀ gate : NonceGate} {f : Contents}
    {count : Nat} {s : dealer.State} {e : BlockExecution} {n n' : Node} (idle : n.view.overlays = [])
    (h : runRounds r batch block dealer count s gate e n = .error fault n')
    (sofar : Runs r hashes block batch gate₀ f e gate n.view.contents)
    (same : ∀ number, n.hashes.lookUp number = hashes.lookUp number) :
    ∃ e' gate' g committed taken, Runs r hashes block batch gate₀ f e' gate' g ∧
      Broken r hashes block batch gate' g fault committed taken n'.view.stored := by
  induction count generalizing s gate e n with
  | zero => cases h
  | succ count ih =>
    rw [runRounds] at h
    obtain hpop | ⟨entries, l, haccess, hround⟩ := bind_stops.1 h
    · exact ⟨e, gate, _, [], [], sofar, .taking (Session.access_stored idle hpop)⟩
    have hidle := Session.access_overlays idle haccess
    obtain ⟨v, hrun, rfl⟩ := access_ok.1 haccess
    have hpop := eval_of_run hrun
    split at hround
    · cases hround
    next hsome =>
      obtain hstop | ⟨⟨p, s'⟩, l', hsettle, hback⟩ := bind_stops.1 hround
      · obtain ⟨committed, taken, hbroken⟩ := runRound_stops hidle hpop hstop
        exact ⟨e, gate, _, committed, taken, sofar, hbroken.congr same⟩
      obtain ⟨hsettled, hhashes⟩ := runRound_settled hsettle (nodup_of_popFront hpop)
      have hidle' := runRound_overlays hidle hsettle
      obtain hstop | ⟨_, l'', hsend, hrest⟩ := bind_stops.1 hback
      · exact ⟨e, gate, _, _, _, sofar,
          .returning hpop (hsettled.congr same) (sendBack_stops hidle' hstop)⟩
      obtain ⟨hsent, hsame⟩ := sendBack_ok hsend
      exact ih (sendBack_overlays hidle' hsend) hrest
        (.round sofar hpop hsome (hsettled.congr same) hsent)
        (fun number => by rw [hsame, ← hhashes, same])

/-! ## Blocks -/

/-- What a block on the contents `f` has come to between two of its rounds. -/
def Reached (r : Runner) (hashes : BlockHashes) (block : Block) (batch : UInt64) (f : Contents)
    (e : BlockExecution) (gate : NonceGate) (g : Contents) : Prop :=
  ∃ queued : List QueueEntry, queued.map (·.tx) = waiting f ∧
    Runs r hashes block batch (.ofEntries queued) f e gate g

/-- A block on the contents `f` that stopped: what it had committed, what it had taken off the queue and
neither committed nor put back, and the contents that it left. -/
inductive Stopped (r : Runner) (hashes : BlockHashes) (block : Block) (batch : UInt64) (f : Contents)
    (fault : Fault) : List Transaction → List Transaction → Contents → Prop
  /-- The queue cannot be read. -/
  | loading : (range >>= load).eval f = .error fault f →
      Stopped r hashes block batch f fault [] [] f
  | round {queued e gate h committed taken g} : queued.map (·.tx) = waiting f →
      Runs r hashes block batch (.ofEntries queued) f e gate h →
      Broken r hashes block batch gate h fault committed taken g →
      Stopped r hashes block batch f fault (e.results.map (·.tx) ++ committed) taken g

theorem execute_stops {pool : Pool} {dealer : Dealer} {n n' : Node} (idle : n.view.overlays = [])
    (h : pool.execute r block dealer n = .error fault n') :
    ∃ committed taken, Stopped r n.hashes block pool.batch n.view.contents fault committed taken
      n'.view.stored := by
  unfold Pool.execute at h
  obtain haccess | ⟨entries, l, haccess, hrounds⟩ := bind_stops.1 h
  · have hload := Session.access_stored idle haccess
    have hsame : n'.view.stored = n.view.contents := by
      obtain hrange | ⟨range, f₁, hrange, hread⟩ := eval_bind_stops.1 hload
      · exact (range_stops.1 hrange).2.symm
      · obtain ⟨-, rfl⟩ := range_ok.1 hrange
        exact (load_stops hread).2
    rw [hsame] at hload ⊢
    exact ⟨[], [], .loading hload⟩
  have hidle := Session.access_overlays idle haccess
  obtain ⟨v, hrun, rfl⟩ := access_ok.1 haccess
  obtain ⟨range, _, hread, hload⟩ := eval_bind_ok.1 (eval_of_run hrun)
  obtain ⟨hrange, rfl⟩ := range_ok.1 hread
  obtain ⟨hpositions, hfound, hcontents⟩ := load_ok hload
  obtain hstop | ⟨e', l', -, hmeter⟩ := bind_stops.1 hrounds
  · have hstart : Runs r n.hashes block pool.batch (.ofEntries entries) n.view.contents {}
        (.ofEntries entries) v.contents := by
      rw [hcontents]
      exact .start
    obtain ⟨e, gate, g, committed, taken, hruns, hbroken⟩ :=
      runRounds_stops hidle hstop hstart fun _ => rfl
    exact ⟨_, taken, .round (waiting_of_found hrange hpositions hfound).symm hruns hbroken⟩
  · obtain hmeter | ⟨_, l'', -, hdone⟩ := bind_stops.1 hmeter
    · exact absurd hmeter meter_stops
    · cases hdone

end Rounds

end RoundLedger
