import Mathlib.Data.List.MinMax
import RoundLedger.Proofs.Broken
import RoundLedger.Proofs.Overtaking

/-!
# How fast the queue drains

The first entry of a round that may run is committed, for nothing was written before it in the round. Entries
in front of the first one that may run go to the end, so it is reached when the queue has been turned over
once. As long as nothing is lost there is such an entry: the gate holds only nonces that wait, and the lowest
of them may run. So a block that has the turns (`drainTurns`) publishes all that is queued.
-/

namespace RoundLedger

open Step Program Queue

/-- The rounds that it takes to turn over a queue of the given length. -/
def turns (batch length : Nat) : Nat := (length + batch - 1) / batch

/-- The rounds that are enough when each turn of the queue publishes one entry. -/
def drainTurns (batch : Nat) : Nat → Nat
  | 0 => 0
  | length + 1 => drainTurns batch length + turns batch (length + 1)

theorem drainTurns_mono (batch : Nat) {m n : Nat} (h : m ≤ n) : drainTurns batch m ≤ drainTurns batch n := by
  induction h with
  | refl => exact Nat.le_refl _
  | step _ ih => exact ih.trans (Nat.le_add_right _ _)

theorem le_turns_mul {batch : Nat} (hbatch : 0 < batch) (length : Nat) :
    length ≤ turns batch length * batch := by
  have hdiv := Nat.div_add_mod (length + batch - 1) batch
  have hmod := Nat.mod_lt (length + batch - 1) hbatch
  rw [turns, Nat.mul_comm]
  omega

/-- An item behind fewer others than the queue is long comes to the front in time. -/
theorem div_lt_turns {batch ahead length : Nat} (hbatch : 0 < batch) (h : ahead < length) :
    ahead / batch + 1 ≤ turns batch length := by
  rw [turns, ← Nat.add_div_right ahead hbatch]
  exact Nat.div_le_div_right (by omega)

namespace Rounds

variable {r : Runner} {hashes : BlockHashes} {block : Block} {batch : UInt64}

/-! ## One round -/

/-- As long as a round has published nothing it has written nothing, so no entry that may run is put off. -/
theorem Settled.held_of_unpublished {gate : NonceGate} {f g : Contents} {entries : List QueueEntry}
    {p : Progress} (h : Settled r hashes block gate f entries p g) (hnone : p.published = []) :
    p.written = ∅ ∧ p.gate = gate ∧
      ∀ entry ∈ entries, gate.mayRun block.number entry.tx = false := by
  induction h with
  | start => exact ⟨rfl, rfl, by simp⟩
  | held _ hmay ih =>
    obtain ⟨hwritten, hgate, hheld⟩ := ih hnone
    exact ⟨hwritten, hgate, List.forall_mem_append.2 ⟨hheld, by simpa using hmay⟩⟩
  | conflict _ _ _ hconflict ih =>
    obtain ⟨hwritten, -, -⟩ := ih hnone
    rw [hwritten] at hconflict
    simp [Overlay.conflictsWith] at hconflict
  | commit => simp [Progress.commit] at hnone

/-- A round publishes an entry, or takes entries that may not run off the front and turns the queue over by
as many. -/
theorem Settled.turned (avoids : r.contracts.Avoids Key.IsQueue) {gate : NonceGate}
    {h h₁ h₂ h₃ : Contents} {entries : List QueueEntry} {p : Progress}
    (hpop : (popFront batch).eval h = .ok entries h₁)
    (hsettled : Settled r hashes block gate h₁ entries p h₂) (hsent : SentBack p h₂ h₃)
    {ahead behind : List Transaction} {tx : Transaction} (hwaiting : waiting h = ahead ++ tx :: behind)
    (hmay : gate.mayRun block.number tx = true) :
    p.published ≠ [] ∨ p.published = [] ∧ p.gate = gate ∧
      ∃ ahead' behind', waiting h₃ = ahead' ++ tx :: behind' ∧
        ahead.length = batch.toNat + ahead'.length := by
  by_cases hnone : p.published = []
  · refine .inr ⟨hnone, ?_⟩
    obtain ⟨-, hgate, hheld⟩ := hsettled.held_of_unpublished hnone
    obtain ⟨range, hpopped, hlength⟩ := popFront_ok hpop
    have hsame := hsettled.waiting_eq avoids
    have hnext : rangeIn h₂ = .ok _ :=
      (rangeIn_congr fun key hkey => hsettled.queue_eq avoids hkey).trans hpopped.next
    have hordered : range.start + UInt64.ofNat entries.length ≤ range.stop := by
      rw [UInt64.le_iff_toNat_le, hpopped.start_toNat]
      exact hpopped.fits
    have hback := (hsent.appended hnext).waiting_eq hordered
      fun tx htx => sized_of_retry hpopped hsettled htx
    have hsplit := hpopped.waiting_eq
    rw [hwaiting] at hsplit
    -- None of the entries taken may run, so the one that may run lies behind them.
    obtain ⟨ahead', hahead, hleft⟩ : ∃ ahead', ahead = entries.map (·.tx) ++ ahead' ∧
        waiting h₁ = ahead' ++ tx :: behind := by
      obtain ⟨taken, hentries, hrest⟩ | ⟨ahead', hahead, hleft⟩ := List.append_eq_append_iff.1 hsplit
      · cases taken with
        | nil => exact ⟨[], by simpa using hentries.symm, hrest.symm⟩
        | cons first taken =>
          obtain ⟨rfl, -⟩ := List.cons_eq_cons.1 hrest
          have hmem : tx ∈ entries.map (·.tx) := by simp [hentries]
          obtain ⟨entry, hentry, rfl⟩ := List.mem_map.1 hmem
          rw [hheld entry hentry] at hmay
          cases hmay
      · exact ⟨ahead', hahead, hleft⟩
    refine ⟨hgate, ahead', behind ++ kept range.stop p.retry, by simp [hback, hsame, hleft], ?_⟩
    have hfew := length_waiting_le hpopped.range
    rw [hwaiting, hahead] at hfew
    simp only [hahead, List.length_append, List.length_map, List.length_cons] at hfew ⊢
    omega
  · exact .inl hnone

/-- A round leaves no more waiting than it found, less what it published. -/
theorem length_waiting_of_round (avoids : r.contracts.Avoids Key.IsQueue) {gate : NonceGate}
    {h h₁ h₂ h₃ : Contents} {entries : List QueueEntry} {p : Progress}
    (hpop : (popFront batch).eval h = .ok entries h₁)
    (hsettled : Settled r hashes block gate h₁ entries p h₂) (hsent : SentBack p h₂ h₃) :
    p.published.length + (waiting h₃).length ≤ (waiting h).length := by
  obtain ⟨range, hpopped, -⟩ := popFront_ok hpop
  have hnext : rangeIn h₂ = .ok _ :=
    (rangeIn_congr fun key hkey => hsettled.queue_eq avoids hkey).trans hpopped.next
  have hround := (conserved_of_round avoids hpopped hsettled (hsent.appended hnext)).length_eq
  simp only [List.length_append, List.length_map] at hround
  omega

/-- A round sends back no more than waits before it. -/
theorem length_retry_le {gate : NonceGate} {h h₁ h₂ : Contents} {entries : List QueueEntry}
    {p : Progress} (hpop : (popFront batch).eval h = .ok entries h₁)
    (hsettled : Settled r hashes block gate h₁ entries p h₂) :
    p.retry.length ≤ (waiting h).length := by
  obtain ⟨range, hpopped, -⟩ := popFront_ok hpop
  have heach := hsettled.perm.length_eq
  have hfront := congrArg List.length hpopped.waiting_eq
  simp only [List.length_append, List.length_map] at heach hfront
  omega

/-- The end of the queue does not come back over the reserved position. -/
theorem passesIn_of_round (avoids : r.contracts.Avoids Key.IsQueue) {gate : NonceGate}
    {f h h₁ h₂ h₃ : Contents} {entries : List QueueEntry} {p : Progress}
    (hpop : (popFront batch).eval h = .ok entries h₁)
    (hsettled : Settled r hashes block gate h₁ entries p h₂) (hsent : SentBack p h₂ h₃)
    (hpasses : PassesIn f h) : PassesIn f h₃ := by
  obtain ⟨range, hpopped, -⟩ := popFront_ok hpop
  have hnext : rangeIn h₂ = .ok _ :=
    (rangeIn_congr fun key hkey => hsettled.queue_eq avoids hkey).trans hpopped.next
  have happended := hsent.appended hnext
  have hstop := happended.stop_toNat
  obtain ⟨stop, stop', hbefore, hnow, hover⟩ := hpasses
  rw [stopIn_of_range hpopped.range] at hnow
  cases hnow
  refine ⟨stop, _, hbefore, stopIn_of_range happended.next, ?_⟩
  rw [passes_iff] at hover ⊢
  dsimp only at hstop ⊢
  omega

/-! ## All rounds -/

/-- After the given number of rounds, what waits can still be drained when `due` rounds are over: nothing
waits, or a transaction that may run comes to the front and leaves the turns for all the others. -/
inductive OnTime (block : Block) (batch due rounds : Nat) (gate : NonceGate) : List Transaction → Prop
  | drained : rounds ≤ due → OnTime block batch due rounds gate []
  | waiting {ahead tx behind} : gate.mayRun block.number tx = true →
      rounds + (ahead.length / batch + 1) + drainTurns batch (ahead.length + behind.length) ≤ due →
      OnTime block batch due rounds gate (ahead ++ tx :: behind)

theorem OnTime.of_exists {batch due rounds : Nat} {gate : NonceGate} {txs : List Transaction}
    (hbatch : 0 < batch) (hdue : rounds + drainTurns batch txs.length ≤ due)
    (hexists : txs ≠ [] → ∃ tx ∈ txs, gate.mayRun block.number tx = true) :
    OnTime block batch due rounds gate txs := by
  by_cases hnone : txs = []
  · rw [hnone] at hdue ⊢
    exact .drained hdue
  · obtain ⟨tx, htx, hmay⟩ := hexists hnone
    obtain ⟨ahead, behind, rfl⟩ := List.append_of_mem htx
    have hlength : (ahead ++ tx :: behind).length = ahead.length + behind.length + 1 := by simp; omega
    rw [hlength, drainTurns] at hdue
    have hturn := div_lt_turns hbatch
      (show ahead.length < ahead.length + behind.length + 1 by omega)
    exact .waiting hmay (by omega)

theorem OnTime.rounds_le {batch due rounds : Nat} {gate : NonceGate} {txs : List Transaction}
    (h : OnTime block batch due rounds gate txs) :
    rounds ≤ due ∧ (txs ≠ [] → rounds + 1 ≤ due) := by
  cases h with
  | drained hdue => exact ⟨hdue, fun hsome => absurd rfl hsome⟩
  | @waiting ahead _ _ _ hdue =>
    generalize ahead.length / batch = turned at hdue
    exact ⟨by omega, fun _ => by omega⟩

section

variable {queued : List QueueEntry} {f : Contents} (avoids : r.contracts.Avoids Key.IsQueue)
  (hqueued : queued.map (·.tx) = waiting f)

include avoids hqueued

/-- The gate holds no nonce without a transaction that waits, as long as nothing is lost. -/
theorem Runs.waits_of_holds {gate : NonceGate} {g : Contents} {e : BlockExecution}
    (h : Runs r hashes block batch (.ofEntries queued) f e gate g) (hwhole : ¬ PassesIn f g)
    {sender : Address} {nonce : UInt64} (hholds : gate.Holds sender nonce) :
    ∃ tx ∈ waiting g, tx.sender = sender ∧ tx.nonce = nonce := by
  obtain ⟨lost, -, hlost, hperm⟩ := h.exists_lost avoids
  obtain rfl : lost = [] := by
    by_contra hsome
    exact hwhole (hlost.1 hsome)
  obtain ⟨hentered, hsettled⟩ := h.holds.1 hholds
  obtain ⟨tx, htx, hsender, hnonce⟩ := NonceGate.holds_ofEntries.1 hentered
  rw [hqueued] at htx
  have hmem := hperm.mem_iff.2 htx
  simp only [List.append_nil, List.mem_append] at hmem
  obtain hpublished | hwaits := hmem
  · obtain ⟨result, hresult, rfl⟩ := List.mem_map.1 hpublished
    exact absurd (Prod.ext hsender hnonce) (hsettled result hresult)
  · exact ⟨tx, hwaits, hsender, hnonce⟩

/-- Of what waits, a transaction with the lowest nonce of all may run. -/
theorem Runs.exists_mayRun {gate : NonceGate} {g : Contents} {e : BlockExecution}
    (h : Runs r hashes block batch (.ofEntries queued) f e gate g) (hwhole : ¬ PassesIn f g)
    (hsome : waiting g ≠ []) : ∃ tx ∈ waiting g, gate.mayRun block.number tx = true := by
  obtain ⟨tx, hlowest⟩ : ∃ tx, tx ∈ (waiting g).argmin (·.nonce.toNat) := by
    cases hnone : (waiting g).argmin (·.nonce.toNat) with
    | none => exact absurd (List.argmin_eq_none.1 hnone) hsome
    | some tx => exact ⟨tx, rfl⟩
  refine ⟨tx, List.argmin_mem hlowest, NonceGate.mayRun_iff.2 (.inr fun nonce hholds => ?_)⟩
  obtain ⟨other, hother, -, rfl⟩ := h.waits_of_holds avoids hqueued hwhole hholds
  have hle := List.le_of_mem_argmin (f := fun tx : Transaction => tx.nonce.toNat) hother hlowest
  exact UInt64.le_iff_toNat_le.2 hle

/-- As long as nothing is lost a block keeps the time that `drainTurns` gives it. -/
theorem Runs.onTime (hbatch : 0 < batch.toNat) {gate : NonceGate} {g : Contents} {e : BlockExecution}
    (h : Runs r hashes block batch (.ofEntries queued) f e gate g) (hwhole : ¬ PassesIn f g) :
    OnTime block batch.toNat (drainTurns batch.toNat (waiting f).length) e.rounds gate (waiting g) := by
  induction h with
  | start =>
    have hstart : Runs r hashes block batch (.ofEntries queued) f {} (.ofEntries queued) f := .start
    exact .of_exists hbatch (Nat.zero_add _).le fun hsome =>
      hstart.exists_mayRun avoids hqueued hwhole hsome
  | @round e gate h h₁ h₂ h₃ entries p hruns hpop hentries hsettled hsent ih =>
    have htime := ih (mt (passesIn_of_round avoids hpop hsettled hsent) hwhole)
    have hfew := length_waiting_of_round avoids hpop hsettled hsent
    generalize hwaiting : waiting h = txs at htime
    cases htime with
    | drained =>
      obtain ⟨range, hpopped, -⟩ := popFront_ok hpop
      have hfront := hpopped.waiting_eq
      rw [hwaiting] at hfront
      simp_all
    | @waiting ahead tx behind hmay hdue =>
      rw [hwaiting] at hfew
      simp only [List.length_append, List.length_cons] at hfew
      obtain hpublished | ⟨hnone, hgate, ahead', behind', hback, hturned⟩ :=
        hsettled.turned avoids hpop hsent hwaiting hmay
      · have hone := List.length_pos_iff.2 hpublished
        have hmono := drainTurns_mono batch.toNat
          (show (waiting h₃).length ≤ ahead.length + behind.length by omega)
        have hturn := Nat.zero_le (ahead.length / batch.toNat)
        refine .of_exists hbatch ?_ fun hsome =>
          (Runs.round hruns hpop hentries hsettled hsent).exists_mayRun avoids hqueued hwhole hsome
        change e.rounds + 1 + _ ≤ _
        omega
      · have hmono := drainTurns_mono batch.toNat
          (show ahead'.length + behind'.length ≤ ahead.length + behind.length by
            rw [hback] at hfew
            simp only [List.length_append, List.length_cons] at hfew
            omega)
        have hturn : ahead.length / batch.toNat = ahead'.length / batch.toNat + 1 := by
          rw [hturned, Nat.add_div_left _ hbatch]
        rw [hback, hgate]
        refine .waiting hmay ?_
        rw [hturn] at hdue
        change e.rounds + 1 + _ + _ ≤ _
        omega
  | @idle e gate h h₁ _ hpop ih =>
    have hsettled : Settled r hashes block gate h₁ [] { gate } h₁ := .start
    have hsent : SentBack { gate } h₁ h₁ := .inl ⟨rfl, rfl⟩
    obtain ⟨range, hpopped, -⟩ := popFront_ok hpop
    have hfront := hpopped.waiting_eq
    have htime := ih (mt (passesIn_of_round avoids hpop hsettled hsent) hwhole)
    rw [hfront] at htime
    exact htime

end

/-! ## Rounds in a row -/

/-- A round takes entries off a queue in which something waits. -/
theorem entries_ne_nil (hbatch : 0 < batch.toNat) {h h₁ : Contents} {entries : List QueueEntry}
    (hpop : (popFront batch).eval h = .ok entries h₁) (hsome : waiting h ≠ []) : entries ≠ [] := by
  obtain ⟨range, hpopped, hlength⟩ := popFront_ok hpop
  have hfew := length_waiting_le hpopped.range
  have hone := List.length_pos_iff.2 hsome
  rw [← List.length_pos_iff]
  omega

theorem runRounds_published {dealer : Dealer} {count : Nat} {s : dealer.State} {gate : NonceGate}
    {e e' : BlockExecution} {n n' : Node}
    (h : runRounds r batch block dealer count s gate e n = .ok e' n') :
    e.published <+: e'.published := by
  induction count generalizing s gate e n with
  | zero =>
    obtain ⟨rfl, -⟩ := pure_ok.1 h
    exact List.prefix_rfl
  | succ count ih =>
    obtain ⟨entries, popped, -, ⟨-, rfl, -⟩ | ⟨-, p, s', settled, sent, -, -, hrest⟩⟩ := runRounds_inv h
    · exact List.prefix_rfl
    · exact (List.prefix_append e.published p.published).trans (ih hrest)

/-- Rounds go on until nothing waits or there are no more of them. -/
theorem runRounds_exhausted (hbatch : 0 < batch.toNat) {dealer : Dealer} {count : Nat}
    {s : dealer.State} {gate : NonceGate} {e e' : BlockExecution} {n n' : Node}
    (h : runRounds r batch block dealer count s gate e n = .ok e' n') :
    waiting n'.view.contents = [] ∨ e'.rounds = e.rounds + count := by
  induction count generalizing s gate e n with
  | zero =>
    obtain ⟨rfl, -⟩ := pure_ok.1 h
    exact .inr rfl
  | succ count ih =>
    obtain ⟨entries, popped, haccess, hround⟩ := runRounds_inv h
    obtain ⟨v, hrun, rfl⟩ := access_ok.1 haccess
    have hpop := eval_of_run hrun
    obtain ⟨hnone, -, rfl⟩ | ⟨-, p, s', settled, sent, -, -, hrest⟩ := hround
    · obtain ⟨range, hpopped, -⟩ := popFront_ok hpop
      have hfront := hpopped.waiting_eq
      have hempty : waiting n.view.contents = [] := by
        by_contra hsome
        exact entries_ne_nil hbatch hpop hsome hnone
      rw [hempty, hnone] at hfront
      exact .inl hfront.symm
    · obtain hdrained | hrounds := ih hrest
      · exact .inl hdrained
      · refine .inr (hrounds.trans ?_)
        change e.rounds + 1 + count = _
        omega

/-- An entry that may run is published once the rounds have come to it, if none was published before. -/
theorem runRounds_publishes (avoids : r.contracts.Avoids Key.IsQueue) (hbatch : 0 < batch.toNat)
    {dealer : Dealer} {count : Nat} {s : dealer.State} {gate : NonceGate} {e e' : BlockExecution}
    {n n' : Node} (h : runRounds r batch block dealer count s gate e n = .ok e' n')
    {ahead behind : List Transaction} {tx : Transaction}
    (hwaiting : waiting n.view.contents = ahead ++ tx :: behind)
    (hmay : gate.mayRun block.number tx = true) (hcount : ahead.length < count * batch.toNat) :
    e.published.length < e'.published.length := by
  induction count generalizing s gate e n ahead behind with
  | zero =>
    rw [Nat.zero_mul] at hcount
    exact absurd hcount (Nat.not_lt_zero _)
  | succ count ih =>
    obtain ⟨entries, popped, haccess, hround⟩ := runRounds_inv h
    obtain ⟨v, hrun, rfl⟩ := access_ok.1 haccess
    have hpop := eval_of_run hrun
    have hentries := entries_ne_nil hbatch hpop (by rw [hwaiting]; simp)
    obtain ⟨hnone, -⟩ | ⟨-, p, s', settled, sent, hsettle, hsend, hrest⟩ := hround
    · exact absurd hnone hentries
    obtain ⟨hsettled, -⟩ := runRound_settled hsettle (nodup_of_popFront hpop)
    obtain ⟨hsent, -⟩ := sendBack_ok hsend
    have hadded : (addRound e p).published.length = e.published.length + p.published.length :=
      List.length_append
    obtain hpublished | ⟨hnone, hgate, ahead', behind', hback, hturned⟩ :=
      hsettled.turned avoids hpop hsent hwaiting hmay
    · have hone := List.length_pos_iff.2 hpublished
      have hmore := (runRounds_published hrest).length_le
      omega
    · rw [← hgate] at hmay
      have hmore := ih hrest hback hmay (by rw [Nat.succ_mul] at hcount; omega)
      rw [hnone, List.length_nil] at hadded
      omega

/-! ## Blocks that come to an end -/

/-- No run and no commit hook stops in a block on the contents `f`. -/
structure Calm (r : Runner) (hashes : BlockHashes) (block : Block) (batch : UInt64) (f : Contents) :
    Prop where
  run : ∀ {e gate h h₁ entries entry fault o}, Reached r hashes block batch f e gate h →
    (popFront batch).eval h = .ok entries h₁ → entry ∈ entries →
    gate.mayRun block.number entry.tx = true → r.trial hashes block entry.tx h₁ ≠ .error fault o
  hook : ∀ {e gate h h₁ h₂ done entry rest p result c o contract fault g},
    Reached r hashes block batch f e gate h →
    (popFront batch).eval h = .ok (done ++ entry :: rest) h₁ →
    Settled r hashes block gate h₁ done p h₂ → gate.mayRun block.number entry.tx = true →
    r.trial hashes block entry.tx h₁ = .ok (result, c) o → o.conflictsWith p.written = false →
    r.contracts.at? result.tx.destination = some contract →
    (contract.committed result).eval (o.atop h₂) ≠ .error fault g

end Rounds

namespace Queue

/-- The end of a queue can move on by so many positions and neither pass over the reserved position nor
come to the last one. -/
def Clear (stop : UInt64) (far : Nat) : Prop :=
  stop.toNat + far ≤ reserved.toNat ∨ reserved < stop ∧ stop.toNat + far < UInt64.size

instance (stop : UInt64) (far : Nat) : Decidable (Clear stop far) := inferInstanceAs (Decidable (_ ∨ _))

end Queue

namespace Rounds

variable {r : Runner} {hashes : BlockHashes} {block : Block} {batch : UInt64}

section

variable {f : Contents} {before : QueueRange} (avoids : r.contracts.Avoids Key.IsQueue)
  (hbatch : 0 < batch.toNat) (hwell : WellFormed f before)

include avoids

/-- No more waits than before the block. -/
theorem Runs.length_waiting_le {gate gate' : NonceGate} {g : Contents} {e : BlockExecution}
    (h : Runs r hashes block batch gate f e gate' g) : (waiting g).length ≤ (waiting f).length := by
  obtain ⟨lost, -, -, hperm⟩ := h.exists_lost avoids
  have hlength := hperm.length_eq
  simp only [List.length_append] at hlength
  omega

include hwell in
theorem Runs.not_passesIn {gate gate' : NonceGate} {g : Contents} {e : BlockExecution}
    (h : Runs r hashes block batch gate f e gate' g) {far : Nat} (hclear : Clear before.stop far)
    (hfew : e.reappended ≤ far) : ¬ PassesIn f g := by
  obtain ⟨now, hmoved⟩ := h.moved avoids hwell.range hwell.ordered
  have hstop := hmoved.stop
  rw [passesIn_iff hwell.range hmoved.range, passes_iff]
  rcases hclear with hbelow | ⟨habove, -⟩
  · omega
  · rw [UInt64.lt_iff_toNat_lt] at habove
    omega

include hbatch

/-- A round that takes entries is one of those that the queue is drained in. -/
theorem Runs.within_round {queued : List QueueEntry} (hqueued : queued.map (·.tx) = waiting f)
    {gate : NonceGate} {h h₁ h₂ : Contents} {e : BlockExecution} {entries : List QueueEntry}
    {p : Progress} (hruns : Runs r hashes block batch (.ofEntries queued) f e gate h)
    (hwhole : ¬ PassesIn f h) (hfew : e.reappended ≤ e.rounds * (waiting f).length)
    (hpop : (popFront batch).eval h = .ok entries h₁) (hentries : entries ≠ [])
    (hsettled : Settled r hashes block gate h₁ entries p h₂) :
    e.rounds + 1 ≤ drainTurns batch.toNat (waiting f).length ∧
      e.reappended + p.retry.length ≤ (e.rounds + 1) * (waiting f).length := by
  have hsome : waiting h ≠ [] := by
    obtain ⟨range, hpopped, -⟩ := popFront_ok hpop
    rw [hpopped.waiting_eq]
    simp [hentries]
  have hretry := (length_retry_le hpop hsettled).trans (hruns.length_waiting_le avoids)
  refine ⟨(hruns.onTime avoids hqueued hbatch hwhole).rounds_le.2 hsome, ?_⟩
  rw [Nat.succ_mul]
  omega

section

variable (hclear : Clear before.stop (drainTurns batch.toNat (waiting f).length * (waiting f).length))

include hwell hclear

/-- A queue whose end stays clear is drained in time, and what is sent back until then is bounded. -/
theorem Reached.within {gate : NonceGate} {g : Contents} {e : BlockExecution}
    (h : Reached r hashes block batch f e gate g) :
    e.rounds ≤ drainTurns batch.toNat (waiting f).length ∧
      e.reappended ≤ e.rounds * (waiting f).length ∧ ¬ PassesIn f g := by
  obtain ⟨queued, hqueued, hruns⟩ := h
  have hkept {e : BlockExecution} {gate : NonceGate} {g : Contents}
      (hruns : Runs r hashes block batch (.ofEntries queued) f e gate g)
      (htime : e.rounds ≤ drainTurns batch.toNat (waiting f).length)
      (hfew : e.reappended ≤ e.rounds * (waiting f).length) : ¬ PassesIn f g :=
    hruns.not_passesIn avoids hwell hclear (hfew.trans (Nat.mul_le_mul_right _ htime))
  induction hruns with
  | start => exact ⟨Nat.zero_le _, Nat.zero_le _, PassesIn.irrefl⟩
  | round hruns hpop hentries hsettled hsent ih =>
    obtain ⟨-, hfew, hwhole⟩ := ih
    obtain ⟨htime, hback⟩ :=
      hruns.within_round avoids hbatch hqueued hwhole hfew hpop hentries hsettled
    exact ⟨htime, hback, hkept (.round hruns hpop hentries hsettled hsent) htime hback⟩
  | idle hruns hpop ih =>
    obtain ⟨htime, hfew, -⟩ := ih
    exact ⟨htime, hfew, hkept (.idle hruns hpop) htime hfew⟩

/-- What a round sends back has positions. -/
theorem Reached.returns {gate : NonceGate} {h h₁ h₂ g : Contents} {e : BlockExecution}
    (hreached : Reached r hashes block batch f e gate h) {entries : List QueueEntry} {p : Progress}
    (hpop : (popFront batch).eval h = .ok entries h₁)
    (hsettled : Settled r hashes block gate h₁ entries p h₂) {fault : Fault} :
    (append p.retry).eval h₂ ≠ .error fault g := by
  intro happend
  obtain ⟨-, hfew, hwhole⟩ := hreached.within avoids hbatch hwell hclear
  obtain ⟨queued, hqueued, hruns⟩ := hreached
  obtain ⟨now, hmoved⟩ := hruns.moved avoids hwell.range hwell.ordered
  obtain ⟨range, hpopped, -⟩ := popFront_ok hpop
  obtain rfl : now = range := Except.ok.inj (hmoved.range.symm.trans hpopped.range)
  have hnext : rangeIn h₂ = .ok _ :=
    (rangeIn_congr fun key hkey => hsettled.queue_eq avoids hkey).trans hpopped.next
  have hstop := now.stop.toNat_lt
  have hsize : UInt64.size = 2 ^ 64 := rfl
  have hreserved : reserved.toNat = 0x3fffffffffffff00 := rfl
  obtain ⟨-, hbad⟩ | ⟨range, hrange, hfull, -⟩ := append_stops happend
  · cases hbad.symm.trans hnext
  obtain rfl : _ = range := Except.ok.inj (hnext.symm.trans hrange)
  dsimp only at hfull
  by_cases hentries : entries = []
  · have heach := hsettled.perm.length_eq
    simp only [hentries, List.map_nil, List.length_append, List.length_nil] at heach
    omega
  · obtain ⟨htime, hback⟩ :=
      hruns.within_round avoids hbatch hqueued hwhole hfew hpop hentries hsettled
    have hfar := hback.trans (Nat.mul_le_mul_right _ htime)
    have hmoved := hmoved.stop
    rcases hclear with hbelow | ⟨-, habove⟩
    · omega
    · omega

/-- A round of a block in which no run and no hook stops does not stop either. -/
theorem Reached.unbroken (room : entryRoom * (waiting f).length ≤ Room.most)
    (calm : Calm r hashes block batch f) {gate : NonceGate} {h g : Contents} {e : BlockExecution}
    (hreached : Reached r hashes block batch f e gate h) {fault : Fault}
    {committed taken : List Transaction} :
    ¬ Broken r hashes block batch gate h fault committed taken g := by
  intro hbroken
  cases hbroken with
  | taking hpop =>
    obtain ⟨-, -, hwhole⟩ := hreached.within avoids hbatch hwell hclear
    obtain ⟨queued, hqueued, hruns⟩ := hreached
    obtain ⟨now, hmoved⟩ := hruns.moved avoids hwell.range hwell.ordered
    rw [passesIn_iff hwell.range hmoved.range] at hwhole
    have hnow := hmoved.wellFormed hwell hwhole
    have hfew := Nat.mul_le_mul_left entryRoom (hruns.length_waiting_le avoids)
    rw [hnow.length_waiting] at hfew
    obtain ⟨entries, f', hends⟩ := hnow.popFront_returns (hfew.trans room) batch
    cases hpop.symm.trans hends
  | running hpop hentry hmay htrial => exact calm.run hreached hpop hentry hmay htrial
  | hook hpop hsettled hmay htrial hconflict hcontract hhook =>
    exact calm.hook hreached hpop hsettled hmay htrial hconflict hcontract hhook
  | returning hpop hsettled happend =>
    exact hreached.returns avoids hbatch hwell hclear hpop hsettled happend

end

end

/-- A node between two rounds of a block on the node `n`. -/
structure Between (r : Runner) (block : Block) (batch : UInt64) (n : Node) (e : BlockExecution)
    (gate : NonceGate) (m : Node) : Prop where
  reached : Reached r n.hashes block batch n.view.contents e gate m.view.contents
  idle : m.view.overlays = []
  hashes : ∀ number, m.hashes.lookUp number = n.hashes.lookUp number

section

variable {pool : Pool} {dealer : Dealer} {n : Node} {before : QueueRange}
  (avoids : r.contracts.Avoids Key.IsQueue) (hbatch : 0 < pool.batch.toNat)
  (hwell : WellFormed n.view.contents before)

include avoids hbatch hwell

/-- A block that had the turns and returns has published all that was queued, unless the end of the queue
has passed over the reserved position. -/
theorem execute_drained {n' : Node} {e : BlockExecution}
    (h : pool.execute r block dealer n = .ok e n')
    (hrounds : drainTurns pool.batch.toNat (waiting n.view.contents).length ≤ pool.rounds.toNat) :
    ∃ now, rangeIn n'.view.contents = .ok now ∧
      (now.start = now.stop ∧ (e.results.map (·.tx)).Perm (waiting n.view.contents) ↔
        ¬ Passes before.stop now.stop) := by
  obtain ⟨range, queued, m, m', hrange, hpositions, hfound, hcontents, hhashes, hrun, hview⟩ :=
    execute_rounds h
  have hqueued := (waiting_of_found hrange hpositions hfound).symm
  have hstart : Runs r n.hashes block pool.batch (.ofEntries queued) n.view.contents {}
      (.ofEntries queued) m.view.contents := by
    rw [hcontents]
    exact .start
  obtain ⟨⟨gate, hruns⟩, -⟩ := runRounds_runs hrun hstart fun _ => by rw [hhashes]
  have hended := runRounds_exhausted hbatch hrun
  rw [hview] at hruns hended
  obtain ⟨now, hmoved⟩ := hruns.moved avoids hwell.range hwell.ordered
  obtain ⟨lost, -, hlost, hperm⟩ := hruns.exists_lost avoids
  rw [passesIn_iff hwell.range hmoved.range] at hlost
  refine ⟨now, hmoved.range, ?_, fun hwhole => ?_⟩
  · rintro ⟨-, hall⟩ hpasses
    have hlength := hperm.length_eq.trans hall.length_eq.symm
    have hone := List.length_pos_iff.2 (hlost.2 hpasses)
    simp only [List.length_append] at hlength
    omega
  · obtain rfl : lost = [] := by
      by_contra hsome
      exact hwhole (hlost.1 hsome)
    have hdrained : waiting n'.view.contents = [] := by
      by_contra hsome
      have htime := hruns.onTime avoids hqueued hbatch
        (by rwa [passesIn_iff hwell.range hmoved.range])
      have hlast := htime.rounds_le.2 hsome
      rcases hended with hnone | hlate
      · exact hsome hnone
      · change e.rounds = 0 + _ at hlate
        omega
    have hlength := (hmoved.wellFormed hwell hwhole).length_waiting
    have hordered := UInt64.le_iff_toNat_le.1 hmoved.ordered
    rw [hdrained, List.length_nil] at hlength
    rw [hdrained, List.append_nil, List.append_nil] at hperm
    exact ⟨UInt64.toNat_inj.1 (by omega), hperm⟩

variable (idle : n.view.overlays = [])
  (room : entryRoom * (waiting n.view.contents).length ≤ Room.most)
  (calm : Calm r n.hashes block pool.batch n.view.contents)
  (hclear : Clear before.stop (drainTurns pool.batch.toNat (waiting n.view.contents).length
    * (waiting n.view.contents).length))

include room calm hclear

theorem Between.returns {e : BlockExecution} {gate : NonceGate} {m : Node}
    (h : Between r block pool.batch n e gate m) (s : dealer.State) (count : Nat) :
    ∃ e' m', runRounds r pool.batch block dealer count s gate e m = .ok e' m' := by
  cases hends : runRounds r pool.batch block dealer count s gate e m with
  | ok e' m' => exact ⟨e', m', rfl⟩
  | error fault m' =>
    obtain ⟨queued, hqueued, hruns⟩ := h.reached
    obtain ⟨e', gate', g, committed, taken, hruns', hbroken⟩ :=
      runRounds_stops h.idle hends hruns h.hashes
    have hreached : Reached r n.hashes block pool.batch n.view.contents e' gate' g :=
      ⟨queued, hqueued, hruns'⟩
    exact absurd hbroken (hreached.unbroken avoids hbatch hwell hclear room calm)

/-- As many rounds as it takes to turn the queue over publish a result. -/
theorem Between.publishes {e : BlockExecution} {gate : NonceGate} {m : Node}
    (h : Between r block pool.batch n e gate m) (hsome : waiting m.view.contents ≠ [])
    (s : dealer.State) {count : Nat}
    (hcount : turns pool.batch.toNat (waiting m.view.contents).length ≤ count) :
    ∃ e' m', runRounds r pool.batch block dealer count s gate e m = .ok e' m' ∧
      e.published.length < e'.published.length := by
  obtain ⟨e', m', hends⟩ := h.returns avoids hbatch hwell room calm hclear s count
  obtain ⟨-, -, hwhole⟩ := h.reached.within avoids hbatch hwell hclear
  obtain ⟨queued, hqueued, hruns⟩ := h.reached
  obtain ⟨tx, htx, hmay⟩ := hruns.exists_mayRun avoids hqueued hwhole hsome
  obtain ⟨ahead, behind, hwaiting⟩ := List.append_of_mem htx
  refine ⟨e', m', hends, runRounds_publishes avoids hbatch hends hwaiting hmay ?_⟩
  have hturn := (le_turns_mul hbatch (waiting m.view.contents).length).trans
    (Nat.mul_le_mul_right _ hcount)
  rw [hwaiting] at hturn
  simp only [List.length_append, List.length_cons] at hturn
  omega

include idle

theorem execute_returns : ∃ e n', pool.execute r block dealer n = .ok e n' := by
  cases hends : pool.execute r block dealer n with
  | ok e n' => exact ⟨e, n', rfl⟩
  | error fault n' =>
    obtain ⟨committed, taken, hstopped⟩ := execute_stops idle hends
    generalize n'.view.stored = g at hstopped
    cases hstopped with
    | loading hload =>
      obtain hrange | ⟨range, f₁, hrange, hread⟩ := eval_bind_stops.1 hload
      · cases hwell.range.symm.trans (range_stops.1 hrange).1
      obtain ⟨hfound, rfl⟩ := range_ok.1 hrange
      obtain rfl : before = range := Except.ok.inj (hwell.range.symm.trans hfound)
      rw [hwell.length_waiting] at room
      exact absurd hread (hwell.load_returns room UInt64.le_rfl)
    | round hqueued hruns hbroken =>
      have hreached : Reached r n.hashes block pool.batch n.view.contents _ _ _ :=
        ⟨_, hqueued, hruns⟩
      exact absurd hbroken (hreached.unbroken avoids hbatch hwell hclear room calm)

end

/-- A block that had the turns and returns has published all that was queued, unless the end of the queue has
passed over the reserved position. When the end stays clear of it, and no run and no hook stops, the block
does return, and any rounds that turn the queue over publish a result. -/
theorem execute_drains (avoids : r.contracts.Avoids Key.IsQueue) {pool : Pool} {n : Node}
    {before : QueueRange} (hbatch : 0 < pool.batch) (hwell : WellFormed n.view.contents before)
    (idle : n.view.overlays = []) (room : entryRoom * (waiting n.view.contents).length ≤ Room.most)
    (calm : Calm r n.hashes block pool.batch n.view.contents) (dealer : Dealer) :
    (drainTurns pool.batch.toNat (waiting n.view.contents).length ≤ pool.rounds.toNat →
      ∀ e n', pool.execute r block dealer n = .ok e n' →
        ∃ now, rangeIn n'.view.contents = .ok now ∧
          (now.start = now.stop ∧ (e.results.map (·.tx)).Perm (waiting n.view.contents) ↔
            ¬ Passes before.stop now.stop)) ∧
      (Clear before.stop (drainTurns pool.batch.toNat (waiting n.view.contents).length
          * (waiting n.view.contents).length) →
        (∀ e gate m, Between r block pool.batch n e gate m → waiting m.view.contents ≠ [] →
          ∀ (s : dealer.State) (count : Nat),
            turns pool.batch.toNat (waiting m.view.contents).length ≤ count →
            ∃ e' m', runRounds r pool.batch block dealer count s gate e m = .ok e' m' ∧
              e.published.length < e'.published.length) ∧
        (drainTurns pool.batch.toNat (waiting n.view.contents).length ≤ pool.rounds.toNat →
          ∃ e n' now, pool.execute r block dealer n = .ok e n' ∧
            (e.results.map (·.tx)).Perm (waiting n.view.contents) ∧
            rangeIn n'.view.contents = .ok now ∧ now.start = now.stop)) := by
  have hbatch : 0 < pool.batch.toNat := UInt64.lt_iff_toNat_lt.1 hbatch
  refine ⟨fun hrounds e n' h => execute_drained avoids hbatch hwell h hrounds, fun hclear => ⟨?_, ?_⟩⟩
  · intro e gate m hbetween hsome s count hcount
    exact hbetween.publishes avoids hbatch hwell room calm hclear hsome s hcount
  · intro hrounds
    obtain ⟨e, n', hends⟩ := execute_returns avoids hbatch hwell idle room calm hclear
    obtain ⟨now, hrange, hall⟩ := execute_drained avoids hbatch hwell hends hrounds
    obtain ⟨_, _, gate, hfound, hpositions, hentries, hruns, -⟩ := execute_runs hends
    obtain ⟨-, -, hwhole⟩ := Reached.within avoids hbatch hwell hclear
      ⟨_, (waiting_of_found hfound hpositions hentries).symm, hruns⟩
    rw [passesIn_iff hwell.range hrange] at hwhole
    obtain ⟨hempty, hperm⟩ := hall.2 hwhole
    exact ⟨e, n', now, hends, hperm, hrange, hempty⟩

/-! ## A queue in the wrong order -/

/-- Nothing is written for a sender that has no account. -/
theorem trial_of_stranger (r : Runner) (hashes : BlockHashes) (block : Block) {tx : Transaction}
    {f : Contents} (hnone : f (Key.account tx.sender).bytes = none) :
    ∃ status o, r.trial hashes block tx f = .ok (.terminal tx status, []) o ∧
      status.isSuccess = false ∧ o.atop f = f := by
  unfold Runner.trial
  split
  · exact ⟨.tooOld, {}, rfl, rfl, Overlay.atop_empty f⟩
  · have heval : (r.execute hashes block tx).eval f = .ok (.terminal tx .accountNotExist, []) f := by
      unfold Runner.execute State.checkNonce State.account
      simp [hnone, NonceMismatch.status]
    have habove := eval_atop (r.execute hashes block tx) f {}
    rw [Overlay.atop_empty, heval] at habove
    cases hends : (r.execute hashes block tx).above f {} with
    | error fault o =>
      rw [hends] at habove
      cases habove
    | ok out o =>
      rw [hends] at habove
      obtain ⟨rfl, hsame⟩ := EStateM.Result.ok.inj habove
      exact ⟨.accountNotExist, o, rfl, rfl, hsame.symm⟩

theorem Serial.eq_of_strangers {f g : Contents} {results : List CommittedResult}
    (h : Serial r hashes block f results g)
    (hnone : ∀ result ∈ results, f (Key.account result.tx.sender).bytes = none) : g = f := by
  induction h with
  | start => rfl
  | @next results g tx result c o _ htrial ih =>
    rw [List.forall_mem_append, List.forall_mem_singleton] at hnone
    obtain rfl := ih hnone.1
    have htx : result.tx = tx := Runner.trial_tx htrial
    rw [htx] at hnone
    obtain ⟨status, o', hstranger, -, hsame⟩ := trial_of_stranger r hashes block hnone.2
    cases hstranger.symm.trans htrial
    exact hsame

section

variable {f : Contents} (hstaking : r.contracts.OnlyStaking)
  (hnone : ∀ tx ∈ waiting f, f (Key.account tx.sender).bytes = none)

include hstaking hnone

theorem Runs.sameState_of_strangers {gate gate' : NonceGate} {g : Contents} {e : BlockExecution}
    (h : Runs r hashes block batch gate f e gate' g) : g.SameState f := by
  obtain ⟨lost, -, -, hperm⟩ := h.exists_lost hstaking.avoids
  obtain ⟨s, hserial, hsame⟩ := h.serial hstaking.avoids hstaking.quiet
  obtain rfl : s = f := hserial.eq_of_strangers fun result hresult =>
    hnone result.tx (hperm.mem_iff.1 (by simp [List.mem_map_of_mem hresult]))
  exact hsame.symm

theorem Reached.trial_of_strangers {gate : NonceGate} {h h₁ : Contents} {e : BlockExecution}
    {entries : List QueueEntry} {entry : QueueEntry} (hreached : Reached r hashes block batch f e gate h)
    (hpop : (popFront batch).eval h = .ok entries h₁) (hentry : entry ∈ entries) :
    ∃ status o, r.trial hashes block entry.tx h₁ = .ok (.terminal entry.tx status, []) o ∧
      status.isSuccess = false := by
  obtain ⟨queued, hqueued, hruns⟩ := hreached
  obtain ⟨lost, -, -, hperm⟩ := hruns.exists_lost hstaking.avoids
  obtain ⟨range, hpopped, -⟩ := popFront_ok hpop
  have hmem : entry.tx ∈ waiting f := by
    refine hperm.mem_iff.1 ?_
    rw [hpopped.waiting_eq]
    simp [List.mem_map_of_mem hentry]
  have hsame := hpopped.sameState.trans (hruns.sameState_of_strangers hstaking hnone)
  have hkey := hsame (Key.account entry.tx.sender).bytes (Key.not_isQueue_of_isState rfl)
  obtain ⟨status, o, htrial, hfailed, -⟩ :=
    trial_of_stranger r hashes block (hkey.trans (hnone entry.tx hmem))
  exact ⟨status, o, htrial, hfailed⟩

/-- A block runs through when no sender of what is queued has an account. -/
theorem calm_of_strangers : Calm r hashes block batch f where
  run hreached hpop hentry _ htrial := by
    obtain ⟨status, o, hends, -⟩ := hreached.trial_of_strangers hstaking hnone hpop hentry
    cases hends.symm.trans htrial
  hook hreached hpop _ _ htrial _ hcontract hhook := by
    obtain ⟨status, o, hends, hfailed⟩ :=
      hreached.trial_of_strangers hstaking hnone hpop (List.mem_append_right _ List.mem_cons_self)
    cases hends.symm.trans htrial
    obtain rfl := hstaking.at? hcontract
    change (Staking.committed _).eval _ = _ at hhook
    unfold Staking.committed at hhook
    simp [CommittedResult.terminal, hfailed] at hhook

end

/-- Two transfers are put on an empty queue in the wrong order. -/
def backwards (start : UInt64) : EStateM.Result Fault Node QueueRange :=
  Session.access (do setRange ⟨start, start⟩; append [transfer 1, transfer 0]) {}

theorem wellFormed_setRange (start : UInt64) :
    WellFormed (({} : View).contents.put Key.queue.bytes (some (QueueRange.encode ⟨start, start⟩)))
      ⟨start, start⟩ := by
  refine ⟨rangeIn_put _ _, UInt64.le_rfl, ?_, fun position _ hreserved => ?_⟩
  · exact fun _ hbehind hbefore => absurd hbefore (UInt64.not_lt.2 hbehind)
  · rw [Contents.put_other _ _ fun hkey => hreserved (Key.entry_eq_queue.1 hkey.symm),
      View.contents_of_idle rfl]
    exact Std.ExtTreeMap.getElem?_empty

theorem backwards_ok {start : UInt64} {range : QueueRange} {n : Node}
    (h : backwards start = .ok range n) (hpasses : ¬ Passes start (start + 2)) :
    WellFormed n.view.contents ⟨start, start + 2⟩ ∧ n.view.overlays = [] ∧
      waiting n.view.contents = kept start [transfer 1, transfer 0] ∧
      ∀ hashes batch, Calm stakingRunner hashes {} batch n.view.contents := by
  obtain ⟨v, hrun, rfl⟩ := access_ok.1 h
  obtain ⟨_, _, ⟨⟩, happend⟩ := eval_bind_ok.1 (eval_of_run hrun)
  have hold := wellFormed_setRange start
  obtain ⟨r, happended, -⟩ := append_ok happend
  obtain rfl : r = ⟨start, start⟩ := Except.ok.inj (happended.range.symm.trans hold.range)
  have hsized : ∀ tx ∈ [transfer 1, transfer 0], tx.data.length < UInt64.size := by decide
  have hempty : waiting (({} : View).contents.put Key.queue.bytes
      (some (QueueRange.encode ⟨start, start⟩))) = [] := by
    rw [← List.length_eq_zero_iff, hold.length_waiting, Nat.sub_self]
  refine ⟨hold.appended happended hsized hpasses, overlays_of_run hrun rfl, ?_, fun hashes batch => ?_⟩
  · rw [happended.waiting_eq UInt64.le_rfl hsized, hempty, List.nil_append]
  · refine calm_of_strangers ContractTable.onlyStaking_insert fun tx _ => ?_
    have hkey : ¬ Key.IsQueue (Key.account tx.sender).bytes := Key.not_isQueue_of_isState rfl
    rw [happended.sameState _ hkey,
      Contents.put_other _ _ fun hqueue => (Key.not_isQueue.1 hkey).1 hqueue.symm,
      View.contents_of_idle rfl]
    exact Std.ExtTreeMap.getElem?_empty

/-- The first round takes the transfer that has to wait. -/
theorem backwards_drained :
    ∃ range n e n' now, backwards 0 = .ok range n ∧
      { onePerRound with rounds := 3 }.execute stakingRunner {} .inOrder n = .ok e n' ∧
      drainTurns 1 (waiting n.view.contents).length = 3 ∧
      (e.results.map (·.tx)).Perm [transfer 1, transfer 0] ∧
      rangeIn n'.view.contents = .ok now ∧ now.start = now.stop := by
  have hends : endsWith (backwards 0) (fun _ _ => true) = true := by decide +kernel
  obtain ⟨range, n, hqueue, -⟩ := endsWith_iff.1 hends
  obtain ⟨hwell, hidle, hwaiting, hcalm⟩ := backwards_ok hqueue (by decide)
  have hkept : kept 0 [transfer 1, transfer 0] = [transfer 1, transfer 0] := by decide
  rw [hkept] at hwaiting
  have hstaking : stakingRunner.contracts.OnlyStaking := ContractTable.onlyStaking_insert
  have hbatch : 0 < ({ onePerRound with rounds := 3 } : Pool).batch := by decide
  obtain ⟨-, hdrains⟩ := execute_drains hstaking.avoids hbatch hwell hidle
    (by rw [hwaiting]; decide) (hcalm _ _) .inOrder
  rw [hwaiting] at hdrains
  obtain ⟨-, hreturns⟩ := hdrains (by decide)
  obtain ⟨e, n', now, hexecute, hperm, hrange, hdone⟩ := hreturns (by decide)
  exact ⟨range, n, e, n', now, hqueue, hexecute, by rw [hwaiting]; rfl, hperm, hrange, hdone⟩

/-- What is sent back to the reserved position cannot be taken off any more, although no run stops and the
block has the turns. -/
theorem backwards_stuck :
    ∃ range n m, backwards (reserved - 2) = .ok range n ∧
      WellFormed n.view.contents ⟨reserved - 2, reserved⟩ ∧
      Calm stakingRunner n.hashes {} smallPool.batch n.view.contents ∧
      drainTurns smallPool.batch.toNat (waiting n.view.contents).length ≤ smallPool.rounds.toNat ∧
      smallPool.execute stakingRunner {} .inOrder n = .error (.entryCorrupt reserved) m := by
  have hends : endsWith (backwards (reserved - 2)) (fun _ n =>
      stopsWith (smallPool.execute stakingRunner {} .inOrder n) fun fault _ =>
        fault == .entryCorrupt reserved) = true := by
    decide +kernel
  obtain ⟨range, n, hqueue, hends⟩ := endsWith_iff.1 hends
  obtain ⟨fault, m, hexecute, hfault⟩ := stopsWith_iff.1 hends
  obtain rfl := beq_iff_eq.1 hfault
  obtain ⟨hwell, -, hwaiting, hcalm⟩ := backwards_ok hqueue (by decide)
  have hkept : kept (reserved - 2) [transfer 1, transfer 0] = [transfer 1, transfer 0] := by decide
  refine ⟨range, n, m, hqueue, hwell, hcalm _ _, ?_, hexecute⟩
  rw [hwaiting, hkept]
  decide

end Rounds

end RoundLedger
