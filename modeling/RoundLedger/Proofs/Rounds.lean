import Mathlib.Data.List.Nodup
import RoundLedger.Proofs.Trial
import RoundLedger.Proofs.Waiting
import RoundLedger.Rounds

/-!
# What a block does to the contents

A block seen as a relation on contents: rounds take entries off the front, every entry is held
back, found in conflict or committed (`Settled`), and the rest goes to the end (`Runs`). The order
in which the work was dealt out has no part in it (`execute_runs`).
-/

namespace RoundLedger

open Step Program

namespace Rounds

variable (r : Runner) (hashes : BlockHashes) (block : Block)

/-- Entries of a round that started on the contents `f`, settled one after another. -/
inductive Settled (gate : NonceGate) (f : Contents) : List QueueEntry → Progress → Contents → Prop
  | start : Settled gate f [] { gate } f
  | held {done p g entry} : Settled gate f done p g →
      gate.mayRun block.number entry.tx = false →
      Settled gate f (done ++ [entry]) (p.putOff entry.tx) g
  | conflict {done p g entry result c o} : Settled gate f done p g →
      gate.mayRun block.number entry.tx = true →
      r.trial hashes block entry.tx f = .ok (result, c) o →
      o.conflictsWith p.written = true →
      Settled gate f (done ++ [entry]) { p.putOff entry.tx with conflicts := p.conflicts + 1 } g
  | commit {done p g g' entry result c o} : Settled gate f done p g →
      gate.mayRun block.number entry.tx = true →
      r.trial hashes block entry.tx f = .ok (result, c) o →
      o.conflictsWith p.written = false →
      r.Notified result (o.atop g) g' →
      Settled gate f (done ++ [entry]) (p.commit entry.position result o) g'

/-- What was sent back is queued. -/
def SentBack (p : Progress) (f f' : Contents) : Prop :=
  p.retry = [] ∧ f' = f ∨ p.retry ≠ [] ∧ ∃ range, (Queue.append p.retry).eval f = .ok range f'

/-- Rounds of a block that started on the contents `f`. -/
inductive Runs (batch : UInt64) (gate : NonceGate) (f : Contents) :
    BlockExecution → NonceGate → Contents → Prop
  | start : Runs batch gate f {} gate f
  | round {e g h h₁ h₂ h₃ entries p} : Runs batch gate f e g h →
      (Queue.popFront batch).eval h = .ok entries h₁ → entries ≠ [] →
      Settled r hashes block g h₁ entries p h₂ → SentBack p h₂ h₃ →
      Runs batch gate f (addRound e p) p.gate h₃
  | idle {e g h h₁} : Runs batch gate f e g h → (Queue.popFront batch).eval h = .ok [] h₁ →
      Runs batch gate f e g h₁

variable {r hashes block}

/-! ## One round -/

theorem runAll_ok {n m : Node} {order : List QueueEntry} {outputs : Outputs}
    (h : runAll r block order n = .ok outputs m) :
    m.Alike n ∧
      (∀ position, outputs.lookup position = none → ∀ entry ∈ order, entry.position ≠ position) ∧
      ∀ position result o, outputs.lookup position = some (result, o) →
        ∃ entry ∈ order, entry.position = position ∧
          ∃ c, r.trial n.hashes block entry.tx n.view.contents = .ok (result, c) o := by
  induction order generalizing n outputs with
  | nil =>
    obtain ⟨rfl, rfl⟩ := pure_ok.1 h
    exact ⟨.refl n, by simp, by simp⟩
  | cons entry rest ih =>
    rw [runAll] at h
    obtain ⟨output, l, hrun, hbehind⟩ := bind_ok.1 h
    obtain ⟨outputs', _, hrest, hdone⟩ := bind_ok.1 hbehind
    obtain ⟨rfl, rfl⟩ := pure_ok.1 hdone
    obtain ⟨⟨c, htrial⟩, halike⟩ := Runner.runTransaction_ok hrun
    obtain ⟨halike', hnone, hsome⟩ := ih hrest
    refine ⟨halike'.trans halike, ?_, ?_⟩
    · intro position hlookup
      rw [List.lookup_cons] at hlookup
      split at hlookup
      · cases hlookup
      next hne =>
        rintro other (_ | ⟨_, hother⟩)
        · exact fun hsame => beq_eq_false_iff_ne.1 hne hsame.symm
        · exact hnone position hlookup other hother
    · intro position result o hlookup
      rw [List.lookup_cons] at hlookup
      split at hlookup
      next hsame =>
        cases hlookup
        exact ⟨entry, List.mem_cons_self, (beq_iff_eq.1 hsame).symm, c, htrial⟩
      next =>
        obtain ⟨other, hother, hposition, c', htrial'⟩ := hsome position result o hlookup
        rw [halike.contents, Runner.trial_congr halike.hashes] at htrial'
        exact ⟨other, List.mem_cons_of_mem _ hother, hposition, c', htrial'⟩

/-- What came to an entry is put off, is found in conflict, or is applied and told to its contract. -/
theorem applyEntry_inv {outputs : Outputs} {p p' : Progress} {entry : QueueEntry} {n n' : Node}
    (h : applyEntry r outputs p entry n = .ok p' n') :
    (outputs.lookup entry.position = none ∧ p' = p.putOff entry.tx ∧ n' = n) ∨
      ∃ result o, outputs.lookup entry.position = some (result, o) ∧
        ((o.conflictsWith p.written = true ∧
            p' = { p.putOff entry.tx with conflicts := p.conflicts + 1 } ∧ n' = n) ∨
          (o.conflictsWith p.written = false ∧ p' = p.commit entry.position result o ∧
            r.notifyCommitted result { n with view := n.view.apply o } = .ok () n')) := by
  unfold applyEntry at h
  cases hlookup : outputs.lookup entry.position with
  | none =>
    simp only [hlookup] at h
    obtain ⟨rfl, rfl⟩ := pure_ok.1 h
    exact .inl ⟨rfl, rfl, rfl⟩
  | some output =>
    obtain ⟨result, o⟩ := output
    refine .inr ⟨result, o, rfl, ?_⟩
    simp only [hlookup] at h
    split at h
    next hconflict =>
      obtain ⟨rfl, rfl⟩ := pure_ok.1 h
      exact .inl ⟨hconflict, rfl, rfl⟩
    next hconflict =>
      obtain ⟨_, l, happly, hhook⟩ := bind_ok.1 h
      obtain rfl := modify_ok.1 happly
      obtain ⟨_, l', hnotify, hdone⟩ := bind_ok.1 hhook
      obtain ⟨rfl, rfl⟩ := pure_ok.1 hdone
      exact .inr ⟨by simpa using hconflict, rfl, hnotify⟩

theorem applyEntry_ok {outputs : Outputs} {p p' : Progress} {entry : QueueEntry} {n n' : Node}
    (h : applyEntry r outputs p entry n = .ok p' n') :
    (outputs.lookup entry.position = none ∧ p' = p.putOff entry.tx ∧ n' = n) ∨
      ∃ result o, outputs.lookup entry.position = some (result, o) ∧
        ((o.conflictsWith p.written = true ∧
            p' = { p.putOff entry.tx with conflicts := p.conflicts + 1 } ∧ n' = n) ∨
          (o.conflictsWith p.written = false ∧ p' = p.commit entry.position result o ∧
            n'.hashes = n.hashes ∧
            r.Notified result (o.atop n.view.contents) n'.view.contents)) := by
  refine (applyEntry_inv h).imp_right fun ⟨result, o, hlookup, hcase⟩ =>
    ⟨result, o, hlookup, hcase.imp_right fun ⟨hconflict, hcommit, hnotify⟩ => ?_⟩
  obtain ⟨hhashes, hnotified⟩ := Runner.notifyCommitted_ok hnotify
  rw [View.contents_applied] at hnotified
  exact ⟨hconflict, hcommit, hhashes, hnotified⟩

/-- The outputs of a round on the contents `f`: those of the entries that may run, found by their
positions. -/
structure Tried (r : Runner) (hashes : BlockHashes) (block : Block) (gate : NonceGate) (f : Contents)
    (entries : List QueueEntry) (outputs : Outputs) : Prop where
  held : ∀ entry ∈ entries, outputs.lookup entry.position = none →
    gate.mayRun block.number entry.tx = false
  ran : ∀ entry ∈ entries, ∀ result o, outputs.lookup entry.position = some (result, o) →
    gate.mayRun block.number entry.tx = true ∧
      ∃ c, r.trial hashes block entry.tx f = .ok (result, c) o

theorem runAll_tried {dealer : Dealer} {s : dealer.State} {gate : NonceGate} {entries : List QueueEntry}
    {outputs : Outputs} {n m : Node}
    (h : runAll r block (dealer.deal s (entries.filter fun entry => gate.mayRun block.number entry.tx)).1 n
      = .ok outputs m)
    (distinct : (entries.map (·.position)).Nodup) :
    Tried r n.hashes block gate n.view.contents entries outputs := by
  obtain ⟨-, hnone, hsome⟩ := runAll_ok h
  have hperm := dealer.deal_perm s (entries.filter fun entry => gate.mayRun block.number entry.tx)
  constructor
  · intro entry hentry hlookup
    by_contra hmay
    have hmem := hperm.mem_iff.2 (List.mem_filter.2 ⟨hentry, by simpa using hmay⟩)
    exact hnone _ hlookup entry hmem rfl
  · intro entry hentry result o hlookup
    -- The output was found by its position, and no other entry has that position.
    obtain ⟨other, hother, hposition, c, htrial⟩ := hsome _ _ _ hlookup
    obtain ⟨hmem, hmay⟩ := List.mem_filter.1 (hperm.mem_iff.1 hother)
    obtain rfl : other = entry := List.inj_on_of_nodup_map distinct hmem hentry hposition
    exact ⟨hmay, c, htrial⟩

/-- Entries of a round that are applied one after another are settled. -/
theorem Tried.settled {gate : NonceGate} {entries done : List QueueEntry} {outputs : Outputs}
    {p : Progress} {n n' : Node}
    (h : Tried r hashes block gate n.view.contents entries outputs) (hdone : done ⊆ entries)
    (hfold : done.foldlM (applyEntry r outputs) { gate } n = .ok p n') :
    Settled r hashes block gate n.view.contents done p n'.view.contents ∧ n'.hashes = n.hashes := by
  refine foldlM_ok (fun done p m => Settled r hashes block gate n.view.contents done p m.view.contents
    ∧ m.hashes = n.hashes) hfold ⟨.start, rfl⟩ ?_
  rintro before entry rest p m p' m' hsplit ⟨hsettled, hhashes⟩ hstep
  have hentry : entry ∈ entries := hdone (by simp [hsplit])
  obtain ⟨hlookup, rfl, rfl⟩ | ⟨result, o, hlookup, hcase⟩ := applyEntry_ok hstep
  · exact ⟨.held hsettled (h.held entry hentry hlookup), hhashes⟩
  · obtain ⟨hmay, c, htrial⟩ := h.ran entry hentry result o hlookup
    obtain ⟨hconflict, rfl, rfl⟩ | ⟨hconflict, rfl, hsame, hnotified⟩ := hcase
    · exact ⟨.conflict hsettled hmay htrial hconflict, hhashes⟩
    · exact ⟨.commit hsettled hmay htrial hconflict hnotified, hsame.trans hhashes⟩

theorem runRound_inv {dealer : Dealer} {s s' : dealer.State} {gate : NonceGate} {entries : List QueueEntry}
    {p : Progress} {n n' : Node} (h : runRound r block dealer s gate entries n = .ok (p, s') n') :
    ∃ outputs ran,
      runAll r block (dealer.deal s (entries.filter fun entry => gate.mayRun block.number entry.tx)).1 n
        = .ok outputs ran ∧
      entries.foldlM (applyEntry r outputs) { gate } ran = .ok p n' := by
  unfold runRound at h
  obtain ⟨outputs, ran, hall, happly⟩ := bind_ok.1 h
  obtain ⟨p', _, hfold, hdone⟩ := bind_ok.1 happly
  obtain ⟨hpair, rfl⟩ := pure_ok.1 hdone
  cases hpair
  exact ⟨outputs, ran, hall, hfold⟩

theorem runRound_settled {dealer : Dealer} {s s' : dealer.State} {gate : NonceGate}
    {entries : List QueueEntry} {p : Progress} {n n' : Node}
    (h : runRound r block dealer s gate entries n = .ok (p, s') n')
    (distinct : (entries.map (·.position)).Nodup) :
    Settled r n.hashes block gate n.view.contents entries p n'.view.contents ∧
      ∀ number, n.hashes.lookUp number = n'.hashes.lookUp number := by
  obtain ⟨outputs, ran, hall, hfold⟩ := runRound_inv h
  have htried := runAll_tried hall distinct
  have halike := (runAll_ok hall).1
  rw [← halike.contents] at htried
  obtain ⟨hsettled, hhashes⟩ := htried.settled (List.Subset.refl _) hfold
  rw [← halike.contents, hhashes]
  exact ⟨hsettled, fun number => (halike.hashes number).symm⟩

/-! ## All rounds -/

theorem sendBack_ok {p : Progress} {n n' : Node} {a : Unit} (h : sendBack p n = .ok a n') :
    SentBack p n.view.contents n'.view.contents ∧ n'.hashes = n.hashes := by
  unfold sendBack at h
  split at h
  next hretry =>
    obtain ⟨_, l, hmeter, happend⟩ := bind_ok.1 h
    obtain rfl := meter_ok.1 hmeter
    obtain ⟨range, l', haccess, hdone⟩ := bind_ok.1 happend
    obtain ⟨-, rfl⟩ := pure_ok.1 hdone
    obtain ⟨v, hrun, rfl⟩ := access_ok.1 haccess
    exact ⟨.inr ⟨hretry, range, eval_of_run hrun⟩, rfl⟩
  next hretry =>
    obtain ⟨-, rfl⟩ := pure_ok.1 h
    exact ⟨.inl ⟨by simpa using hretry, rfl⟩, rfl⟩

theorem nodup_of_popFront {f f' : Contents} {most : UInt64} {entries : List QueueEntry}
    (h : (Queue.popFront most).eval f = .ok entries f') : (entries.map (·.position)).Nodup := by
  obtain ⟨range, hpop, -⟩ := Queue.popFront_ok h
  have hfits := hpop.fits
  have hstop := range.stop.toNat_lt
  have hsize : UInt64.size = 2 ^ 64 := rfl
  rw [hpop.consecutive]
  refine (Queue.positions_ascending (by omega)).imp fun hlt heq => ?_
  rw [heq] at hlt
  exact UInt64.lt_irrefl _ hlt

theorem Settled.congr {hashes' : BlockHashes} {gate : NonceGate} {f g : Contents}
    {entries : List QueueEntry} {p : Progress} (h : Settled r hashes block gate f entries p g)
    (same : ∀ number, hashes.lookUp number = hashes'.lookUp number) :
    Settled r hashes' block gate f entries p g := by
  induction h with
  | start => exact .start
  | held _ hmay ih => exact .held ih hmay
  | conflict _ hmay htrial hconflict ih =>
    rw [Runner.trial_congr same] at htrial
    exact .conflict ih hmay htrial hconflict
  | commit _ hmay htrial hconflict hnotified ih =>
    rw [Runner.trial_congr same] at htrial
    exact .commit ih hmay htrial hconflict hnotified

/-- There is nothing to take off the queue, or a round is run and others follow. -/
theorem runRounds_inv {batch : UInt64} {dealer : Dealer} {gate : NonceGate} {count : Nat} {s : dealer.State}
    {e e' : BlockExecution} {n n' : Node} (h : runRounds r batch block dealer (count + 1) s gate e n = .ok e' n') :
    ∃ entries popped, Session.access (Queue.popFront batch) n = .ok entries popped ∧
      ((entries = [] ∧ e' = e ∧ n' = popped) ∨
        entries ≠ [] ∧ ∃ p s' settled sent, runRound r block dealer s gate entries popped = .ok (p, s') settled ∧
          sendBack p settled = .ok () sent ∧
          runRounds r batch block dealer count s' p.gate (addRound e p) sent = .ok e' n') := by
  rw [runRounds] at h
  obtain ⟨entries, popped, hpop, hround⟩ := bind_ok.1 h
  refine ⟨entries, popped, hpop, ?_⟩
  split at hround
  next hnone =>
    obtain ⟨rfl, rfl⟩ := pure_ok.1 hround
    exact .inl ⟨hnone, rfl, rfl⟩
  next hsome =>
    obtain ⟨⟨p, s'⟩, settled, hsettle, hback⟩ := bind_ok.1 hround
    obtain ⟨_, sent, hsend, hrest⟩ := bind_ok.1 hback
    exact .inr ⟨hsome, p, s', settled, sent, hsettle, hsend, hrest⟩

theorem runRounds_runs {batch : UInt64} {dealer : Dealer} {gate₀ gate : NonceGate} {f : Contents}
    {count : Nat} {s : dealer.State} {e e' : BlockExecution} {n n' : Node}
    (h : runRounds r batch block dealer count s gate e n = .ok e' n')
    (sofar : Runs r hashes block batch gate₀ f e gate n.view.contents)
    (same : ∀ number, n.hashes.lookUp number = hashes.lookUp number) :
    (∃ gate', Runs r hashes block batch gate₀ f e' gate' n'.view.contents) ∧
      e'.rounds ≤ e.rounds + count := by
  induction count generalizing s gate e n with
  | zero =>
    obtain ⟨rfl, rfl⟩ := pure_ok.1 h
    exact ⟨⟨gate, sofar⟩, Nat.le_refl _⟩
  | succ count ih =>
    obtain ⟨entries, popped, haccess, hround⟩ := runRounds_inv h
    obtain ⟨v, hrun, rfl⟩ := access_ok.1 haccess
    have hpop := eval_of_run hrun
    obtain ⟨rfl, rfl, rfl⟩ | ⟨hsome, p, s', settled, sent, hsettle, hsend, hrest⟩ := hround
    · exact ⟨⟨gate, .idle sofar hpop⟩, Nat.le_add_right _ _⟩
    · obtain ⟨hsettled, hhashes⟩ := runRound_settled hsettle (nodup_of_popFront hpop)
      obtain ⟨hsent, hsame⟩ := sendBack_ok hsend
      obtain ⟨hruns, hcount⟩ := ih hrest (.round sofar hpop hsome (hsettled.congr same) hsent)
        (fun number => by rw [hsame, ← hhashes, same])
      refine ⟨hruns, ?_⟩
      change _ ≤ e.rounds + 1 + count at hcount
      omega

theorem execute_inv {pool : Pool} {dealer : Dealer} {n n' : Node} {e : BlockExecution}
    (h : pool.execute r block dealer n = .ok e n') :
    ∃ entries loaded ran, Session.access (do let range ← Queue.range; Queue.load range) n = .ok entries loaded ∧
      runRounds r pool.batch block dealer pool.rounds.toNat dealer.start (.ofEntries entries) {} loaded
        = .ok e ran ∧
      n' = { ran with meters := { ran.meters with blockRounds := e.rounds :: ran.meters.blockRounds } } := by
  unfold Pool.execute at h
  obtain ⟨entries, loaded, hload, hrounds⟩ := bind_ok.1 h
  obtain ⟨e', ran, hruns, hmeter⟩ := bind_ok.1 hrounds
  obtain ⟨_, _, hmetered, hdone⟩ := bind_ok.1 hmeter
  obtain rfl := meter_ok.1 hmetered
  obtain ⟨rfl, rfl⟩ := pure_ok.1 hdone
  exact ⟨entries, loaded, ran, hload, hruns, rfl⟩

/-- A block reads what is queued and runs its rounds. -/
theorem execute_rounds {pool : Pool} {dealer : Dealer} {n n' : Node} {e : BlockExecution}
    (h : pool.execute r block dealer n = .ok e n') :
    ∃ range entries m m', Queue.rangeIn n.view.contents = .ok range ∧
      entries.map (·.position) = Queue.live range ∧
      (∀ entry ∈ entries, Queue.entryIn n.view.contents entry.position = some entry.tx) ∧
      m.view.contents = n.view.contents ∧ m.hashes = n.hashes ∧
      runRounds r pool.batch block dealer pool.rounds.toNat dealer.start (.ofEntries entries) {} m
        = .ok e m' ∧ m'.view = n'.view := by
  obtain ⟨entries, loaded, ran, haccess, hruns, rfl⟩ := execute_inv h
  obtain ⟨v, hrun, rfl⟩ := access_ok.1 haccess
  obtain ⟨range, _, hread, hload⟩ := eval_bind_ok.1 (eval_of_run hrun)
  obtain ⟨hrange, rfl⟩ := Queue.range_ok.1 hread
  obtain ⟨hpositions, hfound, hcontents⟩ := Queue.load_ok hload
  exact ⟨range, entries, { n with view := v }, ran, hrange, hpositions, hfound, hcontents, rfl, hruns, rfl⟩

/-- What a block does to a node is a run of rounds on its contents. The gate starts with all that is
queued. -/
theorem execute_runs {pool : Pool} {dealer : Dealer} {n n' : Node} {e : BlockExecution}
    (h : pool.execute r block dealer n = .ok e n') :
    ∃ range entries gate, Queue.rangeIn n.view.contents = .ok range ∧
      entries.map (·.position) = Queue.live range ∧
      (∀ entry ∈ entries, Queue.entryIn n.view.contents entry.position = some entry.tx) ∧
      Runs r n.hashes block pool.batch (.ofEntries entries) n.view.contents e gate n'.view.contents ∧
      e.rounds ≤ pool.rounds.toNat := by
  obtain ⟨range, entries, m, m', hrange, hpositions, hfound, hcontents, hhashes, hrounds, hview⟩ :=
    execute_rounds h
  have hstart : Runs r n.hashes block pool.batch (.ofEntries entries) n.view.contents {}
      (.ofEntries entries) m.view.contents := by
    rw [hcontents]
    exact .start
  obtain ⟨⟨gate, hfinal⟩, hcount⟩ := runRounds_runs hrounds hstart fun _ => by rw [hhashes]
  rw [hview] at hfinal
  refine ⟨range, entries, gate, hrange, hpositions, hfound, hfinal, ?_⟩
  simpa using hcount

end Rounds

end RoundLedger
