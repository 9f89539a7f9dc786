import RoundLedger.Proofs.Serial

/-!
# Stale reads

Between two entries of a round, a record that does not hold what it held when the round started was
written by an overlay and is known as written, or was changed by the commit hook of an entry published
before (`partRound_changed`). What a hook writes is not known as written. So an entry is published with
reads that still hold, but for the records that hooks changed under it (`partRound_tracked`).
-/

namespace RoundLedger

open Step Program

namespace Rounds

/-! ## The moments of a round -/

/-- A round between two of its entries. -/
structure PartRound where
  /-- The node that all entries of the round ran on. -/
  start : Node
  outputs : Outputs
  progress : Progress
  /-- The entry whose turn it is. -/
  next : Option QueueEntry

/-- The entry whose turn it is and what it is published with, if it is published. -/
def PartRound.publishes (m : PartRound) : Option (QueueEntry × CommittedResult × Overlay) := do
  let entry ← m.next
  let (result, o) ← m.outputs.lookup entry.position
  if o.conflictsWith m.progress.written then none else some (entry, result, o)

theorem PartRound.publishes_iff {m : PartRound} {entry : QueueEntry} {result : CommittedResult} {o : Overlay} :
    m.publishes = some (entry, result, o) ↔ m.next = some entry ∧
      m.outputs.lookup entry.position = some (result, o) ∧ o.conflictsWith m.progress.written = false := by
  unfold PartRound.publishes
  constructor
  · intro h
    obtain ⟨entry', hnext, h⟩ := Option.bind_eq_some_iff.1 h
    obtain ⟨⟨result', o'⟩, hlookup, h⟩ := Option.bind_eq_some_iff.1 h
    dsimp only at h
    split at h
    · cases h
    next hconflict =>
      cases h
      exact ⟨hnext, hlookup, by simpa using hconflict⟩
  · rintro ⟨hnext, hlookup, hconflict⟩
    simp [hnext, hlookup, hconflict]

section

variable (r : Runner) (batch : UInt64) (block : Block) (dealer : Dealer) (s : dealer.State) (gate : NonceGate)

/-- A round until `count` of its entries have had their turn. -/
def partRound (count : Nat) : Session PartRound := do
  let entries ← Session.access (Queue.popFront batch)
  let start ← get
  let outputs ← runAll r block
    (dealer.deal s (entries.filter fun entry => gate.mayRun block.number entry.tx)).1
  let progress ← (entries.take count).foldlM (applyEntry r outputs) { gate }
  return { start, outputs, progress, next := entries[count]? }

/-- Among the first `count` entries of a round is one that was published, and the hook of its contract
changed the record. -/
def HookChanged (count : Nat) (before : Node) (key : Bytes) : Prop :=
  ∃ i < count, ∃ m n entry result o contract event g,
    partRound r batch block dealer s gate i before = .ok m n ∧
      m.publishes = some (entry, result, o) ∧ r.contracts.at? result.tx.destination = some contract ∧
      (contract.committed result).eval (o.atop n.view.contents) = .ok event g ∧
      g key ≠ o.atop n.view.contents key

end

variable {r : Runner} {batch : UInt64} {block : Block} {dealer : Dealer} {s : dealer.State} {gate : NonceGate}

theorem HookChanged.mono {count count' : Nat} (le : count ≤ count') {before : Node} {key : Bytes}
    (h : HookChanged r batch block dealer s gate count before key) :
    HookChanged r batch block dealer s gate count' before key := by
  obtain ⟨i, hi, hchanged⟩ := h
  exact ⟨i, Nat.lt_of_lt_of_le hi le, hchanged⟩

/-- Where no hook writes, no record was changed by one. -/
theorem HookChanged.not_quiet {count : Nat} {before : Node} {key : Bytes}
    (h : HookChanged r batch block dealer s gate count before key) : ¬ r.contracts.Quiet := by
  intro quiet
  obtain ⟨_, _, m, n, entry, result, o, contract, event, g, -, -, hcontract, hhook, hchanged⟩ := h
  have hnotified : r.Notified result (o.atop n.view.contents) g := .inr ⟨contract, event, hcontract, hhook⟩
  exact hchanged (congrFun (hnotified.quiet quiet) key)

theorem partRound_ok {count : Nat} {before now : Node} {m : PartRound} :
    partRound r batch block dealer s gate count before = .ok m now ↔ ∃ entries ran,
      Session.access (Queue.popFront batch) before = .ok entries m.start ∧
      runAll r block (dealer.deal s (entries.filter fun entry => gate.mayRun block.number entry.tx)).1
        m.start = .ok m.outputs ran ∧
      (entries.take count).foldlM (applyEntry r m.outputs) { gate } ran = .ok m.progress now ∧
      m.next = entries[count]? := by
  unfold partRound
  constructor
  · intro h
    obtain ⟨entries, start, hpop, h⟩ := bind_ok.1 h
    obtain ⟨_, _, hget, h⟩ := bind_ok.1 h
    obtain ⟨rfl, rfl⟩ := get_ok.1 hget
    obtain ⟨outputs, ran, hall, h⟩ := bind_ok.1 h
    obtain ⟨progress, _, hfold, h⟩ := bind_ok.1 h
    obtain ⟨rfl, rfl⟩ := pure_ok.1 h
    exact ⟨entries, ran, hpop, hall, hfold, rfl⟩
  · obtain ⟨start, outputs, progress, next⟩ := m
    rintro ⟨entries, ran, hpop, hall, hfold, rfl⟩
    exact bind_ok.2 ⟨_, _, hpop, bind_ok.2 ⟨_, _, rfl, bind_ok.2 ⟨_, _, hall, bind_ok.2 ⟨_, _, hfold, rfl⟩⟩⟩⟩

/-- A round that ends passes through all its moments, and the last of them is its end. -/
theorem exists_partRound {entries : List QueueEntry} {p : Progress} {s' : dealer.State}
    {before popped after : Node} (hpop : Session.access (Queue.popFront batch) before = .ok entries popped)
    (hround : runRound r block dealer s gate entries popped = .ok (p, s') after) (count : Nat) :
    ∃ m now, partRound r batch block dealer s gate count before = .ok m now ∧
      (entries.length ≤ count → m.progress = p ∧ now = after) := by
  obtain ⟨outputs, ran, hall, hfold⟩ := runRound_inv hround
  rw [← List.take_append_drop count entries, List.foldlM_append] at hfold
  obtain ⟨progress, now, htaken, hrest⟩ := bind_ok.1 hfold
  refine ⟨⟨popped, outputs, progress, entries[count]?⟩, now,
    partRound_ok.2 ⟨entries, ran, hpop, hall, htaken, rfl⟩, fun hcount => ?_⟩
  rw [List.drop_eq_nil_of_le hcount] at hrest
  obtain ⟨rfl, rfl⟩ := pure_ok.1 hrest
  exact ⟨rfl, rfl⟩

/-! ## From moment to moment -/

/-- No entry has had its turn yet, and running them changed nothing. -/
theorem partRound_zero {before now : Node} {m : PartRound}
    (h : partRound r batch block dealer s gate 0 before = .ok m now) :
    now.view.contents = m.start.view.contents := by
  obtain ⟨entries, ran, -, hall, hfold, -⟩ := partRound_ok.1 h
  obtain ⟨-, rfl⟩ := pure_ok.1 hfold
  exact (runAll_ok hall).1.contents

/-- From one moment to the next, an entry is published and told to its contract, or nothing is written. -/
theorem partRound_succ {count : Nat} {before now : Node} {m : PartRound}
    (h : partRound r batch block dealer s gate (count + 1) before = .ok m now) :
    ∃ m' n', partRound r batch block dealer s gate count before = .ok m' n' ∧ m.start = m'.start ∧
      ((m.progress.written = m'.progress.written ∧ m.progress.published = m'.progress.published ∧ now = n') ∨
        ∃ entry result o, m'.publishes = some (entry, result, o) ∧
          m.progress = m'.progress.commit entry.position result o ∧
          r.notifyCommitted result { n' with view := n'.view.apply o } = .ok () now) := by
  obtain ⟨entries, ran, hpop, hall, hfold, -⟩ := partRound_ok.1 h
  rw [List.take_add_one, List.foldlM_append] at hfold
  obtain ⟨progress, n', htaken, hturn⟩ := bind_ok.1 hfold
  refine ⟨⟨m.start, m.outputs, progress, entries[count]?⟩, n',
    partRound_ok.2 ⟨entries, ran, hpop, hall, htaken, rfl⟩, rfl, ?_⟩
  cases hnext : entries[count]? with
  | none =>
    rw [hnext] at hturn
    obtain ⟨hprogress, rfl⟩ := pure_ok.1 hturn
    exact .inl ⟨by rw [hprogress], by rw [hprogress], rfl⟩
  | some entry =>
    rw [hnext, Option.toList_some, List.foldlM_cons, bind_ok] at hturn
    obtain ⟨progress', _, happly, hdone⟩ := hturn
    obtain ⟨rfl, rfl⟩ := pure_ok.1 hdone
    obtain ⟨-, hprogress, rfl⟩ | ⟨result, o, hlookup, hcase⟩ := applyEntry_inv happly
    · exact .inl ⟨by rw [hprogress]; rfl, by rw [hprogress]; rfl, rfl⟩
    obtain ⟨-, hprogress, rfl⟩ | ⟨hfresh, hprogress, hnotify⟩ := hcase
    · exact .inl ⟨by rw [hprogress]; rfl, by rw [hprogress]; rfl, rfl⟩
    · exact .inr ⟨entry, result, o, PartRound.publishes_iff.2 ⟨rfl, hlookup, hfresh⟩, hprogress, hnotify⟩

/-! ## The moments of a block -/

/-- The states in which a block begins its rounds: that of the dealer, the gate and the node. -/
inductive Begins (r : Runner) (pool : Pool) (block : Block) (dealer : Dealer) (n : Node) :
    dealer.State → NonceGate → Node → Prop
  | first {entries m} : Session.access (do let range ← Queue.range; Queue.load range) n = .ok entries m →
      Begins r pool block dealer n dealer.start (.ofEntries entries) m
  | next {s s' gate before entries popped p settled sent} : Begins r pool block dealer n s gate before →
      Session.access (Queue.popFront pool.batch) before = .ok entries popped → entries ≠ [] →
      runRound r block dealer s gate entries popped = .ok (p, s') settled →
      sendBack p settled = .ok () sent → Begins r pool block dealer n s' p.gate sent

/-- A moment of a round of the block at which the entry is published. -/
def PublishedIn (r : Runner) (pool : Pool) (block : Block) (dealer : Dealer) (n : Node) (x : Published) : Prop :=
  ∃ s gate before count m now entry o, Begins r pool block dealer n s gate before ∧
    partRound r pool.batch block dealer s gate count before = .ok m now ∧
    m.publishes = some (entry, x.result, o) ∧ x.position = entry.position

variable {pool : Pool} {n : Node}

theorem partRound_publishedIn {count : Nat} {before now : Node} {m : PartRound}
    (begun : Begins r pool block dealer n s gate before)
    (h : partRound r pool.batch block dealer s gate count before = .ok m now) {x : Published}
    (hx : x ∈ m.progress.published) : PublishedIn r pool block dealer n x := by
  induction count generalizing m now with
  | zero =>
    obtain ⟨entries, ran, -, -, hfold, -⟩ := partRound_ok.1 h
    obtain ⟨hprogress, -⟩ := pure_ok.1 hfold
    rw [← hprogress] at hx
    cases hx
  | succ count ih =>
    obtain ⟨m', n', h', -, hturn⟩ := partRound_succ h
    obtain ⟨-, hsame, -⟩ | ⟨entry, result, o, hpublishes, hprogress, -⟩ := hturn
    · exact ih h' (hsame ▸ hx)
    rw [hprogress, Progress.commit, List.mem_append, List.mem_singleton] at hx
    obtain hx | rfl := hx
    · exact ih h' hx
    · exact ⟨s, gate, before, count, m', n', entry, o, begun, h', hpublishes, rfl⟩

theorem runRounds_publishedIn {count : Nat} {e e' : BlockExecution} {before after : Node}
    (begun : Begins r pool block dealer n s gate before)
    (h : runRounds r pool.batch block dealer count s gate e before = .ok e' after) {x : Published}
    (hx : x ∈ e'.published) : x ∈ e.published ∨ PublishedIn r pool block dealer n x := by
  induction count generalizing s gate e before with
  | zero =>
    obtain ⟨rfl, -⟩ := pure_ok.1 h
    exact .inl hx
  | succ count ih =>
    obtain ⟨entries, popped, hpop, hcase⟩ := runRounds_inv h
    obtain ⟨-, rfl, -⟩ | ⟨hsome, p, s', settled, sent, hround, hback, hrest⟩ := hcase
    · exact .inl hx
    · obtain hsofar | hlater := ih (.next begun hpop hsome hround hback) hrest
      · obtain hbefore | hnew := List.mem_append.1 hsofar
        · exact .inl hbefore
        · obtain ⟨m, now, hpart, hend⟩ := exists_partRound hpop hround entries.length
          obtain ⟨rfl, -⟩ := hend (Nat.le_refl _)
          exact .inr (partRound_publishedIn begun hpart hnew)
      · exact .inr hlater

/-- What a block publishes is published at a moment of one of its rounds. -/
theorem execute_publishedIn {after : Node} {e : BlockExecution}
    (h : pool.execute r block dealer n = .ok e after) {x : Published} (hx : x ∈ e.published) :
    PublishedIn r pool block dealer n x := by
  obtain ⟨entries, loaded, ran, hload, hrounds, -⟩ := execute_inv h
  obtain hnone | hsome := runRounds_publishedIn (.first hload) hrounds hx
  · cases hnone
  · exact hsome

/-! ## What is known as written -/

/-- What differs from the start of a round was written by an overlay or changed by a hook. -/
theorem partRound_changed {count : Nat} {before now : Node} {m : PartRound} {key : Bytes}
    (h : partRound r batch block dealer s gate count before = .ok m now)
    (hkey : now.view.contents key ≠ m.start.view.contents key) :
    key ∈ m.progress.written ∨ HookChanged r batch block dealer s gate count before key := by
  induction count generalizing m now with
  | zero => exact absurd (congrFun (partRound_zero h) key) hkey
  | succ count ih =>
    obtain ⟨m', n', h', hstart, hturn⟩ := partRound_succ h
    have sofar (hbefore : n'.view.contents key ≠ m.start.view.contents key) :
        key ∈ m'.progress.written ∨ HookChanged r batch block dealer s gate (count + 1) before key :=
      (ih h' (hstart ▸ hbefore)).imp_right (.mono (Nat.le_succ count))
    obtain ⟨hsame, -, rfl⟩ | ⟨entry, result, o, hpublishes, hprogress, hnotify⟩ := hturn
    · exact hsame ▸ sofar hkey
    -- The record was changed by the hook, which ran last, or before it by the overlay, or before both.
    by_cases hhook : now.view.contents key = o.atop n'.view.contents key
    · refine or_iff_not_imp_left.2 fun hwritten => ?_
      rw [hprogress, Progress.commit, Overlay.mem_foldl_insert, not_or] at hwritten
      rw [hhook, Overlay.atop_of_notMem hwritten.2] at hkey
      exact (sofar hkey).resolve_left hwritten.1
    · obtain ⟨-, hnotified⟩ := Runner.notifyCommitted_ok hnotify
      rw [View.contents_applied] at hnotified
      obtain hsame | ⟨contract, event, hcontract, heval⟩ := hnotified
      · exact absurd (congrFun hsame key) hhook
      · exact .inr ⟨count, Nat.lt_succ_self count, m', n', entry, result, o, contract, event, _, h',
          hpublishes, hcontract, heval, hhook⟩

/-- At every moment of a round, whatever the state it was begun in, a record outside the queue that
differs is known as written or was changed by a hook, also when the overlay of the entry whose turn it
is has been applied and its hook has not run yet. That entry, if it is published, ran on the start of
the round, and what it read still holds unless a hook changed it. -/
theorem partRound_tracked {count : Nat} {before now : Node} {m : PartRound}
    (h : partRound r batch block dealer s gate count before = .ok m now) :
    (∀ key, ¬ Key.IsQueue key → now.view.contents key ≠ before.view.contents key →
      key ∈ m.progress.written ∨ HookChanged r batch block dealer s gate count before key) ∧
    ∀ entry result o, m.publishes = some (entry, result, o) →
      (∃ c, r.trial m.start.hashes block entry.tx m.start.view.contents = .ok (result, c) o) ∧
      (∀ key ∈ o.reads, now.view.contents key = m.start.view.contents key ∨
        HookChanged r batch block dealer s gate count before key) ∧
      ∀ key, ¬ Key.IsQueue key → o.atop now.view.contents key ≠ before.view.contents key →
        key ∈ (m.progress.commit entry.position result o).written ∨
          HookChanged r batch block dealer s gate count before key := by
  obtain ⟨entries, ran, hpop, hall, -, hnext⟩ := partRound_ok.1 h
  obtain ⟨v, hrun, hstart⟩ := access_ok.1 hpop
  have hpopped := eval_of_run hrun
  obtain ⟨_, hspec, -⟩ := Queue.popFront_ok hpopped
  have hsame (key) (hkey : ¬ Key.IsQueue key) :
      m.start.view.contents key = before.view.contents key := by
    rw [← hstart]
    exact hspec.sameState key hkey
  have htracked (key) (hkey : ¬ Key.IsQueue key)
      (hchanged : now.view.contents key ≠ before.view.contents key) :
      key ∈ m.progress.written ∨ HookChanged r batch block dealer s gate count before key :=
    partRound_changed h ((hsame key hkey).symm ▸ hchanged)
  refine ⟨htracked, fun entry result o hpublishes => ?_⟩
  obtain ⟨hturn, hlookup, hfresh⟩ := PartRound.publishes_iff.1 hpublishes
  have hmem : entry ∈ entries := List.mem_of_getElem? (hnext.symm.trans hturn)
  refine ⟨((runAll_tried hall (nodup_of_popFront hpopped)).ran entry hmem result o hlookup).2, ?_, ?_⟩
  · intro key hread
    refine or_iff_not_imp_left.2 fun hchanged => (partRound_changed h hchanged).resolve_left ?_
    exact (Overlay.not_conflictsWith.1 hfresh).1 key hread
  · intro key hkey hchanged
    rw [Progress.commit, Overlay.mem_foldl_insert]
    by_cases hwrites : key ∈ o.writes
    · exact .inl (.inr hwrites)
    · rw [Overlay.atop_of_notMem hwrites] at hchanged
      exact (htracked key hkey hchanged).imp_left .inl

/-! ## A contract that counts its commits -/

def counterKey : Bytes := [0xaa]

/-- A contract that answers a record to which its hook adds a byte for each commit. -/
def commitCounter : SystemContract where
  owns := (· == 0xc0)
  init := pure ()
  execute := fun _ _ => do
    return { status := .success, gasUsed := 21000, output := (← look counterKey).getD [] }
  requiredGas := fun _ => 0
  run := fun _ => return .ok ((← look counterKey).getD [])
  committed := fun _ => do
    write counterKey ((← look counterKey).getD [] ++ [1])
    return none

def counterRunner : Runner :=
  { backend := Transfer.backend
    contracts := (∅ : ContractTable).insert 0xc0 commitCounter }

def callFrom (sender : Address) : Transaction :=
  { transfer 0 with sender, destination := some 0xc0, value := 0 }

/-- Two accounts with a call to the contract each in the queue. -/
def twoCalls : Node :=
  let account (address : Address) (store : Store) :=
    store.insert (Key.account address).bytes (Account.encode { balance := 1000000 })
  { view :=
      { base := (((account 1 (account 2 ∅)).insert Key.queue.bytes (QueueRange.encode ⟨0, 2⟩)).insert
          (Key.entry 0).bytes (Entry.encode (callFrom 1))).insert
          (Key.entry 1).bytes (Entry.encode (callFrom 2)) } }

/-- A block begins its first round for the two calls, and comes to the moment after the first of them. -/
def betweenCalls : Session (NonceGate × Node × PartRound) := do
  let entries ← Session.access do
    let range ← Queue.range
    Queue.load range
  let before ← get
  let m ← partRound counterRunner smallPool.batch {} .inOrder () (.ofEntries entries) 1
  return (.ofEntries entries, before, m)

theorem betweenCalls_ok {gate : NonceGate} {before : Node} {m : PartRound} {n now : Node}
    (h : betweenCalls n = .ok (gate, before, m) now) :
    Begins counterRunner smallPool {} .inOrder n () gate before ∧
      partRound counterRunner smallPool.batch {} .inOrder () gate 1 before = .ok m now := by
  obtain ⟨entries, _, hload, h⟩ := bind_ok.1 h
  obtain ⟨_, _, hget, h⟩ := bind_ok.1 h
  obtain ⟨rfl, rfl⟩ := get_ok.1 hget
  obtain ⟨m', _, hpart, hdone⟩ := bind_ok.1 h
  obtain ⟨hout, rfl⟩ := pure_ok.1 hdone
  cases hout
  exact ⟨.first hload, hpart⟩

/-- The first call was published, and the second is published next. -/
theorem betweenCalls_tracked : ∃ gate before m now entry result o,
    partRound counterRunner smallPool.batch {} .inOrder () gate 1 before = .ok m now ∧
      m.progress.published.length = 1 ∧ m.publishes = some (entry, result, o) ∧
      (∀ key, ¬ Key.IsQueue key → now.view.contents key ≠ before.view.contents key →
        key ∈ m.progress.written ∨
          HookChanged counterRunner smallPool.batch {} .inOrder () gate 1 before key) ∧
      ∀ key ∈ o.reads, now.view.contents key = m.start.view.contents key ∨
        HookChanged counterRunner smallPool.batch {} .inOrder () gate 1 before key := by
  have hends : endsWith (betweenCalls twoCalls)
      (fun out _ => out.2.2.progress.published.length == 1 && out.2.2.publishes.isSome) = true := by
    decide +kernel
  obtain ⟨⟨gate, before, m⟩, now, h, htest⟩ := endsWith_iff.1 hends
  rw [Bool.and_eq_true, beq_iff_eq, Option.isSome_iff_exists] at htest
  obtain ⟨hlength, ⟨entry, result, o⟩, hpublishes⟩ := htest
  obtain ⟨-, hpart⟩ := betweenCalls_ok h
  obtain ⟨htracked, hnext⟩ := partRound_tracked hpart
  exact ⟨gate, before, m, now, entry, result, o, hpart, hlength, hpublishes, htracked,
    (hnext entry result o hpublishes).2.1⟩

/-- The hook of the first call changed the record, which is not known as written. The second call read
it, and is published in the same round with what it read at its start. -/
theorem betweenCalls_stale :
    (∃ gate before m now entry result o, Begins counterRunner smallPool {} .inOrder twoCalls () gate before ∧
      partRound counterRunner smallPool.batch {} .inOrder () gate 1 before = .ok m now ∧
      ¬ Key.IsQueue counterKey ∧ now.view.contents counterKey ≠ before.view.contents counterKey ∧
      counterKey ∉ m.progress.written ∧ m.publishes = some (entry, result, o) ∧ counterKey ∈ o.reads ∧
      now.view.contents counterKey ≠ m.start.view.contents counterKey) ∧
    ∃ e after, smallPool.execute counterRunner {} .inOrder twoCalls = .ok e after ∧ e.rounds = 1 ∧
      e.reappended = 0 ∧ e.results.map (·.output) = [[], []] := by
  have hbetween : endsWith (betweenCalls twoCalls) (fun (_, before, m) now =>
      m.publishes.any (fun (_, _, o) => counterKey ∈ o.reads) &&
        (now.view.contents counterKey ≠ before.view.contents counterKey ∧
          now.view.contents counterKey ≠ m.start.view.contents counterKey ∧
          counterKey ∉ m.progress.written : Bool)) = true := by decide +kernel
  have hblock : endsWith (smallPool.execute counterRunner {} .inOrder twoCalls) (fun e _ =>
      (e.rounds = 1 ∧ e.reappended = 0 ∧ e.results.map (·.output) = [[], []] : Bool)) = true := by
    decide +kernel
  constructor
  · obtain ⟨⟨gate, before, m⟩, now, h, htest⟩ := endsWith_iff.1 hbetween
    rw [Bool.and_eq_true, Option.any_eq_true, decide_eq_true_eq] at htest
    obtain ⟨⟨⟨entry, result, o⟩, hpublishes, hread⟩, hchanged, hstale, hwritten⟩ := htest
    obtain ⟨hbegins, hpart⟩ := betweenCalls_ok h
    exact ⟨gate, before, m, now, entry, result, o, hbegins, hpart,
      fun hqueue => absurd (Key.length_of_isQueue hqueue) (by decide), hchanged, hwritten, hpublishes,
      of_decide_eq_true hread, hstale⟩
  · obtain ⟨e, after, h, htest⟩ := endsWith_iff.1 hblock
    exact ⟨e, after, h, of_decide_eq_true htest⟩

end Rounds

end RoundLedger
