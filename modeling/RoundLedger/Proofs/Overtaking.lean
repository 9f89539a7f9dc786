import Mathlib.Data.List.Nodup
import RoundLedger.Proofs.Conservation
import RoundLedger.Proofs.Engine
import RoundLedger.Proofs.Gate

/-!
# Overtaking

A transaction that runs does so when no smaller nonce of its sender waits that was not settled in the
block before. The gate counts a nonce as settled with the first transaction that has it, so a copy that
still waits can be overtaken, and nothing else can.
-/

namespace RoundLedger

open Step Program Queue

/-- What a transaction is known by at the gate. Copies have the same turn. -/
def Transaction.turn (tx : Transaction) : Address × UInt64 := (tx.sender, tx.nonce)

theorem Runner.not_isTooOld {r : Runner} {hashes : BlockHashes} {block : Block} {tx : Transaction}
    {f : Contents} {result : CommittedResult} {c : List Conversation} {o : Overlay}
    (h : r.trial hashes block tx f = .ok (result, c) o) (hran : result.status ≠ .tooOld) :
    tx.isTooOld block.number = false := by
  unfold trial at h
  split at h
  · cases h
    exact absurd rfl hran
  next hyoung => simpa using hyoung

namespace Rounds

variable {r : Runner} {hashes : BlockHashes} {block : Block} {batch : UInt64}

/-! ## What the gate holds -/

theorem Settled.holds {gate : NonceGate} {f g : Contents} {entries : List QueueEntry} {p : Progress}
    (h : Settled r hashes block gate f entries p g) {sender : Address} {nonce : UInt64} :
    p.gate.Holds sender nonce ↔
      gate.Holds sender nonce ∧ ∀ x ∈ p.published, x.result.tx.turn ≠ (sender, nonce) := by
  induction h with
  | start => simp
  | held _ _ ih => exact ih
  | conflict _ _ _ _ ih => exact ih
  | @commit done p g g' entry result c o _ _ _ _ _ ih =>
    simp only [Progress.commit, NonceGate.holds_settle, ih, List.forall_mem_append,
      List.forall_mem_singleton, Transaction.turn, ne_eq, Prod.mk.injEq, and_assoc]

/-- The gate holds what was queued and has not been published. -/
theorem Runs.holds {gate gate' : NonceGate} {f g : Contents} {e : BlockExecution}
    (h : Runs r hashes block batch gate f e gate' g) {sender : Address} {nonce : UInt64} :
    gate'.Holds sender nonce ↔
      gate.Holds sender nonce ∧ ∀ result ∈ e.results, result.tx.turn ≠ (sender, nonce) := by
  induction h with
  | start => simp [BlockExecution.results]
  | round _ _ _ hsettled _ ih =>
    rw [hsettled.holds, ih]
    simp only [BlockExecution.results, addRound, List.map_append, List.forall_mem_append,
      List.forall_mem_map, and_assoc]
  | idle _ _ ih => exact ih

/-! ## Moments -/

/-- The moment at which a block on the contents `f` publishes a result, behind those published before.
What is put off or still to come in the round is left over, and the contents are `g`. -/
inductive Moment (r : Runner) (hashes : BlockHashes) (block : Block) (batch : UInt64) (f : Contents) :
    List CommittedResult → CommittedResult → List Transaction → Contents → Prop
  | publish {queued e gate h h₁ h₂ g done entry rest p result c o} :
      queued.map (·.tx) = waiting f →
      Runs r hashes block batch (.ofEntries queued) f e gate h →
      (popFront batch).eval h = .ok (done ++ entry :: rest) h₁ →
      Settled r hashes block gate h₁ done p h₂ →
      gate.mayRun block.number entry.tx = true →
      r.trial hashes block entry.tx h₁ = .ok (result, c) o →
      o.conflictsWith p.written = false →
      r.Notified result (o.atop h₂) g →
      Moment r hashes block batch f ((e.published ++ p.published).map (·.result)) result
        (p.retry ++ rest.map (·.tx)) g

/-- A published entry was committed behind those published before it. -/
theorem Settled.commit_of_published {gate : NonceGate} {f g : Contents} {entries : List QueueEntry}
    {p : Progress} (h : Settled r hashes block gate f entries p g) {earlier later : List Published}
    {x : Published} (hpublished : p.published = earlier ++ x :: later) :
    ∃ done entry rest p' h₂ g' c o, entries = done ++ entry :: rest ∧ p'.published = earlier ∧
      Settled r hashes block gate f done p' h₂ ∧ gate.mayRun block.number entry.tx = true ∧
      r.trial hashes block entry.tx f = .ok (x.result, c) o ∧ o.conflictsWith p'.written = false ∧
      r.Notified x.result (o.atop h₂) g' := by
  induction h generalizing later with
  | start => simp at hpublished
  | @held done p g last _ _ ih =>
    obtain ⟨done', entry, rest, p', h₂, g', c, o, rfl, hrest⟩ := ih hpublished
    exact ⟨done', entry, rest ++ [last], p', h₂, g', c, o, by simp, hrest⟩
  | @conflict done p g last _ _ _ _ _ _ _ ih =>
    obtain ⟨done', entry, rest, p', h₂, g', c, o, rfl, hrest⟩ := ih hpublished
    exact ⟨done', entry, rest ++ [last], p', h₂, g', c, o, by simp, hrest⟩
  | @commit done p g g' last result c o hsettled hmay htrial hconflict hnotified ih =>
    obtain rfl | ⟨later', y, rfl⟩ := List.eq_nil_or_concat later
    · obtain ⟨hearlier, hx⟩ := List.append_inj' hpublished rfl
      cases hx
      exact ⟨done, last, [], p, g, g', c, o, rfl, hearlier, hsettled, hmay, htrial, hconflict, hnotified⟩
    · rw [List.concat_eq_append, ← List.cons_append, ← List.append_assoc] at hpublished
      obtain ⟨hearlier, -⟩ := List.append_inj' hpublished rfl
      obtain ⟨done', entry, rest, p', h₂, g', c, o, rfl, hrest⟩ := ih hearlier
      exact ⟨done', entry, rest ++ [last], p', h₂, g', c, o, by simp, hrest⟩

/-- Before the first round nothing is known of the queue. A round finds it in order. -/
theorem Runs.ordered {gate gate' : NonceGate} {f g : Contents} {e : BlockExecution}
    (h : Runs r hashes block batch gate f e gate' g) :
    g = f ∧ e.published = [] ∨ ∃ before, rangeIn f = .ok before ∧ before.start ≤ before.stop := by
  have ordered {f f' : Contents} {entries : List QueueEntry}
      (hpop : (popFront batch).eval f = .ok entries f') :
      ∃ before, rangeIn f = .ok before ∧ before.start ≤ before.stop := by
    obtain ⟨before, hpopped, -⟩ := popFront_ok hpop
    have hfits := hpopped.fits
    exact ⟨before, hpopped.range, UInt64.le_iff_toNat_le.2 (by omega)⟩
  induction h with
  | start => exact .inl ⟨rfl, rfl⟩
  | round _ hpop _ _ _ ih =>
    obtain ⟨rfl, -⟩ | hordered := ih
    · exact .inr (ordered hpop)
    · exact .inr hordered
  | idle _ hpop ih =>
    obtain ⟨rfl, -⟩ | hordered := ih
    · exact .inr (ordered hpop)
    · exact .inr hordered

/-- A result was published in the last round or before it. -/
theorem published_split {published last earlier later : List Published} {x : Published}
    (h : published ++ last = earlier ++ x :: later) :
    (∃ earlier', earlier = published ++ earlier' ∧ last = earlier' ++ x :: later) ∨
      ∃ later', published = earlier ++ x :: later' ∧ later = later' ++ last := by
  obtain ⟨earlier', hearlier, hlast⟩ | ⟨later', hpublished, hlater⟩ := List.append_eq_append_iff.1 h
  · exact .inl ⟨earlier', hearlier, hlast⟩
  · cases later' with
    | nil => exact .inl ⟨[], by simpa using hpublished.symm, by simpa using hlater.symm⟩
    | cons y later' =>
      obtain ⟨rfl, rfl⟩ := List.cons_eq_cons.1 hlater
      exact .inr ⟨later', hpublished, rfl⟩

section

variable (avoids : r.contracts.Avoids Key.IsQueue)

include avoids

theorem Settled.waiting_eq {gate : NonceGate} {f g : Contents} {entries : List QueueEntry}
    {p : Progress} (h : Settled r hashes block gate f entries p g) : waiting g = waiting f :=
  waiting_congr fun _ hkey => h.queue_eq avoids hkey

/-- What was queued before the block was published, or waits, but for the transaction that is lost when the
end of the queue passes over the reserved position. -/
theorem Runs.exists_lost {gate gate' : NonceGate} {f g : Contents} {e : BlockExecution}
    (h : Runs r hashes block batch gate f e gate' g) :
    ∃ lost : List Transaction, lost.length ≤ 1 ∧ (lost ≠ [] ↔ PassesIn f g) ∧
      (e.results.map (·.tx) ++ waiting g ++ lost).Perm (waiting f) := by
  have hresults : e.results.map (·.tx) = e.published.map (·.result.tx) := by
    simp [BlockExecution.results]
  rw [hresults]
  obtain ⟨rfl, hnone⟩ | ⟨before, hrange, hordered⟩ := h.ordered
  · exact ⟨[], by simp, by simp [PassesIn.irrefl], by simp [hnone]⟩
  · obtain ⟨now, hmoved⟩ := h.moved avoids hrange hordered
    obtain ⟨lost, hlength, hperm⟩ := hmoved.conserved
    refine ⟨lost, by split at hlength <;> omega, ?_, hperm⟩
    rw [passesIn_iff hrange hmoved.range, ne_eq, ← List.length_eq_zero_iff, hlength]
    split <;> simp [*]

theorem Runs.conserved {gate gate' : NonceGate} {f g : Contents} {e : BlockExecution}
    (h : Runs r hashes block batch gate f e gate' g) :
    ∃ lost, (e.published.map (·.result.tx) ++ waiting g ++ lost).Perm (waiting f) := by
  obtain ⟨lost, -, -, hperm⟩ := h.exists_lost avoids
  refine ⟨lost, ?_⟩
  simpa [BlockExecution.results, Function.comp_def] using hperm

/-- What was queued before the block was published by then, or waits, or is lost. -/
theorem Moment.conserved {f g : Contents} {before : List CommittedResult} {result : CommittedResult}
    {leftover : List Transaction} (h : Moment r hashes block batch f before result leftover g) :
    ∃ lost, ((before ++ [result]).map (·.tx) ++ (leftover ++ waiting g) ++ lost).Perm (waiting f) := by
  obtain ⟨-, hruns, hpop, hsettled, hmay, htrial, hconflict, hnotified⟩ := h
  obtain ⟨lost, hperm⟩ := hruns.conserved avoids
  obtain ⟨range, hpopped, -⟩ := popFront_ok hpop
  have hfront := hpopped.waiting_eq
  have heach := hsettled.perm
  have hsame := (hsettled.commit hmay htrial hconflict hnotified).waiting_eq avoids
  have htx := Runner.trial_tx htrial
  dsimp only at htx
  refine ⟨lost, ?_⟩
  rw [hfront] at hperm
  rw [hsame, List.perm_iff_count]
  rw [List.perm_iff_count] at heach hperm
  intro tx
  have heach := heach tx
  have hperm := hperm tx
  simp only [List.map_append, List.map_map, List.map_cons, List.map_nil, List.count_append,
    List.count_cons, List.count_nil, htx, Function.comp_def] at heach hperm ⊢
  omega

/-- The moment at which a round publishes a result. What was queued before the round was published in it by
then, or waits. -/
theorem Settled.moment {queued entries : List QueueEntry} {e : BlockExecution} {gate : NonceGate}
    {f h h₁ h₂ : Contents} {p : Progress} (hqueued : queued.map (·.tx) = waiting f)
    (hruns : Runs r hashes block batch (.ofEntries queued) f e gate h)
    (hpop : (popFront batch).eval h = .ok entries h₁)
    (hsettled : Settled r hashes block gate h₁ entries p h₂) {earlier later : List Published}
    {x : Published} (hpublished : p.published = earlier ++ x :: later) :
    ∃ leftover g,
      Moment r hashes block batch f ((e.published ++ earlier).map (·.result)) x.result leftover g ∧
      (earlier.map (·.result.tx) ++ x.result.tx :: (leftover ++ waiting g)).Perm (waiting h) := by
  obtain ⟨done, entry, rest, p', h₂', g, c, o, rfl, rfl, hdone, hmay, htrial, hconflict, hnotified⟩ :=
    hsettled.commit_of_published hpublished
  refine ⟨_, g, .publish hqueued hruns hpop hdone hmay htrial hconflict hnotified, ?_⟩
  obtain ⟨range, hpopped, -⟩ := popFront_ok hpop
  have hsame := (hdone.commit hmay htrial hconflict hnotified).waiting_eq avoids
  have heach := hdone.perm
  have htx := Runner.trial_tx htrial
  dsimp only at htx
  rw [hpopped.waiting_eq, hsame, htx, List.perm_iff_count]
  rw [List.perm_iff_count] at heach
  intro tx
  have heach := heach tx
  simp only [List.map_append, List.map_cons, List.count_append, List.count_cons] at heach ⊢
  omega

/-- There is a moment at which a result was published. What the block publishes after it, and what it
leaves in the queue, waits at that moment. -/
theorem Runs.moment {queued : List QueueEntry} {gate : NonceGate} {f g : Contents} {e : BlockExecution}
    (h : Runs r hashes block batch (.ofEntries queued) f e gate g)
    (hqueued : queued.map (·.tx) = waiting f) {earlier later : List Published} {x : Published}
    (hpublished : e.published = earlier ++ x :: later) :
    ∃ leftover g' lost,
      Moment r hashes block batch f (earlier.map (·.result)) x.result leftover g' ∧
      (later.map (·.result.tx) ++ waiting g ++ lost).Perm (leftover ++ waiting g') := by
  induction h generalizing later with
  | start => simp at hpublished
  | @round e gate h h₁ h₂ h₃ entries p hruns hpop _ hsettled hsent ih =>
    obtain ⟨range, hpopped, -⟩ := popFront_ok hpop
    have hnext : rangeIn h₂ = .ok _ :=
      (rangeIn_congr fun key hkey => hsettled.queue_eq avoids hkey).trans hpopped.next
    have hround := conserved_of_round avoids hpopped hsettled (hsent.appended hnext)
    obtain ⟨earlier', rfl, hlast⟩ | ⟨later', he, rfl⟩ := published_split hpublished
    · obtain ⟨leftover, g', hmoment, hperm⟩ := hsettled.moment avoids hqueued hruns hpop hlast
      refine ⟨leftover, g', lost range.stop p.retry, hmoment, ?_⟩
      have hboth := hround.trans hperm.symm
      simp only [hlast, List.map_append, List.map_cons, List.append_assoc, List.cons_append] at hboth ⊢
      exact ((List.perm_append_left_iff _).1 hboth).cons_inv
    · obtain ⟨leftover, g', lost', hmoment, hperm⟩ := ih he
      refine ⟨leftover, g', lost' ++ lost range.stop p.retry, hmoment, ?_⟩
      rw [List.perm_iff_count] at hperm hround ⊢
      intro tx
      have hperm := hperm tx
      have hround := hround tx
      simp only [List.map_append, List.count_append] at hperm hround ⊢
      omega
  | idle _ hpop ih =>
    obtain ⟨leftover, g', lost, hmoment, hperm⟩ := ih hpublished
    obtain ⟨range, hpopped, -⟩ := popFront_ok hpop
    have hfront := hpopped.waiting_eq
    rw [hfront] at hperm
    exact ⟨leftover, g', lost, hmoment, by simpa using hperm⟩

/-- A transaction that runs overtakes only copies of what the block has published before. -/
theorem Moment.copies {f g : Contents} {before : List CommittedResult} {result : CommittedResult}
    {leftover : List Transaction} (h : Moment r hashes block batch f before result leftover g)
    (hran : result.status ≠ .tooOld) {tx : Transaction} (hwaits : tx ∈ leftover ++ waiting g)
    (hsender : tx.sender = result.tx.sender) (hnonce : tx.nonce < result.tx.nonce) :
    ∃ earlier ∈ before, earlier.tx.turn = tx.turn := by
  obtain ⟨lost, hperm⟩ := h.conserved avoids
  have hmem := hperm.mem_iff.1 (List.mem_append_left lost (List.mem_append_right _ hwaits))
  obtain ⟨hqueued, hruns, -, -, hmay, htrial, -, -⟩ := h
  have htx := Runner.trial_tx htrial
  dsimp only at htx
  rw [htx] at hsender hnonce
  rw [NonceGate.mayRun_iff, Runner.not_isTooOld htrial hran] at hmay
  by_contra hnone
  have hholds : NonceGate.Holds _ tx.sender tx.nonce := hruns.holds.2
    ⟨NonceGate.holds_ofEntries.2 ⟨tx, by rwa [hqueued], rfl, rfl⟩, fun earlier hearlier hturn => by
      refine hnone ⟨earlier, ?_, hturn⟩
      rw [List.map_append]
      exact List.mem_append_left _ hearlier⟩
  have hle := (hmay.resolve_left Bool.false_ne_true) tx.nonce (hsender ▸ hholds)
  exact UInt64.not_lt.2 hle hnonce

/-- Nothing is overtaken when no nonce was queued twice. -/
theorem Moment.lowest {f g : Contents} {before : List CommittedResult} {result : CommittedResult}
    {leftover : List Transaction} (h : Moment r hashes block batch f before result leftover g)
    (hran : result.status ≠ .tooOld) (distinct : ((waiting f).map Transaction.turn).Nodup)
    {tx : Transaction} (hwaits : tx ∈ leftover ++ waiting g) (hsender : tx.sender = result.tx.sender) :
    result.tx.nonce ≤ tx.nonce := by
  by_contra hless
  obtain ⟨earlier, hearlier, hturn⟩ := h.copies avoids hran hwaits hsender (UInt64.not_le.1 hless)
  obtain ⟨lost, hperm⟩ := h.conserved avoids
  rw [← (hperm.map _).nodup_iff, List.map_append, List.map_append] at distinct
  have hapart := List.disjoint_of_nodup_append (List.nodup_append.1 distinct).1
  refine hapart ?_ (List.mem_map_of_mem hwaits)
  rw [← hturn]
  exact List.mem_map_of_mem (List.mem_map_of_mem (List.mem_append_left _ hearlier))

theorem execute_moment {pool : Pool} {dealer : Dealer} {n n' : Node} {e : BlockExecution}
    (h : pool.execute r block dealer n = .ok e n') {before after : List CommittedResult}
    {result : CommittedResult} (hresults : e.results = before ++ result :: after) :
    ∃ leftover g lost, Moment r n.hashes block pool.batch n.view.contents before result leftover g ∧
      (after.map (·.tx) ++ waiting n'.view.contents ++ lost).Perm (leftover ++ waiting g) := by
  obtain ⟨range, queued, gate, hrange, hpositions, hfound, hruns, -⟩ := execute_runs h
  obtain ⟨earlier, behind, hpublished, rfl, hbehind⟩ := List.map_eq_append_iff.1 hresults
  obtain ⟨x, later, rfl, rfl, rfl⟩ := List.map_eq_cons_iff.1 hbehind
  obtain ⟨leftover, g, lost, hmoment, hperm⟩ :=
    hruns.moment avoids (waiting_of_found hrange hpositions hfound).symm hpublished
  exact ⟨leftover, g, lost, hmoment, by simpa [Function.comp_def] using hperm⟩

/-- When a block publishes the result of a transaction that has not expired, every smaller nonce of its
sender that still waits is a copy of one that the block has published before. So when no nonce was queued
twice, no smaller nonce waits. -/
theorem execute_overtakes_copies {pool : Pool} {dealer : Dealer} {n n' : Node} {e : BlockExecution}
    (h : pool.execute r block dealer n = .ok e n') {before after : List CommittedResult}
    {result : CommittedResult} (hresults : e.results = before ++ result :: after)
    (hran : result.status ≠ .tooOld) :
    (∃ leftover g lost,
      Moment r n.hashes block pool.batch n.view.contents before result leftover g ∧
      (after.map (·.tx) ++ waiting n'.view.contents ++ lost).Perm (leftover ++ waiting g)) ∧
    ∀ leftover g, Moment r n.hashes block pool.batch n.view.contents before result leftover g →
      (∀ tx ∈ leftover ++ waiting g, tx.sender = result.tx.sender → tx.nonce < result.tx.nonce →
        ∃ earlier ∈ before, earlier.tx.turn = tx.turn) ∧
      (((waiting n.view.contents).map Transaction.turn).Nodup →
        ∀ tx ∈ leftover ++ waiting g, tx.sender = result.tx.sender → result.tx.nonce ≤ tx.nonce) := by
  refine ⟨execute_moment avoids h hresults, fun leftover g hmoment => ⟨?_, ?_⟩⟩
  · exact fun tx hwaits => hmoment.copies avoids hran hwaits
  · exact fun distinct tx hwaits => hmoment.lowest avoids hran distinct hwaits

end

/-! ## A nonce that is queued twice -/

/-- The account at 1 and an empty queue. -/
def oneAccount : Engine :=
  { runner := stakingRunner
    desk := { node := { view :=
      { base := (∅ : Store).insert (Key.account 1).bytes (Account.encode { balance := 1000000 }) } } } }

/-- Two admissions without a block between them queue the first nonce twice. -/
def admitTwice : Engine.Session Unit := do
  Engine.collect { transfer 0 with height := 1 }
  Engine.collect { transfer 1 with height := 2 }
  let _ ← Engine.prepare 0 0 100000
  Engine.collect { transfer 0 with height := 2 }
  let _ ← Engine.prepare 1 0 100000

/-- The first copy has expired when the block runs. -/
def lateBlock : Block := { number := 12 }

def onePerRound : Pool := { workers := 1, batch := 1, rounds := 5 }

theorem admitTwice_results :
    ∃ e x n', admitTwice oneAccount = .ok () e ∧
      onePerRound.execute stakingRunner lateBlock .inOrder e.desk.node = .ok x n' ∧
      x.results.map (fun result => (result.status, result.tx)) =
        [(.tooOld, { transfer 0 with height := 1 }), (.nonceTooLarge, { transfer 1 with height := 2 }),
          (.success, { transfer 0 with height := 2 })] := by
  have hends : endsWith (admitTwice oneAccount) (fun _ e =>
      endsWith (onePerRound.execute stakingRunner lateBlock .inOrder e.desk.node) fun x _ =>
        x.results.map (fun result => (result.status, result.tx)) ==
          [(.tooOld, { transfer 0 with height := 1 }), (.nonceTooLarge, { transfer 1 with height := 2 }),
            (.success, { transfer 0 with height := 2 })]) = true := by
    decide +kernel
  obtain ⟨u, e, hadmit, hends⟩ := endsWith_iff.1 hends
  obtain ⟨x, n', hexecute, htest⟩ := endsWith_iff.1 hends
  exact ⟨e, x, n', hadmit, hexecute, beq_iff_eq.1 htest⟩

/-- The result of the second nonce, with what the block publishes around it. -/
theorem admitTwice_split :
    ∃ e x n' before result after, admitTwice oneAccount = .ok () e ∧
      onePerRound.execute stakingRunner lateBlock .inOrder e.desk.node = .ok x n' ∧
      x.results = before ++ result :: after ∧ result.status = .nonceTooLarge ∧
      result.tx = { transfer 1 with height := 2 } ∧
      after.map (·.tx) = [{ transfer 0 with height := 2 }] := by
  obtain ⟨e, x, n', hadmit, hexecute, hresults⟩ := admitTwice_results
  obtain ⟨first, _, hsplit, -, hbehind⟩ := List.map_eq_cons_iff.1 hresults
  obtain ⟨result, after, rfl, hresult, hafter⟩ := List.map_eq_cons_iff.1 hbehind
  obtain ⟨hstatus, htx⟩ := Prod.mk.inj hresult
  refine ⟨e, x, n', [first], result, after, hadmit, hexecute, hsplit, hstatus, htx, ?_⟩
  simpa [Function.comp_def] using congrArg (List.map Prod.snd) hafter

theorem admitTwice_copies :
    ∃ e x n' before result after leftover g, admitTwice oneAccount = .ok () e ∧
      onePerRound.execute stakingRunner lateBlock .inOrder e.desk.node = .ok x n' ∧
      x.results = before ++ result :: after ∧ result.status = .nonceTooLarge ∧
      Moment stakingRunner e.desk.node.hashes lateBlock 1 e.contents before result leftover g ∧
      ∃ earlier ∈ before, earlier.tx.turn = (1, 0) := by
  obtain ⟨e, x, n', before, result, after, hadmit, hexecute, hresults, hstatus, htx, hafter⟩ :=
    admitTwice_split
  have hstaking : stakingRunner.contracts.OnlyStaking := ContractTable.onlyStaking_insert
  obtain ⟨⟨leftover, g, lost, hmoment, hperm⟩, hcopies⟩ :=
    execute_overtakes_copies hstaking.avoids hexecute hresults (by rw [hstatus]; decide)
  refine ⟨e, x, n', before, result, after, leftover, g, hadmit, hexecute, hresults, hstatus, hmoment, ?_⟩
  refine (hcopies leftover g hmoment).1 { transfer 0 with height := 2 } ?_ ?_ ?_
  · exact hperm.mem_iff.1 (by simp [hafter])
  · rw [htx]
    rfl
  · rw [htx]
    decide

/-- The copy of the first nonce that has not expired waits while the second nonce runs and is too large. -/
theorem admitTwice_overtaken :
    ∃ e x n' before result after leftover g, admitTwice oneAccount = .ok () e ∧
      onePerRound.execute stakingRunner lateBlock .inOrder e.desk.node = .ok x n' ∧
      x.results = before ++ result :: after ∧ result.status = .nonceTooLarge ∧
      Moment stakingRunner e.desk.node.hashes lateBlock 1 e.contents before result leftover g ∧
      ∃ tx ∈ leftover ++ waiting g, tx.sender = result.tx.sender ∧ tx.nonce < result.tx.nonce ∧
        tx.isTooOld lateBlock.number = false := by
  obtain ⟨e, x, n', before, result, after, hadmit, hexecute, hresults, hstatus, htx, hafter⟩ :=
    admitTwice_split
  have hstaking : stakingRunner.contracts.OnlyStaking := ContractTable.onlyStaking_insert
  obtain ⟨leftover, g, lost, hmoment, hperm⟩ := execute_moment hstaking.avoids hexecute hresults
  refine ⟨e, x, n', before, result, after, leftover, g, hadmit, hexecute, hresults, hstatus, hmoment,
    { transfer 0 with height := 2 }, ?_, ?_, ?_, by decide⟩
  · exact hperm.mem_iff.1 (by simp [hafter])
  · rw [htx]
    rfl
  · rw [htx]
    decide

end Rounds

end RoundLedger
