import Mathlib.Data.List.Range
import RoundLedger.Proofs.Nonces
import RoundLedger.Proofs.Overtaking

/-!
# Runs of consecutive nonces

When the queued nonces of every sender follow the nonce of its account without gap or copy, the gate lets
through exactly the next nonce of a sender. So no transaction is turned away, in whatever order the queue
is, and what a block leaves is in order again. The exception is the transaction that the queue loses at the
reserved position: behind it there is a gap.
-/

namespace RoundLedger

open Step Program Queue State

/-! ## Accounts stay -/

theorem Accounts.isSome_set {m : Accounts} {other : Address} (h : (m other).isSome) (address : Address)
    (account : Account) : (m.set address (some account) other).isSome := by
  unfold set
  split
  · rfl
  · exact h

theorem Accounts.isSome_credit {m : Accounts} {other : Address} (h : (m other).isSome)
    (address : Address) (amount : Word) : (m.credit address amount other).isSome := by
  unfold credit
  split
  · exact h
  · exact isSome_set h _ _

theorem Effect.isSome {tx : Transaction} {m m' : Accounts} {created : Option Address}
    (h : Effect tx m created m') {address : Address} (hbefore : (m address).isSome) :
    (m' address).isSome := by
  cases h with
  | still => exact hbefore
  | paid _ _ => exact Accounts.isSome_set (Accounts.isSome_set hbefore _ _) _ _
  | created _ _ => exact Accounts.isSome_set (Accounts.isSome_set hbefore _ _) _ _

theorem Ran.isSome {tx : Transaction} {m m' : Accounts} {result : CommittedResult}
    (h : Ran tx m result m') {address : Address} (hbefore : (m address).isSome) :
    (m' address).isSome := by
  obtain ⟨account, moved, -, -, -, heffect, rfl⟩ := h.effect
  exact Accounts.isSome_credit (heffect.isSome (Accounts.isSome_set hbefore _ _)) _ _

/-- A sender that has an account with the right nonce is not turned away for its nonce. -/
theorem State.not_mismatches {m : Accounts} {address : Address} {nonce : UInt64}
    {mismatch : NonceMismatch} (haccount : (m address).isSome) (hnonce : m.nonce address = nonce) :
    ¬ Mismatches m address nonce mismatch := by
  obtain ⟨account, haccount⟩ := Option.isSome_iff_exists.1 haccount
  have hsame : account.nonce = nonce := by
    rw [← hnonce, Accounts.nonce, haccount]
    rfl
  intro hmismatch
  cases mismatch with
  | accountNotExist => exact Option.some_ne_none _ (haccount.symm.trans hmismatch)
  | tooSmall =>
    obtain ⟨account', haccount', hlt⟩ := hmismatch
    obtain rfl : account = account' := Option.some.inj (haccount.symm.trans haccount')
    exact UInt64.lt_irrefl _ (hsame ▸ hlt)
  | tooLarge =>
    obtain ⟨account', haccount', hlt⟩ := hmismatch
    obtain rfl : account = account' := Option.some.inj (haccount.symm.trans haccount')
    exact UInt64.lt_irrefl _ (hsame ▸ hlt)

/-! ## Queues in order -/

/-- The nonces of a sender, in the order of its transactions. -/
def noncesOf (sender : Address) (txs : List Transaction) : List Nat :=
  (txs.filter (·.sender == sender)).map (·.nonce.toNat)

theorem noncesOf_append (sender : Address) (txs txs' : List Transaction) :
    noncesOf sender (txs ++ txs') = noncesOf sender txs ++ noncesOf sender txs' := by
  simp [noncesOf]

theorem noncesOf_perm {txs txs' : List Transaction} (h : txs.Perm txs') (sender : Address) :
    (noncesOf sender txs).Perm (noncesOf sender txs') := (h.filter _).map _

theorem mem_noncesOf {sender : Address} {txs : List Transaction} {nonce : Nat} :
    nonce ∈ noncesOf sender txs ↔ ∃ tx ∈ txs, tx.sender = sender ∧ tx.nonce.toNat = nonce := by
  simp [noncesOf, and_assoc]

theorem noncesOf_eq_nil {sender : Address} {txs : List Transaction}
    (h : ¬ ∃ tx ∈ txs, tx.sender = sender) : noncesOf sender txs = [] := by
  rw [noncesOf, List.map_eq_nil_iff, List.filter_eq_nil_iff]
  exact fun tx htx hsender => h ⟨tx, htx, beq_iff_eq.1 hsender⟩

/-- Behind the front of a run of nonces comes the rest of it. -/
theorem perm_range'_of_append {start k count : Nat} {rest : List Nat}
    (h : (List.range' start k ++ rest).Perm (List.range' start count)) :
    rest.Perm (List.range' (start + k) (count - k)) := by
  have hlength := h.length_eq
  rw [List.length_append, List.length_range', List.length_range'] at hlength
  have hsplit : List.range' start count = List.range' start k ++ List.range' (start + k) (count - k) := by
    rw [List.range'_append_1]
    congr 1
    omega
  rw [hsplit] at h
  exact (List.perm_append_left_iff _).1 h

/-- The queue has all its entries, every sender has an account, and the nonces of a sender that are queued
follow the nonce of its account, in any order in the queue. -/
structure InOrder (f : Contents) (r : QueueRange) : Prop where
  range : rangeIn f = .ok r
  complete : ∀ position, r.start ≤ position → position < r.stop → (entryIn f position).isSome
  known : ∀ tx ∈ waiting f, (accountsIn f tx.sender).isSome
  consecutive : ∀ sender, ∃ count,
    (noncesOf sender (waiting f)).Perm (List.range' ((accountsIn f).nonce sender).toNat count)

/-- A queue has all its entries when as many transactions wait as there are positions. -/
theorem complete_iff {f : Contents} {r : QueueRange} (h : rangeIn f = .ok r) :
    (∀ position, r.start ≤ position → position < r.stop → (entryIn f position).isSome) ↔
      (waiting f).length = r.stop.toNat - r.start.toNat := by
  have hstop := r.stop.toNat_lt
  have hsize : UInt64.size = 2 ^ 64 := rfl
  have hcount : (waiting f).length = (live r).countP fun position => (entryIn f position).isSome := by
    rw [waiting_of_range h, List.length_filterMap_eq_countP]
  have hlive : (live r).length = r.stop.toNat - r.start.toNat := length_positions _ _
  rw [hcount, ← hlive, List.countP_eq_length]
  by_cases hordered : r.start.toNat ≤ r.stop.toNat
  · refine forall_congr' fun position => ?_
    rw [live, mem_positions (by omega), UInt64.le_iff_toNat_le, UInt64.lt_iff_toNat_lt, ← and_imp]
    refine imp_congr_left (and_congr_right fun _ => ?_)
    omega
  · have hnone : live r = [] := by
      rw [← List.length_eq_zero_iff, hlive]
      omega
    rw [hnone]
    refine iff_of_true (fun position hstart hbefore => ?_) (by simp)
    rw [UInt64.le_iff_toNat_le] at hstart
    rw [UInt64.lt_iff_toNat_lt] at hbefore
    omega

/-- Records that are neither nonces nor of the queue do not matter to the order. -/
theorem InOrder.congr {f g : Contents} {r : QueueRange} (h : InOrder f r)
    (queue : ∀ key, Key.IsQueue key → f key = g key)
    (nonces : ∀ address, (accountsIn f).nonce address = (accountsIn g).nonce address)
    (known : ∀ address, (accountsIn f address).isSome → (accountsIn g address).isSome) : InOrder g r where
  range := by rw [← rangeIn_congr queue, h.range]
  complete position hstart hstop := by
    rw [← entryIn_congr queue]
    exact h.complete position hstart hstop
  known tx htx := known _ (h.known tx (by rwa [waiting_congr queue]))
  consecutive sender := by
    rw [← waiting_congr queue, ← nonces]
    exact h.consecutive sender

theorem InOrder.of_sender (sender : Address) (count : Nat) {f : Contents} {range : QueueRange}
    (hrange : rangeIn f = .ok range) (hall : (waiting f).length = range.stop.toNat - range.start.toNat)
    (hsender : ∀ tx ∈ waiting f, tx.sender = sender) (haccount : (accountsIn f sender).isSome)
    (hrun : (noncesOf sender (waiting f)).Perm
      (List.range' ((accountsIn f).nonce sender).toNat count)) : InOrder f range where
  range := hrange
  complete := (complete_iff hrange).2 hall
  known tx htx := by rwa [hsender tx htx]
  consecutive other := by
    by_cases hsame : sender = other
    · exact ⟨count, hsame ▸ hrun⟩
    · refine ⟨0, ?_⟩
      rw [noncesOf_eq_nil]
      · exact .nil
      · rintro ⟨tx, htx, rfl⟩
        exact hsame (hsender tx htx).symm

/-- A queue that is in order does not reach over the reserved position. -/
theorem InOrder.not_live {f : Contents} {r : QueueRange} (h : InOrder f r) (hstart : r.start ≤ reserved) :
    ¬ reserved < r.stop := by
  intro hstop
  have hlive := h.complete reserved hstart hstop
  rw [entryIn_reserved h.range] at hlive
  cases hlive

namespace Rounds

variable {r : Runner} {hashes : BlockHashes} {block : Block} {batch : UInt64}

/-- What was published in a round ran on the contents at its start. -/
theorem Settled.ran {gate : NonceGate} {f g : Contents} {entries : List QueueEntry} {p : Progress}
    (h : Settled r hashes block gate f entries p g) {x : Published} (hx : x ∈ p.published) :
    ∃ entry ∈ entries, gate.mayRun block.number entry.tx = true ∧
      ∃ c o, r.trial hashes block entry.tx f = .ok (x.result, c) o := by
  obtain ⟨earlier, later, hpublished⟩ := List.append_of_mem hx
  obtain ⟨done, entry, rest, p', h₂, g', c, o, rfl, -, -, hmay, htrial, -, -⟩ :=
    h.commit_of_published hpublished
  exact ⟨entry, by simp, hmay, c, o, htrial⟩

section

variable (avoids : r.contracts.Avoids Key.IsQueue) {gate gate' : NonceGate} {f g : Contents}
  {e : BlockExecution} (h : Runs r hashes block batch gate f e gate' g)

include avoids h

theorem Runs.waits_before {tx : Transaction} (hwaits : tx ∈ waiting g) : tx ∈ waiting f := by
  obtain ⟨lost, hperm⟩ := h.conserved avoids
  exact hperm.mem_iff.1 (by simp [hwaits])

theorem Runs.queued_of_published {result : CommittedResult} (hresult : result ∈ e.results) :
    result.tx ∈ waiting f := by
  obtain ⟨lost, hperm⟩ := h.conserved avoids
  obtain ⟨x, hx, rfl⟩ := List.mem_map.1 hresult
  refine hperm.mem_iff.1 (List.mem_append_left _ (List.mem_append_left _ ?_))
  exact List.mem_map.2 ⟨x, hx, rfl⟩

end

section

variable (backend : r.backend = Transfer.backend) (staking : r.contracts.OnlyStaking)

include backend staking

theorem Serial.isSome {f g : Contents} {results : List CommittedResult}
    (h : Serial r hashes block f results g) {address : Address}
    (hbefore : (accountsIn f address).isSome) : (accountsIn g address).isSome := by
  induction h with
  | start => exact hbefore
  | next _ htrial ih =>
    obtain ⟨status, -, -, hsame⟩ | hran := Runner.trial_ok backend staking htrial
    · rw [hsame]
      exact ih
    · exact hran.isSome ih

/-- The nonces of a sender when some of its transactions were published: those are the first of its
run, and the others wait behind them. -/
theorem Runs.nonces_left {gate gate' : NonceGate} {f g : Contents} {e : BlockExecution}
    (h : Runs r hashes block batch gate f e gate' g)
    (unassigned : ∀ result ∈ e.results, result.status.isEngineAssigned = false) {sender : Address}
    (apart : ∀ result ∈ e.results, result.contract ≠ some sender) {count : Nat}
    (hrun : (noncesOf sender (waiting f)).Perm
      (List.range' ((accountsIn f).nonce sender).toNat count)) :
    ∃ k lost, noncesOf sender (e.results.map (·.tx))
        = List.range' ((accountsIn f).nonce sender).toNat k ∧
      ((accountsIn g).nonce sender).toNat = ((accountsIn f).nonce sender).toNat + k ∧
      (e.results.map (·.tx) ++ waiting g ++ lost).Perm (waiting f) ∧
      (noncesOf sender (waiting g ++ lost)).Perm
        (List.range' (((accountsIn f).nonce sender).toNat + k) (count - k)) := by
  obtain ⟨s, hserial, hsame⟩ := h.serial staking.avoids staking.quiet
  obtain ⟨k, hused, hnonce⟩ := hserial.nonces backend staking apart
  obtain ⟨lost, hperm⟩ := h.conserved staking.avoids
  have hall : noncesOf sender (e.results.map (·.tx)) = usedNonces sender e.results := by
    rw [noncesOf, usedNonces, List.filter_map, List.map_map]
    refine congrArg (List.map _) (List.filter_congr fun result hresult => ?_)
    simp [unassigned result hresult]
  have hresults : e.published.map (·.result.tx) = e.results.map (·.tx) := by
    simp [BlockExecution.results]
  rw [hresults] at hperm
  rw [hsame.accountsIn_eq] at hnonce
  refine ⟨k, lost, hall.trans hused, hnonce, hperm, ?_⟩
  have hnonces := (noncesOf_perm hperm sender).trans hrun
  rw [List.append_assoc, noncesOf_append, hall, hused] at hnonces
  exact perm_range'_of_append hnonces

theorem Runs.isSome {gate gate' : NonceGate} {f g : Contents} {e : BlockExecution}
    (h : Runs r hashes block batch gate f e gate' g) {address : Address}
    (hbefore : (accountsIn f address).isSome) : (accountsIn g address).isSome := by
  obtain ⟨s, hserial, hsame⟩ := h.serial staking.avoids staking.quiet
  rw [← hsame.accountsIn_eq]
  exact hserial.isSome backend staking hbefore

section Order

variable {queued : List QueueEntry} {gate : NonceGate} {f g : Contents} {e : BlockExecution}
  {range : QueueRange} (h : Runs r hashes block batch (.ofEntries queued) f e gate g)
  (hqueued : queued.map (·.tx) = waiting f) (hin : InOrder f range)
  (young : ∀ tx ∈ waiting f, tx.isTooOld block.number = false)
  (apart : ∀ result ∈ e.results, ∀ tx ∈ waiting f, result.contract ≠ some tx.sender)

include h hqueued hin young apart

/-- Of a sender the gate lets through the next nonce and no other. -/
theorem Runs.next_of_mayRun (unassigned : ∀ result ∈ e.results, result.status.isEngineAssigned = false)
    {tx : Transaction} (hwaits : tx ∈ waiting g) (hmay : gate.mayRun block.number tx = true) :
    tx ∈ waiting f ∧ (accountsIn g).nonce tx.sender = tx.nonce := by
  obtain ⟨count, hrun⟩ := hin.consecutive tx.sender
  have hqueue : tx ∈ waiting f := h.waits_before staking.avoids hwaits
  obtain ⟨k, lost, hpublished, hnonce, -, hleft⟩ := h.nonces_left backend staking unassigned
    (fun result hresult => apart result hresult tx hqueue) hrun
  have hmem : tx.nonce.toNat ∈ noncesOf tx.sender (waiting g ++ lost) :=
    mem_noncesOf.2 ⟨tx, by simp [hwaits], rfl, rfl⟩
  have hrange := List.mem_range'_1.1 (hleft.mem_iff.1 hmem)
  -- The next nonce is queued and not published, so the gate holds it.
  have hnext : ((accountsIn f).nonce tx.sender).toNat + k ∈ noncesOf tx.sender (waiting f) :=
    hrun.mem_iff.2 (List.mem_range'_1.2 (by omega))
  obtain ⟨next, hfound, hsame, hvalue⟩ := mem_noncesOf.1 hnext
  have hholds : gate.Holds tx.sender next.nonce := by
    refine h.holds.2 ⟨NonceGate.holds_ofEntries.2 ⟨next, hqueued ▸ hfound, hsame, rfl⟩, ?_⟩
    intro result hresult hturn
    obtain ⟨hthis, hthat⟩ := Prod.mk.inj hturn
    have hused : next.nonce.toNat ∈ noncesOf tx.sender (e.results.map (·.tx)) :=
      mem_noncesOf.2 ⟨result.tx, List.mem_map_of_mem hresult, hthis, by rw [hthat]⟩
    rw [hpublished, List.mem_range'_1, hvalue] at hused
    omega
  rw [NonceGate.mayRun_iff, young tx hqueue] at hmay
  have hle := UInt64.le_iff_toNat_le.1 (hmay.resolve_left Bool.false_ne_true next.nonce hholds)
  refine ⟨hqueue, UInt64.toNat_inj.1 ?_⟩
  omega

/-- No transaction is turned away. -/
theorem Runs.unassigned : ∀ result ∈ e.results, result.status.isEngineAssigned = false := by
  induction h with
  | start => simp [BlockExecution.results]
  | @round e gate h h₁ h₂ h₃ entries p hruns hpop _ hsettled _ ih =>
    simp only [BlockExecution.results, addRound, List.map_append, List.forall_mem_append] at apart ⊢
    have hbefore := ih apart.1
    refine ⟨hbefore, ?_⟩
    intro result hresult
    obtain ⟨x, hx, rfl⟩ := List.mem_map.1 hresult
    obtain ⟨entry, hentry, hmay, c, o, htrial⟩ := hsettled.ran hx
    obtain ⟨range', hpopped, -⟩ := popFront_ok hpop
    have hwaits : entry.tx ∈ waiting h := by
      rw [hpopped.waiting_eq]
      exact List.mem_append_left _ (List.mem_map_of_mem hentry)
    obtain ⟨hqueue, hnonce⟩ := hruns.next_of_mayRun backend staking hqueued hin young apart.1 hbefore
      hwaits hmay
    have hknown := hruns.isSome backend staking (hin.known entry.tx hqueue)
    rw [← hpopped.sameState.accountsIn_eq] at hnonce hknown
    obtain ⟨status, haway, -, -⟩ | hran := Runner.trial_ok backend staking htrial
    · cases haway with
      | expired hexpired =>
        rw [young entry.tx hqueue] at hexpired
        cases hexpired
      | mismatch hmismatch => exact absurd hmismatch (not_mismatches hknown hnonce)
    · exact hran.assigned
  | idle _ _ ih => exact ih apart

/-- The published transactions of a sender are the first of its run. -/
theorem Runs.published_nonces {sender : Address} (hsender : ∃ tx ∈ waiting f, tx.sender = sender) :
    ∃ k, noncesOf sender (e.results.map (·.tx))
        = List.range' ((accountsIn f).nonce sender).toNat k ∧
      ((accountsIn g).nonce sender).toNat = ((accountsIn f).nonce sender).toNat + k := by
  obtain ⟨tx, htx, rfl⟩ := hsender
  obtain ⟨count, hrun⟩ := hin.consecutive tx.sender
  have unassigned := h.unassigned backend staking hqueued hin young apart
  obtain ⟨k, -, hpublished, hnonce, -⟩ := h.nonces_left backend staking unassigned
    (fun result hresult => apart result hresult tx htx) hrun
  exact ⟨k, hpublished, hnonce⟩

/-- What was published of a sender before the block and what the block publishes of it are one run. -/
theorem Runs.published_behind {sender : Address} {before : List Transaction} {start k : Nat}
    (hbefore : noncesOf sender before = List.range' start k)
    (hnonce : (∃ tx ∈ waiting f, tx.sender = sender) →
      ((accountsIn f).nonce sender).toNat = start + k) :
    ∃ k', noncesOf sender (before ++ e.results.map (·.tx)) = List.range' start k' ∧
      ((∃ tx ∈ waiting g, tx.sender = sender) →
        ((accountsIn g).nonce sender).toNat = start + k') := by
  rw [noncesOf_append, hbefore]
  by_cases hsender : ∃ tx ∈ waiting f, tx.sender = sender
  · obtain ⟨k', hnow, hafter⟩ := h.published_nonces backend staking hqueued hin young apart hsender
    rw [hnonce hsender] at hnow hafter
    refine ⟨k + k', ?_, fun _ => by omega⟩
    rw [hnow, List.range'_append_1]
  · refine ⟨k, ?_, ?_⟩
    · rw [noncesOf_eq_nil, List.append_nil]
      rintro ⟨tx, htx, rfl⟩
      obtain ⟨result, hresult, rfl⟩ := List.mem_map.1 htx
      exact hsender ⟨_, h.queued_of_published staking.avoids hresult, rfl⟩
    · rintro ⟨tx, hwaits, rfl⟩
      exact absurd ⟨tx, h.waits_before staking.avoids hwaits, rfl⟩ hsender

/-- What is left is in order again when nothing was lost. -/
theorem Runs.inOrder {now : QueueRange} (hmoved : Moved f range e.published e.reappended g now)
    (hpasses : ¬ Passes range.stop now.stop) : InOrder g now := by
  have unassigned := h.unassigned backend staking hqueued hin young apart
  obtain ⟨lost, hlength, hperm⟩ := hmoved.conserved
  rw [if_neg hpasses] at hlength
  have hcount := hperm.length_eq
  simp only [List.length_append, List.length_map] at hcount
  refine ⟨hmoved.range, ?_, ?_, ?_⟩
  · have hbefore := (complete_iff hin.range).1 hin.complete
    have hstart := hmoved.start
    have hstop := hmoved.stop
    refine (complete_iff hmoved.range).2 ?_
    omega
  · intro tx hwaits
    exact h.isSome backend staking (hin.known tx (h.waits_before staking.avoids hwaits))
  · intro sender
    by_cases hsender : ∃ tx ∈ waiting f, tx.sender = sender
    · obtain ⟨tx, htx, rfl⟩ := hsender
      obtain ⟨count, hrun⟩ := hin.consecutive tx.sender
      obtain ⟨k, lost', -, hnonce, hperm', hleft⟩ := h.nonces_left backend staking unassigned
        (fun result hresult => apart result hresult tx htx) hrun
      have hcount' := hperm'.length_eq
      have hresults : e.results.length = e.published.length := by simp [BlockExecution.results]
      simp only [List.length_append, List.length_map] at hcount'
      obtain rfl : lost' = [] := by
        rw [← List.length_eq_zero_iff]
        omega
      rw [List.append_nil] at hleft
      exact ⟨count - k, by rw [hnonce]; exact hleft⟩
    · refine ⟨0, ?_⟩
      rw [noncesOf_eq_nil]
      · exact .nil
      · rintro ⟨tx, hwaits, rfl⟩
        exact hsender ⟨tx, h.waits_before staking.avoids hwaits, rfl⟩

end Order

/-! ## Blocks -/

/-- Blocks that run one after another from the node `n`, with all the results they publish. No queued
transaction has expired when a block runs, and no contract is created at its sender. Between blocks
anything may change but the queue, the nonces and which accounts there are. -/
inductive Blocks (r : Runner) (n : Node) : List CommittedResult → Node → Prop
  | start : Blocks r n [] n
  | next {results m e m'} {pool : Pool} {dealer : Dealer} {block : Block} : Blocks r n results m →
      (∀ tx ∈ waiting m.view.contents, tx.isTooOld block.number = false) →
      pool.execute r block dealer m = .ok e m' →
      (∀ result ∈ e.results, ∀ tx ∈ waiting m.view.contents, result.contract ≠ some tx.sender) →
      Blocks r n (results ++ e.results) m'
  | between {results m m'} : Blocks r n results m →
      (∀ key, Key.IsQueue key → m.view.contents key = m'.view.contents key) →
      (∀ address, (accountsIn m.view.contents).nonce address
        = (accountsIn m'.view.contents).nonce address) →
      (∀ address, (accountsIn m.view.contents address).isSome →
        (accountsIn m'.view.contents address).isSome) →
      Blocks r n results m'

omit backend staking in
/-- A block runs only when the queue has all its entries. -/
theorem complete_of_execute {pool : Pool} {dealer : Dealer} {n n' : Node} {e : BlockExecution}
    {range : QueueRange} (hrange : rangeIn n.view.contents = .ok range)
    (h : pool.execute r block dealer n = .ok e n') :
    ∀ position, range.start ≤ position → position < range.stop →
      (entryIn n.view.contents position).isSome := by
  obtain ⟨range', queued, gate, hrange', hpositions, hfound, -, -⟩ := execute_runs h
  obtain rfl : range = range' := Except.ok.inj (hrange.symm.trans hrange')
  rw [complete_iff hrange, waiting_of_found hrange hpositions hfound, List.length_map]
  simpa [live] using congrArg List.length hpositions

/-- How far the blocks have come: the range of the queue now. -/
structure Blocks.Reached (n : Node) (before : QueueRange) (results : List CommittedResult) (m : Node)
    (now : QueueRange) : Prop where
  unassigned : ∀ result ∈ results, result.status.isEngineAssigned = false
  published : ∀ sender, ∃ k, noncesOf sender (results.map (·.tx))
      = List.range' ((accountsIn n.view.contents).nonce sender).toNat k ∧
    ((∃ tx ∈ waiting m.view.contents, tx.sender = sender) →
      ((accountsIn m.view.contents).nonce sender).toNat
        = ((accountsIn n.view.contents).nonce sender).toNat + k)
  range : rangeIn m.view.contents = .ok now
  stop : before.stop.toNat ≤ now.stop.toNat
  passed : Passes before.stop now.stop → now.start ≤ reserved
  inOrder : ¬ Passes before.stop now.stop → InOrder m.view.contents now

theorem Blocks.Reached.next {n m m' : Node} {range now : QueueRange} {results : List CommittedResult}
    {pool : Pool} {dealer : Dealer} {e : BlockExecution} (hreached : Reached n range results m now)
    (young : ∀ tx ∈ waiting m.view.contents, tx.isTooOld block.number = false)
    (h : pool.execute r block dealer m = .ok e m')
    (apart : ∀ result ∈ e.results, ∀ tx ∈ waiting m.view.contents, result.contract ≠ some tx.sender) :
    ∃ now', Reached n range (results ++ e.results) m' now' := by
  have hcomplete := complete_of_execute hreached.range h
  -- The queue has not passed the reserved position, for that has no entry.
  have hpasses : ¬ Passes range.stop now.stop := by
    intro hpasses
    have hlive := hcomplete reserved (hreached.passed hpasses) hpasses.2
    rw [entryIn_reserved hreached.range] at hlive
    cases hlive
  have hin := hreached.inOrder hpasses
  obtain ⟨range', queued, gate, hrange', hpositions, hfound, hruns, -⟩ := execute_runs h
  obtain rfl : now = range' := Except.ok.inj (hreached.range.symm.trans hrange')
  have hqueued := (waiting_of_found hrange' hpositions hfound).symm
  have hunassigned := hruns.unassigned backend staking hqueued hin young apart
  have hpublished : ∀ sender, ∃ k, noncesOf sender ((results ++ e.results).map (·.tx))
        = List.range' ((accountsIn n.view.contents).nonce sender).toNat k ∧
      ((∃ tx ∈ waiting m'.view.contents, tx.sender = sender) →
        ((accountsIn m'.view.contents).nonce sender).toNat
          = ((accountsIn n.view.contents).nonce sender).toNat + k) := by
    intro sender
    obtain ⟨k, hbefore, hnonce⟩ := hreached.published sender
    rw [List.map_append]
    exact hruns.published_behind backend staking hqueued hin young apart hbefore hnonce
  have hall : ∀ result ∈ results ++ e.results, result.status.isEngineAssigned = false :=
    List.forall_mem_append.2 ⟨hreached.unassigned, hunassigned⟩
  obtain ⟨hsame, -⟩ | ⟨before, hbefore, hordered⟩ := hruns.ordered
  · refine ⟨now, hall, hpublished, ?_, hreached.stop, hreached.passed, ?_⟩
    · rw [hsame, hreached.range]
    · rw [hsame]
      exact hreached.inOrder
  · obtain rfl : now = before := Except.ok.inj (hreached.range.symm.trans hbefore)
    obtain ⟨now', hmoved⟩ := hruns.moved staking.avoids hbefore hordered
    have hstop := hmoved.stop
    have hfirst := hreached.stop
    refine ⟨now', hall, hpublished, hmoved.range, by omega, ?_, ?_⟩
    · intro hpasses'
      rw [passes_iff] at hpasses hpasses'
      refine hmoved.behind (UInt64.le_trans hordered ?_)
      rw [UInt64.le_iff_toNat_le]
      omega
    · intro hpasses'
      refine hruns.inOrder backend staking hqueued hin young apart hmoved fun hnow => hpasses' ?_
      rw [passes_iff] at hnow ⊢
      omega

omit backend staking in
theorem Blocks.Reached.between {n m m' : Node} {range now : QueueRange}
    {results : List CommittedResult} (hreached : Reached n range results m now)
    (queue : ∀ key, Key.IsQueue key → m.view.contents key = m'.view.contents key)
    (nonces : ∀ address, (accountsIn m.view.contents).nonce address
      = (accountsIn m'.view.contents).nonce address)
    (known : ∀ address, (accountsIn m.view.contents address).isSome →
      (accountsIn m'.view.contents address).isSome) : Reached n range results m' now where
  unassigned := hreached.unassigned
  published sender := by
    rw [← waiting_congr queue, ← nonces]
    exact hreached.published sender
  range := by rw [← rangeIn_congr queue, hreached.range]
  stop := hreached.stop
  passed := hreached.passed
  inOrder hpasses := (hreached.inOrder hpasses).congr queue nonces known

/-- From a queue in order no block turns a transaction away, and every sender's transactions are published
with consecutive nonces from the one of its account on. What the blocks leave is in order again exactly
when the end of the queue has not passed over the reserved position. -/
theorem blocks_consecutive {n m : Node} {results : List CommittedResult} {range : QueueRange}
    (hin : InOrder n.view.contents range) (h : Blocks r n results m) :
    (∀ result ∈ results, result.status.isEngineAssigned = false) ∧
      (∀ sender, ∃ k, noncesOf sender (results.map (·.tx))
        = List.range' ((accountsIn n.view.contents).nonce sender).toNat k) ∧
      ∃ now, rangeIn m.view.contents = .ok now ∧
        (InOrder m.view.contents now ↔ ¬ Passes range.stop now.stop) := by
  have hreached : ∃ now, Blocks.Reached n range results m now := by
    induction h with
    | start =>
      refine ⟨range, by simp, fun sender => ⟨0, rfl, fun _ => rfl⟩, hin.range, Nat.le_refl _, ?_,
        fun _ => hin⟩
      exact fun hpasses => absurd hpasses.2 (UInt64.not_lt.2 hpasses.1)
    | next _ young hexecute apart ih =>
      obtain ⟨now, hreached⟩ := ih
      exact hreached.next backend staking young hexecute apart
    | between _ queue nonces known ih =>
      obtain ⟨now, hreached⟩ := ih
      exact ⟨now, hreached.between queue nonces known⟩
  obtain ⟨now, hreached⟩ := hreached
  refine ⟨hreached.unassigned, fun sender => ?_, now, hreached.range, ?_, hreached.inOrder⟩
  · obtain ⟨k, hpublished, -⟩ := hreached.published sender
    exact ⟨k, hpublished⟩
  · exact fun hnow hpasses => hnow.not_live (hreached.passed hpasses) hpasses.2

end

/-! ## Three transfers -/

/-- The account at 1 with three transfers in the queue, the first one last. -/
def threeTransfers (start : UInt64) : Node :=
  let accounts : Store := (∅ : Store).insert (Key.account 1).bytes (Account.encode { balance := 1000000 })
  { view :=
      { base := (((accounts.insert Key.queue.bytes (QueueRange.encode ⟨start, start + 3⟩)).insert
          (Key.entry start).bytes (Entry.encode (transfer 1))).insert
          (Key.entry (start + 1)).bytes (Entry.encode (transfer 2))).insert
          (Key.entry (start + 2)).bytes (Entry.encode (transfer 0)) } }

def onePerBlock : Pool := { workers := 1, batch := 3, rounds := 1 }

theorem waiting_threeTransfers {start : UInt64} (h : start = 0 ∨ start = reserved - 3) :
    waiting (threeTransfers start).view.contents = [transfer 1, transfer 2, transfer 0] := by
  obtain rfl | rfl := h
  · decide +kernel
  · decide +kernel

theorem threeTransfers_inOrder {start : UInt64} (h : start = 0 ∨ start = reserved - 3) :
    InOrder (threeTransfers start).view.contents ⟨start, start + 3⟩ := by
  have hwaiting := waiting_threeTransfers h
  have hnonces : noncesOf 1 [transfer 1, transfer 2, transfer 0] = [1, 2, 0] := by decide
  have hperm : [1, 2, 0].Perm (List.range' 0 3) := by decide
  obtain ⟨hrange, hlength, haccount, hnonce⟩ :
      rangeIn (threeTransfers start).view.contents = .ok ⟨start, start + 3⟩ ∧
        3 = (start + 3).toNat - start.toNat ∧
        (accountsIn (threeTransfers start).view.contents 1).isSome ∧
        ((accountsIn (threeTransfers start).view.contents).nonce 1).toNat = 0 := by
    obtain rfl | rfl := h
    · decide +kernel
    · decide +kernel
  refine .of_sender 1 3 hrange ?_ ?_ haccount ?_
  · rw [hwaiting]
    exact hlength
  · rw [hwaiting]
    simp [transfer]
  · rw [hwaiting, hnonces, hnonce]
    exact hperm

theorem threeTransfers_young {start : UInt64} (h : start = 0 ∨ start = reserved - 3) :
    ∀ tx ∈ waiting (threeTransfers start).view.contents, tx.isTooOld ({} : Block).number = false := by
  rw [waiting_threeTransfers h]
  decide

theorem threeTransfers_consecutive :
    ∃ e e' n m, onePerBlock.execute stakingRunner {} .inOrder (threeTransfers 0) = .ok e n ∧
      onePerBlock.execute stakingRunner {} .inOrder n = .ok e' m ∧
      noncesOf 1 ((e.results ++ e'.results).map (·.tx)) = [0, 1] ∧
      InOrder m.view.contents ⟨5, 6⟩ := by
  have hends : endsWith (onePerBlock.execute stakingRunner {} .inOrder (threeTransfers 0)) (fun e n =>
      e.results.all (·.contract == none) &&
        (waiting n.view.contents).all (fun tx => tx.isTooOld ({} : Block).number == false) &&
        endsWith (onePerBlock.execute stakingRunner {} .inOrder n) fun e' m =>
          e'.results.all (·.contract == none) &&
            (noncesOf 1 ((e.results ++ e'.results).map (·.tx))).length == 2 &&
            (rangeIn m.view.contents).toOption == some ⟨5, 6⟩) = true := by
    decide +kernel
  obtain ⟨e, n, hfirst, htest⟩ := endsWith_iff.1 hends
  simp only [Bool.and_eq_true, List.all_eq_true, beq_iff_eq] at htest
  obtain ⟨⟨hnone, hyoung⟩, hends'⟩ := htest
  obtain ⟨e', m, hsecond, htest'⟩ := endsWith_iff.1 hends'
  simp only [Bool.and_eq_true, List.all_eq_true, beq_iff_eq] at htest'
  obtain ⟨⟨hnone', hlength⟩, hrange⟩ := htest'
  have hblocks : Blocks stakingRunner (threeTransfers 0) (([] ++ e.results) ++ e'.results) m :=
    .next (.next .start (threeTransfers_young (.inl rfl)) hfirst
      fun result hresult tx _ => by rw [hnone result hresult]; exact nofun)
      hyoung hsecond fun result hresult tx _ => by rw [hnone' result hresult]; exact nofun
  rw [List.nil_append] at hblocks
  obtain ⟨-, hpublished, now, hnow, hin⟩ :=
    blocks_consecutive rfl ContractTable.onlyStaking_insert (threeTransfers_inOrder (.inl rfl)) hblocks
  obtain ⟨k, hnonces⟩ := hpublished 1
  have hbefore : ((accountsIn (threeTransfers 0).view.contents).nonce 1).toNat = 0 := by decide +kernel
  obtain rfl : k = 2 := by rw [← hlength, hnonces, List.length_range']
  rw [hbefore] at hnonces
  rw [hnow] at hrange
  obtain rfl : now = ⟨5, 6⟩ := Option.some.inj hrange
  exact ⟨e, e', n, m, hfirst, hsecond, hnonces, hin.2 (by decide)⟩

/-- The second transaction is sent back to the reserved position. The third one waits behind the gap. -/
theorem threeTransfers_gap :
    InOrder (threeTransfers (reserved - 3)).view.contents ⟨reserved - 3, reserved⟩ ∧
      ∃ e n, Blocks stakingRunner (threeTransfers (reserved - 3)) e.results n ∧
        onePerBlock.execute stakingRunner {} .inOrder (threeTransfers (reserved - 3)) = .ok e n ∧
        ((accountsIn n.view.contents).nonce 1).toNat = 1 ∧ noncesOf 1 (waiting n.view.contents) = [2] ∧
        ∀ now, ¬ InOrder n.view.contents now := by
  have hends : endsWith
      (onePerBlock.execute stakingRunner {} .inOrder (threeTransfers (reserved - 3))) (fun e n =>
        e.results.all (·.contract == none) &&
          ((accountsIn n.view.contents).nonce 1).toNat == 1 &&
          noncesOf 1 (waiting n.view.contents) == [2]) = true := by
    decide +kernel
  obtain ⟨e, n, h, htest⟩ := endsWith_iff.1 hends
  simp only [Bool.and_eq_true, List.all_eq_true, beq_iff_eq] at htest
  obtain ⟨⟨hnone, hnonce⟩, hwaits⟩ := htest
  refine ⟨threeTransfers_inOrder (.inr rfl), e, n, ?_, h, hnonce, hwaits, ?_⟩
  · exact .next .start (threeTransfers_young (.inr rfl)) h
      fun result hresult tx _ => by rw [hnone result hresult]; exact nofun
  · intro now hin
    obtain ⟨count, hrun⟩ := hin.consecutive 1
    rw [hwaits, hnonce] at hrun
    have hmem := hrun.mem_iff.1 List.mem_cons_self
    have hlength := hrun.length_eq
    rw [List.mem_range'_1] at hmem
    rw [List.length_singleton, List.length_range'] at hlength
    omega

end Rounds

end RoundLedger
