import RoundLedger.Backend.Transfer
import RoundLedger.Proofs.Reach
import RoundLedger.Proofs.Rounds

/-!
# Blocks are serial

A block publishes what running the published transactions one after another gives, and leaves the
same state. All entries of a round run on the state at its start, but what is committed read and
wrote none of the keys written before it in the round.
-/

namespace RoundLedger

open Step Program

/-! ## Contents with the same state -/

/-- Contents that differ in records of the queue only. -/
def Contents.SameState (f g : Contents) : Prop := ∀ key, ¬ Key.IsQueue key → f key = g key

namespace Contents.SameState

variable {f g h : Contents}

theorem refl (f : Contents) : f.SameState f := fun _ _ => rfl

theorem symm (hfg : f.SameState g) : g.SameState f := fun key hkey => (hfg key hkey).symm

theorem trans (hfg : f.SameState g) (hgh : g.SameState h) : f.SameState h :=
  fun key hkey => (hfg key hkey).trans (hgh key hkey)

theorem atop (hfg : f.SameState g) (o : Overlay) : (o.atop f).SameState (o.atop g) := by
  intro key hkey
  rw [Overlay.atop, Overlay.atop, hfg key hkey]

end Contents.SameState

theorem Queue.Popped.sameState {f f' : Contents} {range : QueueRange} {entries : List QueueEntry}
    (h : Popped f range entries f') : f'.SameState f := by
  intro key hkey
  obtain ⟨hqueue, hentry⟩ := Key.not_isQueue.1 hkey
  exact h.others key hqueue fun entry _ => hentry entry.position

theorem Queue.Appended.sameState {f f' : Contents} {range : QueueRange} {txs : List Transaction}
    (h : Appended f range txs f') : f'.SameState f := by
  intro key hkey
  obtain ⟨hqueue, hentry⟩ := Key.not_isQueue.1 hkey
  exact h.others key hqueue fun position _ => hentry position

theorem Rounds.SentBack.sameState {p : Progress} {f f' : Contents} (h : SentBack p f f') :
    f'.SameState f := by
  obtain ⟨-, rfl⟩ | ⟨-, range, happend⟩ := h
  · exact .refl _
  · obtain ⟨_, happended, -⟩ := Queue.append_ok happend
    exact happended.sameState

/-- A transaction does not tell apart contents with the same state. -/
theorem Runner.trial_sameState {r : Runner} (avoids : r.contracts.Avoids Key.IsQueue)
    {hashes : BlockHashes} {block : Block} {tx : Transaction} {f g : Contents}
    {out : CommittedResult × List Conversation} {o : Overlay}
    (h : r.trial hashes block tx f = .ok out o) (same : f.SameState g) :
    r.trial hashes block tx g = .ok out o := by
  refine trial_of_agree h fun key hread => same key fun hkey => ?_
  exact (trial_avoids (fun k hk => Key.not_isQueue_of_isState hk) avoids h hkey).1 hread

/-! ## Hooks that only look -/

/-- Nothing is written when the contract is told of a commit. -/
def SystemContract.Quiet (c : SystemContract) : Prop :=
  ∀ result f event f', (c.committed result).eval f = .ok event f' → f' = f

def ContractTable.Quiet (t : ContractTable) : Prop :=
  ∀ (address : Address) (contract : SystemContract), t[address]? = some contract → contract.Quiet

theorem Runner.Notified.quiet {r : Runner} (quiet : r.contracts.Quiet) {result : CommittedResult}
    {f f' : Contents} (h : r.Notified result f f') : f' = f := by
  obtain rfl | ⟨contract, event, hcontract, heval⟩ := h
  · rfl
  · cases hdestination : result.tx.destination with
    | none =>
      rw [hdestination] at hcontract
      cases hcontract
    | some address =>
      rw [hdestination] at hcontract
      exact quiet address contract hcontract result f event f' heval

theorem Staking.readWord_ok {slot : Digest} {word : Word} {f f' : Contents}
    (h : (readWord slot).eval f = .ok word f') : f' = f := by
  obtain ⟨value, _, ⟨⟩, hread⟩ := eval_bind_ok.1 h
  dsimp only at hread
  split at hread
  · exact (eval_pure_ok.1 hread).2.symm
  · exact absurd hread eval_fail_ok

theorem Staking.contract_quiet : contract.Quiet := by
  intro result f event f' h
  change (committed result).eval f = _ at h
  unfold committed at h
  split at h
  · exact (eval_pure_ok.1 h).2.symm
  · obtain ⟨sum, g, hsum, hevent⟩ := eval_bind_ok.1 h
    obtain rfl := readWord_ok hsum
    split at hevent
    · exact (eval_pure_ok.1 hevent).2.symm
    · exact (eval_pure_ok.1 hevent).2.symm
    · exact (eval_pure_ok.1 hevent).2.symm

/-! ## The staking contract alone -/

/-- No contract but that for staking is registered. -/
def ContractTable.OnlyStaking (t : ContractTable) : Prop :=
  ∀ (address : Address) (contract : SystemContract), t[address]? = some contract →
    address = Staking.address ∧ contract = Staking.contract

namespace ContractTable.OnlyStaking

variable {t : ContractTable} (h : t.OnlyStaking)

include h

theorem avoids : t.Avoids Key.IsQueue := by
  intro address contract hcontract
  obtain ⟨-, rfl⟩ := h address contract hcontract
  exact Staking.contract_avoids fun k hk => Key.not_isQueue_of_isState hk

theorem quiet : t.Quiet := by
  intro address contract hcontract
  obtain ⟨-, rfl⟩ := h address contract hcontract
  exact Staking.contract_quiet

theorem at? {destination : Option Address} {contract : SystemContract}
    (hcontract : t.at? destination = some contract) : contract = Staking.contract := by
  cases destination with
  | none => cases hcontract
  | some address => exact (h address contract hcontract).2

end ContractTable.OnlyStaking

theorem ContractTable.onlyStaking_insert :
    ContractTable.OnlyStaking ((∅ : ContractTable).insert Staking.address Staking.contract) := by
  intro address contract hcontract
  rw [Std.ExtTreeMap.getElem?_insert] at hcontract
  split at hcontract
  next hsame =>
    cases hcontract
    exact ⟨(Std.LawfulEqCmp.compare_eq_iff_eq.1 hsame).symm, rfl⟩
  next => simp at hcontract

namespace Rounds

/-! ## Serial runs -/

/-- Runs transactions one after another. The writes of each are in place when the next one runs. -/
def runSerially (r : Runner) (block : Block) : List Transaction → Session (List CommittedResult)
  | [] => return []
  | tx :: rest => do
    let (result, overlay) ← r.runTransaction block tx
    modify fun n => { n with view := n.view.apply overlay }
    let results ← runSerially r block rest
    return result :: results

inductive Serial (r : Runner) (hashes : BlockHashes) (block : Block) (f : Contents) :
    List CommittedResult → Contents → Prop
  | start : Serial r hashes block f [] f
  | next {results g tx result c o} : Serial r hashes block f results g →
      r.trial hashes block tx g = .ok (result, c) o →
      Serial r hashes block f (results ++ [result]) (o.atop g)

variable {r : Runner} {hashes : BlockHashes} {block : Block}

theorem runSerially_snoc {txs : List Transaction} {tx : Transaction} {n m l : Node}
    {results : List CommittedResult} {result : CommittedResult} {o : Overlay}
    (h : runSerially r block txs n = .ok results m)
    (hrun : r.runTransaction block tx m = .ok (result, o) l) :
    runSerially r block (txs ++ [tx]) n
      = .ok (results ++ [result]) { l with view := l.view.apply o } := by
  induction txs generalizing n results with
  | nil =>
    obtain ⟨rfl, rfl⟩ := pure_ok.1 h
    exact bind_ok.2 ⟨_, _, hrun, rfl⟩
  | cons first rest ih =>
    rw [runSerially] at h
    obtain ⟨⟨result', o'⟩, n', hfirst, happly⟩ := bind_ok.1 h
    obtain ⟨_, n'', hmodify, hbehind⟩ := bind_ok.1 happly
    obtain ⟨results', _, hrest, hdone⟩ := bind_ok.1 hbehind
    obtain ⟨rfl, rfl⟩ := pure_ok.1 hdone
    refine bind_ok.2 ⟨_, _, hfirst, bind_ok.2 ⟨_, _, hmodify, bind_ok.2 ⟨_, _, ih hrest, rfl⟩⟩⟩

theorem Serial.exists_runSerially {n : Node} {results : List CommittedResult} {g : Contents}
    (h : Serial r n.hashes block n.view.contents results g) :
    ∃ m, runSerially r block (results.map (·.tx)) n = .ok results m ∧ m.view.contents = g ∧
      ∀ number, m.hashes.lookUp number = n.hashes.lookUp number := by
  induction h with
  | start => exact ⟨n, rfl, rfl, fun _ => rfl⟩
  | @next results g tx result c o _ htrial ih =>
    obtain ⟨m, hserial, rfl, hhashes⟩ := ih
    have htx := Runner.trial_tx htrial
    dsimp only at htx
    rw [Runner.trial_congr fun number => (hhashes number).symm] at htrial
    obtain ⟨l, hrun⟩ := Runner.exists_runTransaction htrial
    obtain ⟨-, halike⟩ := Runner.runTransaction_ok hrun
    refine ⟨{ l with view := l.view.apply o }, ?_, ?_,
      fun number => (halike.hashes number).trans (hhashes number)⟩
    · rw [List.map_append, List.map_singleton, htx]
      exact runSerially_snoc hserial hrun
    · rw [View.contents_applied, halike.contents]

/-! ## Blocks -/

section

variable (avoids : r.contracts.Avoids Key.IsQueue) (quiet : r.contracts.Quiet)

include avoids quiet

/-- What a round commits goes on with a serial run. Keys not written in the round hold what they
held at its start, so a committed entry has read what a serial run reads. -/
theorem Settled.serial {gate : NonceGate} {f₀ f g : Contents} {entries : List QueueEntry}
    {p : Progress} (h : Settled r hashes block gate f entries p g) {results : List CommittedResult}
    {s : Contents} (hserial : Serial r hashes block f₀ results s) (same : s.SameState f) :
    (∀ key, key ∉ p.written → g key = f key) ∧
      ∃ s', Serial r hashes block f₀ (results ++ p.published.map (·.result)) s' ∧ s'.SameState g := by
  induction h with
  | start => exact ⟨fun _ _ => rfl, s, by simpa using hserial, same⟩
  | held _ _ ih => exact ih
  | conflict _ _ _ _ ih => exact ih
  | @commit done p g g' entry result c o _ _ htrial hconflict hnotified ih =>
    obtain ⟨hkeep, s', hserial', hsame⟩ := ih
    obtain ⟨hreads, -⟩ := Overlay.not_conflictsWith.1 hconflict
    obtain rfl := hnotified.quiet quiet
    have hnow : r.trial hashes block entry.tx g = .ok (result, c) o :=
      Runner.trial_of_agree htrial fun key hread => (hkeep key (hreads key hread)).symm
    have hthen := Runner.trial_sameState avoids hnow hsame.symm
    refine ⟨?_, o.atop s', ?_, hsame.atop o⟩
    · intro key hkey
      change key ∉ o.writes.foldl _ p.written at hkey
      rw [Overlay.mem_foldl_insert, not_or] at hkey
      rw [Overlay.atop_of_notMem hkey.2, hkeep key hkey.1]
    · have hnext := Serial.next hserial' hthen
      simpa [Progress.commit] using hnext

theorem Runs.serial {batch : UInt64} {gate gate' : NonceGate} {f g : Contents} {e : BlockExecution}
    (h : Runs r hashes block batch gate f e gate' g) :
    ∃ s, Serial r hashes block f e.results s ∧ s.SameState g := by
  induction h with
  | start => exact ⟨f, .start, .refl f⟩
  | round _ hpop _ hsettled hsent ih =>
    obtain ⟨s, hserial, hsame⟩ := ih
    obtain ⟨_, hpopped, -⟩ := Queue.popFront_ok hpop
    obtain ⟨-, s', hserial', hsame'⟩ :=
      hsettled.serial avoids quiet hserial (hsame.trans hpopped.sameState.symm)
    refine ⟨s', ?_, hsame'.trans hsent.sameState.symm⟩
    simpa [BlockExecution.results, addRound] using hserial'
  | idle _ hpop ih =>
    obtain ⟨s, hserial, hsame⟩ := ih
    obtain ⟨_, hpopped, -⟩ := Queue.popFront_ok hpop
    exact ⟨s, hserial, hsame.trans hpopped.sameState.symm⟩

/-- Running the published transactions one after another on the node as it was before the block gives
the same results, and the same records but for those of the queue. -/
theorem execute_serializable {pool : Pool} {dealer : Dealer} {n n' : Node} {e : BlockExecution}
    (h : pool.execute r block dealer n = .ok e n') :
    ∃ m, runSerially r block (e.results.map (·.tx)) n = .ok e.results m ∧
      ∀ key, ¬ Key.IsQueue key → m.view.contents key = n'.view.contents key := by
  obtain ⟨_, _, _, -, -, -, hruns, -⟩ := execute_runs h
  obtain ⟨s, hserial, hsame⟩ := hruns.serial avoids quiet
  obtain ⟨m, hrun, rfl, -⟩ := hserial.exists_runSerially
  exact ⟨m, hrun, hsame⟩

end

def transfer (nonce : UInt64) : Transaction :=
  { sender := 1, destination := some 2, nonce, value := 100, gasPrice := 1, gasLimit := 100000,
    data := [], height := 0 }

/-- The account at 1 with two transfers in the queue. -/
def twoTransfers (start : UInt64) : Node :=
  let accounts : Store := (∅ : Store).insert (Key.account 1).bytes (Account.encode { balance := 1000000 })
  { view :=
      { base := ((accounts.insert Key.queue.bytes (QueueRange.encode ⟨start, start + 2⟩)).insert
          (Key.entry start).bytes (Entry.encode (transfer 0))).insert
          (Key.entry (start + 1)).bytes (Entry.encode (transfer 1)) } }

def stakingRunner : Runner :=
  { backend := Transfer.backend
    contracts := (∅ : ContractTable).insert Staking.address Staking.contract }

def smallPool : Pool := { workers := 1, batch := 2, rounds := 3 }

theorem twoTransfers_serializable :
    ∃ e n' m, smallPool.execute stakingRunner {} .inOrder (twoTransfers 0) = .ok e n' ∧
      e.results.length = 2 ∧
      runSerially stakingRunner {} (e.results.map (·.tx)) (twoTransfers 0) = .ok e.results m ∧
      ∀ key, ¬ Key.IsQueue key → m.view.contents key = n'.view.contents key := by
  have hends : endsWith (smallPool.execute stakingRunner {} .inOrder (twoTransfers 0))
      (fun e _ => e.results.length == 2) = true := by decide +kernel
  obtain ⟨e, n', h, hlength⟩ := endsWith_iff.1 hends
  have hstaking : stakingRunner.contracts.OnlyStaking := ContractTable.onlyStaking_insert
  obtain ⟨m, hserial, hsame⟩ := execute_serializable hstaking.avoids hstaking.quiet h
  exact ⟨e, n', m, h, beq_iff_eq.1 hlength, hserial, hsame⟩

end Rounds

end RoundLedger
