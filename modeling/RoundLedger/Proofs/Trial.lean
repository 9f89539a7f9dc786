import RoundLedger.Proofs.Footprint
import RoundLedger.Proofs.Keys
import RoundLedger.Runner

/-!
# Runs of one transaction

A transaction of a block runs on an overlay of its own. What it comes to is a function of the
contents below and of the hashes of recent blocks, its trial, and the node is left as it was, save
for what was asked of it. Transactions keep to the records that the state and the system contracts
keep to.
-/

namespace RoundLedger

open Step Program

structure Node.Alike (n m : Node) : Prop where
  contents : n.view.contents = m.view.contents
  hashes : ∀ number, n.hashes.lookUp number = m.hashes.lookUp number

theorem Node.Alike.refl (n : Node) : n.Alike n := ⟨rfl, fun _ => rfl⟩

theorem Node.Alike.trans {n m l : Node} (h : n.Alike m) (h' : m.Alike l) : n.Alike l :=
  ⟨h.contents.trans h'.contents, fun number => (h.hashes number).trans (h'.hashes number)⟩

theorem BlockHashes.lookUp_foldl_touch (h : BlockHashes) (asked : List UInt64) (number : UInt64) :
    (asked.foldl touch h).lookUp number = h.lookUp number := by
  induction asked generalizing h with
  | nil => rfl
  | cons first rest ih => rw [List.foldl_cons, ih, lookUp_touch]

theorem Session.alike_of_hear {isPrecompile : Address → Bool} {conversations : List Conversation}
    {n m : Node} {a : PUnit}
    (h : conversations.forM (Session.hear isPrecompile) n = .ok a m) : m.Alike n := by
  induction conversations generalizing n with
  | nil =>
    obtain ⟨-, rfl⟩ := pure_ok.1 h
    exact .refl n
  | cons c rest ih =>
    obtain ⟨_, l, hhear, hrest⟩ := bind_ok.1 h
    obtain rfl := modify_ok.1 hhear
    exact (ih hrest).trans ⟨rfl, BlockHashes.lookUp_foldl_touch n.hashes _⟩

theorem Session.exists_hear (isPrecompile : Address → Bool) (conversations : List Conversation)
    (n : Node) : ∃ m, conversations.forM (Session.hear isPrecompile) n = .ok ⟨⟩ m := by
  induction conversations generalizing n with
  | nil => exact ⟨n, rfl⟩
  | cons c rest ih => exact ih _

namespace Runner

/-! ## Trials -/

section Hashes

variable {h h' : BlockHashes} (same : ∀ number, h.lookUp number = h'.lookUp number)

include same

theorem answer_congr (r : Runner) (q : Query) : r.answer h q = r.answer h' q := by
  cases q with
  | blockHash number => simp only [answer, same]
  | _ => rfl

theorem serve_congr {α : Type} (r : Runner) (p : HostProgram α) : r.serve h p = r.serve h' p := by
  induction p with
  | done a => rfl
  | fail fault => rfl
  | ask q next ih => simp only [serve, answer_congr same, ih]

theorem execute_congr (r : Runner) (block : Block) (tx : Transaction) :
    r.execute h block tx = r.execute h' block tx := by
  simp only [execute, runOnBackend, callBackend, serve_congr same]

end Hashes

/-- What a transaction comes to on given contents, and the overlay it leaves. -/
def trial (r : Runner) (hashes : BlockHashes) (block : Block) (tx : Transaction) (f : Contents) :
    EStateM.Result Fault Overlay (CommittedResult × List Conversation) :=
  if tx.isTooOld block.number then .ok (.terminal tx .tooOld, []) {}
  else (r.execute hashes block tx).above f {}

theorem trial_congr {h h' : BlockHashes} (same : ∀ number, h.lookUp number = h'.lookUp number)
    (r : Runner) (block : Block) (tx : Transaction) (f : Contents) :
    r.trial h block tx f = r.trial h' block tx f := by
  simp only [trial, execute_congr same]

/-- A trial depends on the contents only at the keys it notes as read. -/
theorem trial_of_agree {r : Runner} {h : BlockHashes} {block : Block} {tx : Transaction}
    {f g : Contents} {out : CommittedResult × List Conversation} {o : Overlay}
    (htrial : r.trial h block tx f = .ok out o) (agree : ∀ key ∈ o.reads, f key = g key) :
    r.trial h block tx g = .ok out o := by
  unfold trial at htrial ⊢
  split at htrial
  · rw [if_pos ‹_›]
    exact htrial
  · rw [if_neg ‹_›]
    exact above_congr htrial agree

/-- Running a transaction of a block answers its trial on the state of the node. -/
theorem runTransaction_ok {r : Runner} {block : Block} {tx : Transaction} {n m : Node}
    {result : CommittedResult} {o : Overlay}
    (h : r.runTransaction block tx n = .ok (result, o) m) :
    (∃ conversations, r.trial n.hashes block tx n.view.contents = .ok (result, conversations) o) ∧
      m.Alike n := by
  unfold runTransaction at h
  split at h
  next htooOld =>
    obtain ⟨hout, rfl⟩ := pure_ok.1 h
    cases hout
    exact ⟨⟨[], if_pos htooOld⟩, .refl n⟩
  next htooOld =>
    obtain ⟨_, _, hget, h⟩ := bind_ok.1 h
    obtain ⟨rfl, rfl⟩ := get_ok.1 hget
    obtain ⟨_, opened, hopen, h⟩ := bind_ok.1 h
    obtain rfl := modify_ok.1 hopen
    obtain ⟨⟨result', conversations⟩, l, haccess, h⟩ := bind_ok.1 h
    obtain ⟨v, hrun, rfl⟩ := access_ok.1 haccess
    obtain ⟨o', l', htake, h⟩ := bind_ok.1 h
    obtain ⟨_, m', hhear, h⟩ := bind_ok.1 h
    obtain ⟨hout, rfl⟩ := pure_ok.1 h
    cases hout
    obtain ⟨outer, hsame, heq⟩ := run_opened (r.execute n.hashes block tx) n.view
    change Program.run _ n.view.opened = _ at hrun
    rw [heq] at hrun
    cases habove : (r.execute n.hashes block tx).above n.view.contents {} with
    | error fault o =>
      rw [habove] at hrun
      cases hrun
    | ok out o =>
      rw [habove] at hrun
      cases hrun
      cases htake
      refine ⟨⟨conversations, (if_neg htooOld).trans habove⟩, ?_⟩
      exact (Session.alike_of_hear hhear).trans ⟨hsame, fun _ => rfl⟩

/-- A transaction whose trial ends well can be run. -/
theorem exists_runTransaction {r : Runner} {block : Block} {tx : Transaction} {n : Node}
    {result : CommittedResult} {conversations : List Conversation} {o : Overlay}
    (h : r.trial n.hashes block tx n.view.contents = .ok (result, conversations) o) :
    ∃ m, r.runTransaction block tx n = .ok (result, o) m := by
  unfold trial at h
  unfold runTransaction
  split at h
  · rw [if_pos ‹_›]
    cases h
    exact ⟨n, rfl⟩
  · rw [if_neg ‹_›]
    obtain ⟨outer, -, heq⟩ := run_opened (r.execute n.hashes block tx) n.view
    rw [h] at heq
    obtain ⟨m, hhear⟩ := Session.exists_hear r.precompiles.contains conversations
      { n with view := ⟨n.view.base, outer⟩ }
    refine ⟨m, bind_ok.2 ⟨n, n, rfl, bind_ok.2 ⟨⟨⟩, _, rfl, bind_ok.2 ⟨(result, conversations), _,
      access_ok.2 ⟨_, heq, rfl⟩, bind_ok.2 ⟨o, _, rfl, bind_ok.2 ⟨⟨⟩, m, hhear, rfl⟩⟩⟩⟩⟩⟩

/-! ## Results -/

theorem execute_tx {r : Runner} {hashes : BlockHashes} {block : Block} {tx : Transaction}
    {f f' : Contents} {out : CommittedResult × List Conversation}
    (h : (r.execute hashes block tx).eval f = .ok out f') : out.1.tx = tx := by
  obtain ⟨checked, _, -, h⟩ := eval_bind_ok.1 h
  cases checked with
  | error mismatch =>
    obtain ⟨rfl, -⟩ := eval_pure_ok.1 h
    rfl
  | ok sender =>
    obtain ⟨_, _, -, h⟩ := eval_bind_ok.1 h
    obtain ⟨_, _, -, h⟩ := eval_bind_ok.1 h
    cases hcontract : r.contracts.at? tx.destination with
    | some contract =>
      simp only [hcontract] at h
      obtain ⟨result, _, hrun, h⟩ := eval_bind_ok.1 h
      obtain ⟨_, _, -, hrun⟩ := eval_bind_ok.1 hrun
      obtain ⟨_, _, -, hrun⟩ := eval_bind_ok.1 hrun
      obtain ⟨rfl, -⟩ := eval_pure_ok.1 hrun
      obtain ⟨rfl, -⟩ := eval_pure_ok.1 h
      rfl
    | none =>
      simp only [hcontract] at h
      obtain ⟨_, _, hrun, h⟩ := eval_bind_ok.1 h
      obtain ⟨_, _, -, hrun⟩ := eval_bind_ok.1 hrun
      obtain ⟨_, _, -, hrun⟩ := eval_bind_ok.1 hrun
      obtain ⟨_, _, -, hrun⟩ := eval_bind_ok.1 hrun
      obtain ⟨rfl, -⟩ := eval_pure_ok.1 hrun
      obtain ⟨rfl, -⟩ := eval_pure_ok.1 h
      rfl

/-- The result of a trial is that of its transaction. -/
theorem trial_tx {r : Runner} {hashes : BlockHashes} {block : Block} {tx : Transaction}
    {f : Contents} {out : CommittedResult × List Conversation} {o : Overlay}
    (h : r.trial hashes block tx f = .ok out o) : out.1.tx = tx := by
  unfold trial at h
  split at h
  · cases h
    rfl
  · exact execute_tx (eval_of_above h)

/-! ## Commit hooks -/

/-- What the hook of the contract that ran a transaction makes of the contents. -/
def Notified (r : Runner) (result : CommittedResult) (f f' : Contents) : Prop :=
  f' = f ∨ ∃ contract event, r.contracts.at? result.tx.destination = some contract ∧
    (contract.committed result).eval f = .ok event f'

theorem notifyCommitted_ok {r : Runner} {result : CommittedResult} {n m : Node} {a : Unit}
    (h : r.notifyCommitted result n = .ok a m) :
    m.hashes = n.hashes ∧ r.Notified result n.view.contents m.view.contents := by
  unfold notifyCommitted at h
  cases hcontract : r.contracts.at? result.tx.destination with
  | none =>
    simp only [hcontract] at h
    obtain ⟨-, rfl⟩ := pure_ok.1 h
    exact ⟨rfl, .inl rfl⟩
  | some contract =>
    simp only [hcontract] at h
    obtain ⟨event, l, haccess, hmeter⟩ := bind_ok.1 h
    obtain ⟨v, hrun, rfl⟩ := access_ok.1 haccess
    have hhook : r.Notified result n.view.contents v.contents :=
      .inr ⟨contract, event, hcontract, eval_of_run hrun⟩
    cases event with
    | none =>
      obtain ⟨-, rfl⟩ := pure_ok.1 hmeter
      exact ⟨rfl, hhook⟩
    | some event =>
      rw [meter_ok.1 hmeter]
      exact ⟨rfl, hhook⟩

end Runner

end RoundLedger
