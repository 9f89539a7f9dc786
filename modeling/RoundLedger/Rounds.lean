import RoundLedger.Rounds.Dealer
import RoundLedger.Rounds.Gate
import RoundLedger.Runner

/-!
# Rounds

A block runs the standby queue in rounds. A round takes entries off the front and runs those
the gate lets through, each on an overlay of its own over the same state. The overlays are then
applied in queue order. An entry that touched a key written earlier in the round saw stale
state: it is dropped and its transaction goes back to the end of the queue.
-/

namespace RoundLedger

structure Pool where
  /-- The number of threads; results do not depend on it. -/
  workers : UInt64
  /-- The most entries taken in one round. -/
  batch : UInt64
  /-- The most rounds in one block. -/
  rounds : UInt64
  deriving DecidableEq, Repr

structure Published where
  position : UInt64
  result : CommittedResult

structure BlockExecution where
  published : List Published := []
  rounds : Nat := 0
  reappended : Nat := 0
  expired : Nat := 0

def BlockExecution.results (e : BlockExecution) : List CommittedResult :=
  e.published.map Published.result

namespace Rounds

/-! ## One round -/

structure Progress where
  gate : NonceGate
  /-- The keys written so far in the round. -/
  written : KeySet := ∅
  published : List Published := []
  retry : List Transaction := []
  conflicts : Nat := 0
  expired : Nat := 0

namespace Progress

def putOff (p : Progress) (tx : Transaction) : Progress := { p with retry := p.retry ++ [tx] }

def commit (p : Progress) (position : UInt64) (result : CommittedResult) (overlay : Overlay) :
    Progress :=
  { p with
    gate := p.gate.settle result.tx
    written := overlay.writes.foldl (fun keys key _ => keys.insert key) p.written
    published := p.published ++ [⟨position, result⟩]
    expired := if result.status = .tooOld then p.expired + 1 else p.expired }

end Progress

/-- What the entries that ran came to, by position. -/
abbrev Outputs := List (UInt64 × CommittedResult × Overlay)

/-- Runs entries in the order given, each on the state as it was before the round. -/
def runAll (r : Runner) (block : Block) : List QueueEntry → Session Outputs
  | [] => return []
  | entry :: rest => do
    let output ← r.runTransaction block entry.tx
    let outputs ← runAll r block rest
    return (entry.position, output) :: outputs

def applyEntry (r : Runner) (outputs : Outputs) (p : Progress) (entry : QueueEntry) :
    Session Progress := do
  match outputs.lookup entry.position with
  | none => return p.putOff entry.tx
  | some (result, overlay) =>
    if overlay.conflictsWith p.written then
      return { p.putOff entry.tx with conflicts := p.conflicts + 1 }
    modify fun n => { n with view := n.view.apply overlay }
    r.notifyCommitted result
    return p.commit entry.position result overlay

def runRound (r : Runner) (block : Block) (dealer : Dealer) (s : dealer.State) (gate : NonceGate)
    (entries : List QueueEntry) : Session (Progress × dealer.State) := do
  let (order, s) := dealer.deal s (entries.filter fun entry => gate.mayRun block.number entry.tx)
  let outputs ← runAll r block order
  let p ← entries.foldlM (applyEntry r outputs) { gate }
  return (p, s)

/-! ## All rounds -/

def sendBack (p : Progress) : Session Unit := do
  if p.retry ≠ [] then
    Session.meter fun m => { m with conflicts := m.conflicts + p.conflicts }
    let _ ← Session.access (Queue.append p.retry)

def addRound (e : BlockExecution) (p : Progress) : BlockExecution :=
  { published := e.published ++ p.published
    rounds := e.rounds + 1
    reappended := e.reappended + p.retry.length
    expired := e.expired + p.expired }

/-- At most `count` further rounds, until the queue is empty. -/
def runRounds (r : Runner) (batch : UInt64) (block : Block) (dealer : Dealer) :
    Nat → dealer.State → NonceGate → BlockExecution → Session BlockExecution
  | 0, _, _, e => return e
  | count + 1, s, gate, e => do
    let entries ← Session.access (Queue.popFront batch)
    if entries = [] then return e
    let (p, s) ← runRound r block dealer s gate entries
    sendBack p
    runRounds r batch block dealer count s p.gate (addRound e p)

end Rounds

/-- Runs the standby queue for a block. Entries left after the last round stay queued. -/
def Pool.execute (pool : Pool) (r : Runner) (block : Block) (dealer : Dealer) :
    Session BlockExecution := do
  let entries ← Session.access do
    let range ← Queue.range
    Queue.load range
  let gate := NonceGate.ofEntries entries
  let e ← Rounds.runRounds r pool.batch block dealer pool.rounds.toNat dealer.start gate {}
  Session.meter fun m => { m with blockRounds := e.rounds :: m.blockRounds }
  return e

end RoundLedger
