import RoundLedger.Config
import RoundLedger.Rounds
import RoundLedger.Slots

/-!
# The engine

Collects transactions, admits them into the standby queue, runs the queue block by block and
keeps the results of the last block. Read-only calls go through the slots at any time.
-/

namespace RoundLedger

structure Engine where
  config : EngineConfig := {}
  runner : Runner
  desk : Desk := {}
  /-- Waiting for the next admission. -/
  collected : List Transaction := []
  /-- The seed of the last admission. -/
  reorderSeed : UInt64 := 0
  lastHeight : UInt64 := 0
  committed : List CommittedResult := []

namespace Engine

def collectedRoom : Nat := 168

/-- An engine over a store, unless the configuration cannot be used. -/
def start (config : EngineConfig) (store : Store) (backend : Backend) (precompiles : PrecompileTable) :
    Except Fault (Except ExecutionError Engine) :=
  match config.validate with
  | .error cause => return .error (.config cause)
  | .ok () => do
    let desk ← Desk.start { view := { base := store } } config.slots
    Room.make collectedRoom config.collectedCapacity.toNat
    return .ok { config, runner := { backend, precompiles, policy := config.policy }, desk }

def pool (e : Engine) : Pool :=
  { workers := e.config.workers, batch := e.config.batch, rounds := e.config.rounds }

/-! ## Steps -/

abbrev Session := EStateM Fault Engine

def onDesk {α : Type} (step : Desk.Session α) : Session α :=
  zoom Engine.desk (fun e desk => { e with desk }) step

def onNode {α : Type} (step : RoundLedger.Session α) : Session α := onDesk (Desk.onNode step)

def access {α : Type} (p : Program α) : Session α := onNode (Session.access p)

def meter (f : Meters → Meters) : Session Unit := onNode (Session.meter f)

def collect (tx : Transaction) : Session Unit :=
  modify fun e => { e with collected := e.collected ++ [tx] }

def takeCollected : Session (List Transaction) := fun e =>
  .ok e.collected { e with collected := [] }

/-- Admits the collected transactions into the queue, and answers the senders that were charged.
Transactions behind a missing nonce stay collected until they expire. -/
def prepare (reorderSeed : UInt64) (minGasPrice : Word) (maxGasLimit : UInt64) :
    Session (List Address) := do
  let collected ← takeCollected
  meter fun m => { m with collected := m.collected + collected.length }
  let admission ← access (Admission.select collected minGasPrice maxGasLimit)
  meter (·.admission admission)
  let range ← access (Queue.append admission.admitted)
  let height := (← get).lastHeight
  let (expired, kept) := admission.deferred.partition (·.isTooOld height)
  meter (·.discard .expired expired.length)
  modify fun e => { e with collected := kept, reorderSeed }
  meter fun m => { m with admitted := m.admitted + admission.admitted.length }
  let queueLength ← access (Program.ofExcept range.size)
  meter fun m => { m with queueLength, preparations := m.preparations + 1 }
  return admission.touched

def creditCoinbase (coinbase : Address) (fees : Word) : Program Unit := do
  if fees = 0 then return ()
  let account := (← State.account coinbase).getD {}
  State.setAccount coinbase { account with balance := account.balance.addCapped fees }

def recordBlockHash (number : UInt64) (hash : Digest) : Session Unit :=
  onNode (modify fun n => { n with hashes := n.hashes.insert number hash })

/-- Runs the queue for a block. The dealer is made from the seed of the last admission. -/
def execute (dealer : UInt64 → Dealer) (block : Block) : Session Unit := do
  let e ← get
  let execution ← onNode (e.pool.execute e.runner block (dealer e.reorderSeed))
  let results := execution.results
  let totals := GasTotals.ofResults results
  access (creditCoinbase block.coinbase totals.fee)
  recordBlockHash block.number block.hash
  modify fun e => { e with lastHeight := block.number }
  meter fun m => results.foldl (fun m result => m.outcome result.status) m
  let queueLength ← access Queue.size
  meter fun m =>
    { m with
      blocks := m.blocks + 1
      blockTransactions := results.length :: m.blockTransactions
      blockGas := totals.used.toNat :: m.blockGas
      queueLength }
  modify fun e => { e with committed := results }

/-- Registers a system contract. The slots are made anew. -/
def register (address : Address) (contract : SystemContract) : Session Unit := do
  let e ← get
  let contracts ← access (e.runner.contracts.register address contract)
  modify fun e =>
    { e with
      runner := { e.runner with contracts }
      desk := { e.desk with slots := Slots.ofSize e.config.slots.toNat } }

/-- Runs a read-only call under a block. There is no answer when no slot is free. -/
def call (request : CallRequest) (block : Block) (estimate : Bool) :
    Session (Option CallResult) := do
  let e ← get
  let request := { request with block, estimate, revision := e.runner.revision }
  onDesk (Desk.call e.runner request)

/-! ## Views -/

/-- Every account with a record, by ascending address. An empty record stands for a new account, as
it does wherever an account is credited. -/
def accounts : Session (List (Address × Account)) := do
  let addresses := (← get).desk.node.view.base.keys.filterMap Key.accountOf?
  access (addresses.mapM fun address => return (address, (← State.account address).getD {}))

def results (e : Engine) : List CommittedResult := e.committed

def resultHashes (e : Engine) : List Digest := e.committed.map (·.hash)

def gasTotals (e : Engine) : GasTotals := GasTotals.ofResults e.committed

end Engine

end RoundLedger
