import RoundLedger.Gas
import RoundLedger.Node
import RoundLedger.Precompile.Table

/-!
# The runner

Runs one transaction or one read-only call against a view of the state: checks the nonce, hands
the call to the system contract or the backend, writes the changes and settles the gas.
-/

namespace RoundLedger

structure Runner where
  backend : Backend
  precompiles : PrecompileTable := {}
  contracts : ContractTable := ∅
  policy : GasPolicy := {}
  revision : Revision := 9

structure CallResult where
  status : Status
  gasUsed : UInt64
  output : Bytes
  logs : List Log
  created : Option Address
  gasEstimate : UInt64
  deriving DecidableEq, Repr

namespace Runner

open Program

/-! ## The host -/

def answer (r : Runner) (hashes : BlockHashes) : (q : Query) → Program q.Answer
  | .counter first => State.counter first
  | .account address => State.account address
  | .code address => State.code address
  | .storage sequence slot => State.storage sequence slot
  | .blockHash number => pure (hashes.lookUp number)
  | .precompile address input gasLeft => do
    match ← ofExcept (r.precompiles.call address input gasLeft) with
    | some call => return some call
    | none => r.contracts.callAsPrecompile address input gasLeft

/-- Answers all questions of a backend and keeps the exchanges. -/
def serve {α : Type} (r : Runner) (hashes : BlockHashes) :
    HostProgram α → Program (α × List Exchange)
  | .done a => pure (a, [])
  | .fail fault => fail fault
  | .ask q next => do
    let a ← r.answer hashes q
    let (result, exchanges) ← serve r hashes (next a)
    return (result, ⟨q, a⟩ :: exchanges)

def callBackend (r : Runner) (hashes : BlockHashes) (request : CallRequest) :
    Program (CallOutcome × Conversation) := do
  let (outcome, exchanges) ← serve r hashes (r.backend request)
  return (outcome, ⟨request, exchanges⟩)

/-! ## Changes -/

def changeAccount (address : Address) : Option Account → Program Unit
  | none => State.deleteAccount address
  | some account => do
    match ← State.account address with
    | some previous =>
      if previous.hasSequence && previous.sequence != account.sequence then
        fail (.sequenceChanged address previous.sequence account.sequence)
      else State.setAccount address account
    | none => State.setAccount address account

def changeCode (address : Address) : Option Code → Program Unit
  | none => State.deleteCode address
  | some code => State.setCode address code

def applyChanges (changes : ChangeSet) : Program Unit := do
  changes.accounts.forM fun (address, account) => changeAccount address account
  changes.counters.forM fun (first, count) => State.setCounter first count
  changes.codes.forM fun (address, code) => changeCode address code
  changes.storage.forM fun (sequence, slot, value) => State.setStorage sequence slot (value.getD [])

def creditUnused (tx : Transaction) (gasUsed : UInt64) : Program Word := do
  let refund := (BitVec.ofNat 256 (tx.gasLimit.subFloor gasUsed).toNat).mulCapped tx.gasPrice
  if refund = 0 then return refund
  let sender := (← State.account tx.sender).getD {}
  State.setAccount tx.sender { sender with balance := sender.balance.addCapped refund }
  return refund

/-! ## Transactions -/

def requestOf (r : Runner) (block : Block) (tx : Transaction) : CallRequest :=
  { sender := tx.sender, destination := tx.destination, nonce := tx.nonce, value := tx.value,
    gasPrice := tx.gasPrice, gasLimit := tx.gasLimit, input := tx.data, block,
    revision := r.revision, estimate := false }

def runOnContract (contract : SystemContract) (block : Block) (tx : Transaction) :
    Program CommittedResult := do
  let outcome ← contract.execute block tx
  let gasUsed := min outcome.gasUsed tx.gasLimit
  let feeRefund ← creditUnused tx gasUsed
  return { tx, hash := tx.hash, status := outcome.status, gasUsed, feeRefund, logs := outcome.logs,
           output := outcome.output }

def runOnBackend (r : Runner) (hashes : BlockHashes) (block : Block) (tx : Transaction) :
    Program (CommittedResult × Conversation) := do
  let (outcome, conversation) ← r.callBackend hashes (r.requestOf block tx)
  let changes := outcome.changes.getD {}
  applyChanges changes
  let gasUsed := r.policy.settle tx.gasLimit outcome.gasLeft changes.refund
  let feeRefund ← creditUnused tx gasUsed
  return ({ tx, hash := tx.hash, status := outcome.status, gasUsed, feeRefund, logs := changes.logs,
            calls := changes.calls, returns := changes.returns, output := outcome.output,
            contract := outcome.created }, conversation)

def execute (r : Runner) (hashes : BlockHashes) (block : Block) (tx : Transaction) :
    Program (CommittedResult × List Conversation) := do
  match ← State.checkNonce tx.sender tx.nonce with
  | .error mismatch => return (.terminal tx mismatch.status, [])
  | .ok sender =>
    let nonce ← orFail .sumTooLarge (sender.nonce.add? 1)
    State.setAccount tx.sender { sender with nonce }
    match r.contracts.at? tx.destination with
    | some contract => return (← runOnContract contract block tx, [])
    | none =>
      let (result, conversation) ← r.runOnBackend hashes block tx
      return (result, [conversation])

/-- Runs a transaction of a block on an overlay of its own, and answers the overlay. -/
def runTransaction (r : Runner) (block : Block) (tx : Transaction) :
    Session (CommittedResult × Overlay) := do
  if tx.isTooOld block.number then return (.terminal tx .tooOld, {})
  let node ← get
  Session.openOverlay
  let (result, conversations) ← Session.access (r.execute node.hashes block tx)
  let overlay ← Session.takeOverlay
  conversations.forM (Session.hear r.precompiles.contains)
  return (result, overlay)

def notifyCommitted (r : Runner) (result : CommittedResult) : Session Unit := do
  match r.contracts.at? result.tx.destination with
  | none => return ()
  | some contract =>
    match ← Session.access (contract.committed result) with
    | none => return ()
    | some event => Session.meter (·.stake event)

/-! ## Read-only calls -/

/-- The transaction that a request stands for. -/
def transactionOf (request : CallRequest) : Transaction :=
  { sender := request.sender, destination := request.destination, nonce := request.nonce,
    value := request.value, gasPrice := request.gasPrice, gasLimit := request.gasLimit,
    data := request.input, height := request.block.number }

/-- Answers a request without settling any fee. -/
def simulate (r : Runner) (hashes : BlockHashes) (request : CallRequest) :
    Program (CallResult × List Conversation) := do
  match r.contracts.at? request.destination with
  | some contract =>
    let outcome ← contract.execute request.block (transactionOf request)
    let gasUsed := min outcome.gasUsed request.gasLimit
    return ({ status := outcome.status, gasUsed, output := outcome.output, logs := outcome.logs,
              created := none, gasEstimate := if request.estimate then gasUsed else 0 }, [])
  | none =>
    let (outcome, conversation) ← r.callBackend hashes request
    let changes := outcome.changes.getD {}
    return ({ status := outcome.status,
              gasUsed := r.policy.settle request.gasLimit outcome.gasLeft changes.refund,
              output := outcome.output, logs := changes.logs, created := outcome.created,
              gasEstimate := outcome.gasEstimate }, [conversation])

def runCall (r : Runner) (request : CallRequest) : Session CallResult := do
  let node ← get
  Session.openOverlay
  let (result, conversations) ← Session.access (r.simulate node.hashes request)
  let _ ← Session.takeOverlay
  conversations.forM (Session.hear r.precompiles.contains)
  return result

end Runner

end RoundLedger
