import RoundLedger.Backend

/-!
# The transfer backend

Moves value, calls precompiles and system contracts through the host, and stores init code as
it stands. It runs no code: a call to a contract moves value only.
-/

namespace RoundLedger.Transfer

open HostProgram

/-! ## Prices -/

/-- The price of a transaction before it does anything. -/
def intrinsicGas? (input : Bytes) (isCreate : Bool) : Option UInt64 := do
  let zeros := (input.filter (· = 0)).length
  let others := input.length - zeros
  let data ← (← (UInt64.ofNat others).mul? 16).add? (← (UInt64.ofNat zeros).mul? 4)
  data.add? (if isCreate then 53000 else 21000)

/-- The storage namespace of the `count`-th contract created at addresses that start with
`first`. -/
def mintSequence (count : UInt64) (first : UInt8) : UInt64 := count <<< 8 ||| first.toUInt64

def estimate (request : CallRequest) (gasLeft : UInt64) : UInt64 :=
  if request.estimate then request.gasLimit - gasLeft else 0

/-! ## Changes -/

def debit (request : CallRequest) : HostProgram (Address × Option Account) := do
  let sender := (← query (.account request.sender)).getD {}
  return (request.sender, some { sender with balance := sender.balance - request.value })

def message (request : CallRequest) (kind : CallKind) (destination : Address) : InternalCall :=
  { kind, isStatic := false, depth := 0, gas := request.gasLimit, destination,
    sender := request.sender, input := request.input, value := request.value }

/-! ## Calls -/

/-- Creates a contract. Nothing may be deployed at its address yet. -/
def create (request : CallRequest) (gasLeft : UInt64) : HostProgram CallOutcome := do
  let address := Address.created request.sender request.nonce
  if (← query (.code address)).isSome then
    return { status := .failure, gasLeft := 0 }
  let first := address.firstByte
  match (← query (.counter first)).add? 1 with
  | none => fail .sumTooLarge
  | some count =>
    let existing := (← query (.account address)).getD {}
    let contract : Account :=
      { balance := existing.balance + request.value, nonce := 1, sequence := mintSequence count first }
    let payer ← debit request
    let changes : ChangeSet :=
      { accounts := [payer, (address, some contract)]
        counters := [(first, count)]
        codes := [(address, some (Code.ofBody request.input))]
        calls := [message request .create address]
        returns := [⟨.success, gasLeft, [], some address⟩] }
    return { status := .success, gasLeft, created := some address, changes := some changes,
             gasEstimate := estimate request gasLeft }

def transfer (request : CallRequest) (destination : Address) :
    HostProgram (List (Address × Option Account)) := do
  let payer ← debit request
  let receiver := (← query (.account destination)).getD {}
  return [payer, (destination, some { receiver with balance := receiver.balance + request.value })]

/-- Completes a call to an address with the gas and the output its precompile left. -/
def finish (request : CallRequest) (destination : Address) (gasLeft : UInt64) (output : Bytes) :
    HostProgram CallOutcome := do
  let accounts ← if destination = request.sender then pure [] else transfer request destination
  let changes : ChangeSet :=
    { accounts
      calls := [message request .call destination]
      returns := [⟨.success, gasLeft, output, none⟩] }
  return { status := .success, gasLeft, output, changes := some changes,
           gasEstimate := estimate request gasLeft }

/-- Calls an address, through the precompile there if there is one. -/
def callAddress (request : CallRequest) (destination : Address) (gasLeft : UInt64) :
    HostProgram CallOutcome := do
  match ← query (.precompile destination request.input gasLeft) with
  | none => finish request destination gasLeft []
  | some .outOfGas => return { status := .outOfGas, gasLeft := 0 }
  | some (.failed _) => return { status := .precompileFailure, gasLeft := 0 }
  | some (.returned gasLeft output) => finish request destination gasLeft output.kept

def backend : Backend := fun request => do
  match intrinsicGas? request.input request.destination.isNone with
  | none => return { status := .outOfGas, gasLeft := 0 }
  | some intrinsic =>
    if request.gasLimit < intrinsic then
      return { status := .outOfGas, gasLeft := 0 }
    let gasLeft := request.gasLimit - intrinsic
    let balance := (← query (.account request.sender)).elim 0 Account.balance
    if balance < request.value then
      return { status := .insufficientBalance, gasLeft }
    match request.destination with
    | none => create request gasLeft
    | some destination => callAddress request destination gasLeft

end RoundLedger.Transfer
