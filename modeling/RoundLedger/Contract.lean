import RoundLedger.Result
import RoundLedger.State

/-!
# System contracts

A system contract runs whole transactions sent to its address in place of the backend. Nested
calls reach it like a precompile.
-/

namespace RoundLedger

/-- What a system contract reports for a transaction. The gas used is final. -/
structure SystemOutcome where
  status : Status
  gasUsed : UInt64
  output : Bytes := []
  logs : List Log := []
  deriving DecidableEq, Repr

inductive StakeEvent
  | deposited (total : Word)
  | withdrawn (total : Word)
  deriving DecidableEq, Repr

structure SystemContract where
  owns : Address → Bool
  init : Program Unit
  /-- Runs a transaction. The nonce has been used and the gas paid in advance; moving the value
  is up to the contract. -/
  execute : Block → Transaction → Program SystemOutcome
  requiredGas : Bytes → UInt64
  run : Bytes → Program (Except ExecutionError Bytes)
  /-- Told of a transaction to the contract once its writes are in the store. -/
  committed : CommittedResult → Program (Option StakeEvent) := fun _ => pure none

abbrev ContractTable := Std.ExtTreeMap Address SystemContract compare

namespace ContractTable

def register (t : ContractTable) (address : Address) (contract : SystemContract) :
    Program ContractTable := do
  if contract.owns address then
    contract.init
    return t.insert address contract
  else Program.fail (.addressNotOwned address)

def at? (t : ContractTable) (destination : Option Address) : Option SystemContract :=
  destination.bind fun address => t[address]?

def callAsPrecompile (t : ContractTable) (address : Address) (input : Bytes) (gasLeft : UInt64) :
    Program (Option PrecompileCall) := do
  match t[address]? with
  | none => return none
  | some contract =>
    let required := contract.requiredGas input
    if gasLeft < required then return some .outOfGas
    else return some (.ofResult (gasLeft - required) (← contract.run input))

end ContractTable

end RoundLedger
