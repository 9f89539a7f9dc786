import RoundLedger.Fault
import RoundLedger.Precompile.Call
import Std.Data.ExtTreeMap
import Std.Data.ExtTreeSet

/-!
# The precompile table

Native contracts name their price before they run. A standard precompile only answers under a
gas limit; when it rejects its input, its price is found as the least limit at which it does
not run out of gas.
-/

namespace RoundLedger

inductive StandardResult
  | returned (gasUsed : UInt64) (output : Bytes)
  | outOfGas
  | rejected
  /-- Stops the ledger. -/
  | stopped (fault : Fault)
  deriving DecidableEq

def StandardResult.isOutOfGas : StandardResult → Bool
  | outOfGas => true
  | _ => false

/-- Takes the input and the gas limit. -/
abbrev StandardPrecompile := Bytes → UInt64 → StandardResult

structure NativeContract where
  requiredGas : Bytes → UInt64
  run : Bytes → Except ExecutionError Bytes

structure PrecompileTable where
  standard : Std.ExtTreeMap Address StandardPrecompile compare := ∅
  /-- Consulted before the standard ones. -/
  natives : Std.ExtTreeMap Address NativeContract compare := ∅

/-- The least limit in `low..high` at which `outOfGas` is false, if it is false from some limit
on and at `high`. Halves the range until one limit is left. -/
def leastLimit (outOfGas : Nat → Bool) (low high : Nat) : Nat :=
  if low < high then
    let middle := low + (high - low) / 2
    if outOfGas middle then leastLimit outOfGas (middle + 1) high else leastLimit outOfGas low middle
  else low
termination_by high - low

namespace PrecompileTable

def withNative (t : PrecompileTable) (address : Address) (contract : NativeContract) :
    PrecompileTable :=
  { t with natives := t.natives.insert address contract }

def contains (t : PrecompileTable) (address : Address) : Bool :=
  t.natives.contains address || t.standard.contains address

/-- All addresses, ascending. -/
def addresses (t : PrecompileTable) : List Address :=
  (Std.ExtTreeSet.ofList (t.standard.keys ++ t.natives.keys) compare).toList

def callStandard (run : StandardPrecompile) (input : Bytes) (gasLeft : UInt64) :
    Except Fault PrecompileCall :=
  match run input gasLeft with
  | .returned gasUsed output => .ok (.returned (gasLeft.subFloor gasUsed) (.truncating output))
  | .outOfGas => .ok .outOfGas
  | .rejected =>
    let price := leastLimit (fun limit => (run input (UInt64.ofNat limit)).isOutOfGas) 0 gasLeft.toNat
    .ok (.failed (gasLeft - UInt64.ofNat price))
  | .stopped fault => .error fault

def call (t : PrecompileTable) (address : Address) (input : Bytes) (gasLeft : UInt64) :
    Except Fault (Option PrecompileCall) :=
  match t.natives[address]? with
  | some native => .ok (some (.charge (native.requiredGas input) gasLeft fun _ => native.run input))
  | none =>
    match t.standard[address]? with
    | some run => some <$> callStandard run input gasLeft
    | none => .ok none

end PrecompileTable

end RoundLedger
