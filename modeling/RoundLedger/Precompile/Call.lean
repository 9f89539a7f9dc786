import RoundLedger.Error
import RoundLedger.Word

/-!
# Calls to precompiles

The caller of a precompile gets the first 256 bytes of its output, and is told how long the
output was.
-/

namespace RoundLedger

/-! ## Bounded output -/

/-- At most `capacity` bytes of an output. -/
structure BoundedOutput (capacity : Nat) where
  kept : Bytes
  fullLength : Nat
  length_kept : kept.length = min fullLength capacity
  deriving DecidableEq

namespace BoundedOutput

variable {capacity : Nat}

def empty : BoundedOutput capacity := ⟨[], 0, by simp⟩

def truncating (output : Bytes) : BoundedOutput capacity :=
  ⟨output.take capacity, output.length, by simp [Nat.min_comm]⟩

def isTruncated (o : BoundedOutput capacity) : Bool := o.kept.length < o.fullLength

end BoundedOutput

/-! ## Outcomes -/

inductive PrecompileCall
  /-- The gas does not cover the price. Nothing is left. -/
  | outOfGas
  | failed (gasLeft : UInt64)
  | returned (gasLeft : UInt64) (output : BoundedOutput 256)
  deriving DecidableEq

namespace PrecompileCall

def isOutOfGas : PrecompileCall → Bool
  | outOfGas => true
  | _ => false

def isSuccess : PrecompileCall → Bool
  | returned .. => true
  | _ => false

def gasLeft : PrecompileCall → UInt64
  | outOfGas => 0
  | failed gasLeft => gasLeft
  | returned gasLeft _ => gasLeft

def output : PrecompileCall → BoundedOutput 256
  | returned _ output => output
  | _ => .empty

def ofResult (gasLeft : UInt64) : Except ExecutionError Bytes → PrecompileCall
  | .ok output => returned gasLeft (.truncating output)
  | .error _ => failed gasLeft

def charge (required gas : UInt64) (run : Unit → Except ExecutionError Bytes) : PrecompileCall :=
  if gas < required then outOfGas else ofResult (gas - required) (run ())

end PrecompileCall

end RoundLedger
