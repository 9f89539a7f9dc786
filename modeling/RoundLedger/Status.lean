/-!
# Status codes

The outcome of a transaction. Codes below 1024 are reported by a backend; the others are
assigned to transactions that never reach one.
-/

namespace RoundLedger

inductive Status
  | success
  | failure
  | revert
  | outOfGas
  | invalidInstruction
  | undefinedInstruction
  | stackOverflow
  | stackUnderflow
  | badJumpDestination
  | invalidMemoryAccess
  | callDepthExceeded
  | staticModeViolation
  | precompileFailure
  | contractValidationFailure
  | argumentOutOfRange
  | insufficientBalance
  | internalError
  | rejected
  | outOfMemory
  | tooOld
  | failedToCommit
  | accountNotExist
  | nonceTooSmall
  | nonceTooLarge
  deriving DecidableEq, Repr

namespace Status

def all : List Status :=
  [success, failure, revert, outOfGas, invalidInstruction, undefinedInstruction, stackOverflow,
    stackUnderflow, badJumpDestination, invalidMemoryAccess, callDepthExceeded,
    staticModeViolation, precompileFailure, contractValidationFailure, argumentOutOfRange,
    insufficientBalance, internalError, rejected, outOfMemory, tooOld, failedToCommit,
    accountNotExist, nonceTooSmall, nonceTooLarge]

def code : Status → Int
  | success => 0
  | failure => 1
  | revert => 2
  | outOfGas => 3
  | invalidInstruction => 4
  | undefinedInstruction => 5
  | stackOverflow => 6
  | stackUnderflow => 7
  | badJumpDestination => 8
  | invalidMemoryAccess => 9
  | callDepthExceeded => 10
  | staticModeViolation => 11
  | precompileFailure => 12
  | contractValidationFailure => 13
  | argumentOutOfRange => 14
  | insufficientBalance => 17
  | internalError => -1
  | rejected => -2
  | outOfMemory => -3
  | tooOld => 1024
  | failedToCommit => 1025
  | accountNotExist => 1026
  | nonceTooSmall => 1027
  | nonceTooLarge => 1029

def ofCode? (code : Int) : Option Status := all.find? (·.code = code)

def name : Status → String
  | success => "success"
  | failure => "failure"
  | revert => "revert"
  | outOfGas => "out-of-gas"
  | invalidInstruction => "invalid-instruction"
  | undefinedInstruction => "undefined-instruction"
  | stackOverflow => "stack-overflow"
  | stackUnderflow => "stack-underflow"
  | badJumpDestination => "bad-jump-destination"
  | invalidMemoryAccess => "invalid-memory-access"
  | callDepthExceeded => "call-depth-exceeded"
  | staticModeViolation => "static-mode-violation"
  | precompileFailure => "precompile-failure"
  | contractValidationFailure => "contract-validation-failure"
  | argumentOutOfRange => "argument-out-of-range"
  | insufficientBalance => "insufficient-balance"
  | internalError => "internal-error"
  | rejected => "rejected"
  | outOfMemory => "out-of-memory"
  | tooOld => "too-old-and-ignored"
  | failedToCommit => "failed-to-commit"
  | accountNotExist => "account-not-exist"
  | nonceTooSmall => "nonce-too-small"
  | nonceTooLarge => "nonce-too-large"

def ofName? (name : String) : Option Status := all.find? (·.name = name)

def nameOfCode (code : Int) : String := (ofCode? code).elim "unknown" name

def isSuccess (s : Status) : Bool := s = success

/-- Whether the status was assigned without running the transaction. -/
def isEngineAssigned (s : Status) : Bool := tooOld.code ≤ s.code

theorem mem_all (s : Status) : s ∈ all := by cases s <;> decide

@[simp] theorem ofCode?_code (s : Status) : ofCode? s.code = some s := by cases s <;> rfl

end Status

/-- Order by code. -/
instance : Ord Status := ⟨fun s t => compare s.code t.code⟩

instance : Std.TransOrd Status where
  eq_swap := Std.OrientedOrd.eq_swap (α := Int)
  isLE_trans := Std.TransOrd.isLE_trans (α := Int)

instance : Std.LawfulEqOrd Status where
  eq_of_compare {s t} h := by
    have h : s.code = t.code := Std.LawfulEqOrd.eq_of_compare (α := Int) h
    simpa using congrArg Status.ofCode? h

end RoundLedger
