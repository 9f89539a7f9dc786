import RoundLedger.Address

/-!
# Faults

A fault stops the ledger: a stored record is corrupt, a count has run out, or a caller has
broken its word. What a transaction can do wrong is a `Status`, not a fault.
-/

namespace RoundLedger

inductive Fault
  | sumTooLarge
  | differenceNegative
  /-- More slots were asked for than their free list can number. -/
  | slotsTooMany
  /-- Room was asked for more than can be addressed. -/
  | roomTooLarge
  | accountLength
  | codeLength
  | codeVersion
  | counterLength
  | queueRangeLength
  | entryMissing (position : UInt64)
  | entryCorrupt (position : UInt64)
  | storedWordTooLong
  | sequenceChanged (address : Address) (before after : UInt64)
  | stakeUncovered
  | addressNotOwned (address : Address)
  deriving DecidableEq, Repr

def Fault.message : Fault → String
  | sumTooLarge => "attempt to add with overflow"
  | differenceNegative => "attempt to subtract with overflow"
  | slotsTooMany => "bounded channel capacity is too large"
  | roomTooLarge => "capacity overflow"
  | accountLength => "invalid length for account record"
  | codeLength => "invalid length for bytecode record"
  | codeVersion => "unknown bytecode record version"
  | counterLength => "invalid length for creation counter"
  | queueRangeLength => "invalid length for standby queue pointers"
  | entryMissing position => s!"missing standby entry at position {position}"
  | entryCorrupt position => s!"corrupt standby entry at position {position}"
  | storedWordTooLong => "Value too large for Uint"
  | sequenceChanged address before after =>
    s!"sequence of {address.text} changed from {before} to {after}"
  | stakeUncovered => "staking contract balance below recorded stake"
  | addressNotOwned address => s!"system contract does not own address {address.text}"

end RoundLedger
