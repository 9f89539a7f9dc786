import RoundLedger.Word

/-!
# Gas settlement

Turns the gas a call left over into the gas charged for it. The refund a call earned is capped
at half of the gas used.
-/

namespace RoundLedger

structure GasPolicy where
  /-- Raises a very small use towards the limit. -/
  smoothing : Bool := false
  deriving DecidableEq, Repr

namespace Gas

/-- Less than a quarter of the limit counts as all of it, less than half as the middle between
use and limit. -/
def smooth (limit used : UInt64) : UInt64 :=
  if used.mulCapped 4 < limit then limit
  else if used.mulCapped 2 < limit then UInt64.ofNat ((limit.toNat + used.toNat) / 2)
  else used

/-- Takes the refund off the gas used, but no more than half of it. -/
def applyRefund (used refund : UInt64) : UInt64 :=
  let half := used / 2 + used % 2
  if used < refund.addCapped half then half else used - refund

end Gas

/-- The gas charged for a call that left `left` of its limit and earned a refund. -/
def GasPolicy.settle (policy : GasPolicy) (limit left refund : UInt64) : UInt64 :=
  let used := limit.subFloor left
  Gas.applyRefund (if policy.smoothing then Gas.smooth limit used else used) refund

end RoundLedger
