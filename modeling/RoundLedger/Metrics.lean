import RoundLedger.Admission
import RoundLedger.Contract
import RoundLedger.Metrics.Family

/-!
# Meters

What the ledger has counted so far.
-/

namespace RoundLedger

/-- A count for each label. -/
abbrev Tally (α : Type) [Ord α] := Std.ExtTreeMap α Nat compare

namespace Tally

variable {α : Type} [Ord α] [Std.TransOrd α]

def count (t : Tally α) (label : α) : Nat := t.getD label 0

def add (t : Tally α) (label : α) (n : Nat) : Tally α :=
  if n = 0 then t else t.insert label (t.count label + n)

def bump (t : Tally α) (label : α) : Tally α := t.add label 1

end Tally

/-- Discards are counted under the labels of their reasons. -/
structure Meters where
  collected : Nat := 0
  admitted : Nat := 0
  discarded : Tally String := ∅
  queueLength : UInt64 := 0
  preparations : Nat := 0
  blocks : Nat := 0
  /-- One sample a block. -/
  blockTransactions : List Nat := []
  blockGas : List Nat := []
  blockRounds : List Nat := []
  conflicts : Nat := 0
  succeeded : Nat := 0
  failed : Tally Status := ∅
  adhocCalls : Nat := 0
  busySlots : Nat := 0
  precompileCalls : Tally Address := ∅
  deposits : Nat := 0
  withdrawals : Nat := 0
  totalStake : Nat := 0

inductive Reading
  | count (n : Nat)
  | labelled (counts : List (String × Nat))
  | level (n : Nat)
  | samples (values : List Nat)
  /-- The number of times taken; the times themselves are not known here. -/
  | times (n : Nat)

namespace Meters

def discard (m : Meters) (reason : DiscardReason) (n : Nat) : Meters :=
  { m with discarded := m.discarded.add reason.label n }

def admission (m : Meters) (a : Admission) : Meters :=
  DiscardReason.all.foldl (fun m reason => m.discard reason (a.count reason)) m

def outcome (m : Meters) (status : Status) : Meters :=
  if status.isSuccess then { m with succeeded := m.succeeded + 1 }
  else { m with failed := m.failed.bump status }

/-- Counts a change of stake. The total is shown up to 128 bits. -/
def stake (m : Meters) : StakeEvent → Meters
  | .deposited total =>
    { m with deposits := m.deposits + 1, totalStake := min total.toNat 0xffffffffffffffffffffffffffffffff }
  | .withdrawn total =>
    { m with withdrawals := m.withdrawals + 1, totalStake := min total.toNat 0xffffffffffffffffffffffffffffffff }

def reading (m : Meters) : Metric → Reading
  | .admitted => .count m.admitted
  | .collected => .count m.collected
  | .discarded => .labelled m.discarded.toList
  | .prepareTime => .times m.preparations
  | .queueLength => .level m.queueLength.toNat
  | .busySlots => .level m.busySlots
  | .adhocCalls => .count m.adhocCalls
  | .blockTime => .times m.blocks
  | .blocks => .count m.blocks
  | .conflicts => .count m.conflicts
  | .blockGas => .samples m.blockGas
  | .precompileCalls => .labelled (m.precompileCalls.toList.map fun (a, n) => (a.text, n))
  | .blockRounds => .samples m.blockRounds
  | .failed => .labelled (m.failed.toList.map fun (s, n) => (s.name, n))
  | .succeeded => .count m.succeeded
  | .blockTransactions => .samples m.blockTransactions
  | .deposits => .count m.deposits
  | .totalStake => .level m.totalStake
  | .withdrawals => .count m.withdrawals

end Meters

end RoundLedger
