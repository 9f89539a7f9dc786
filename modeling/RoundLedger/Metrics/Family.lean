/-!
# Metric families

The names, help texts and buckets under which the ledger reports what it does.
-/

namespace RoundLedger

/-- A decimal number: `digits` with the last `places` of them behind the point. -/
structure Bound where
  digits : Nat
  places : Nat := 0
  deriving DecidableEq, Repr

namespace Bound

def text (b : Bound) : String :=
  if b.places = 0 then b.digits.repr
  else
    let behind := (b.digits % Nat.pow 10 b.places).repr
    (b.digits / Nat.pow 10 b.places).repr ++ "."
      ++ String.ofList (List.replicate (b.places - behind.length) '0') ++ behind

def covers (b : Bound) (n : Nat) : Bool := n * Nat.pow 10 b.places ≤ b.digits

end Bound

inductive MetricKind
  | counter
  | gauge
  | histogram
  deriving DecidableEq, Repr

def MetricKind.name : MetricKind → String
  | counter => "counter"
  | gauge => "gauge"
  | histogram => "histogram"

inductive Metric
  | admitted
  | collected
  | discarded
  | prepareTime
  | queueLength
  | busySlots
  | adhocCalls
  | blockTime
  | blocks
  | conflicts
  | blockGas
  | precompileCalls
  | blockRounds
  | failed
  | succeeded
  | blockTransactions
  | deposits
  | totalStake
  | withdrawals
  deriving DecidableEq, Repr

namespace Metric

def all : List Metric :=
  [admitted, collected, discarded, prepareTime, queueLength, busySlots, adhocCalls, blockTime,
    blocks, conflicts, blockGas, precompileCalls, blockRounds, failed, succeeded,
    blockTransactions, deposits, totalStake, withdrawals]

def name : Metric → String
  | admitted => "parevm_admission_admitted_total"
  | collected => "parevm_admission_collected_total"
  | discarded => "parevm_admission_discarded_total"
  | prepareTime => "parevm_admission_prepare_time_seconds"
  | queueLength => "parevm_admission_standby_queue_length"
  | busySlots => "parevm_execution_adhoc_busy_slots"
  | adhocCalls => "parevm_execution_adhoc_calls_total"
  | blockTime => "parevm_execution_block_time_seconds"
  | blocks => "parevm_execution_blocks_executed_total"
  | conflicts => "parevm_execution_conflict_reappends_total"
  | blockGas => "parevm_execution_gas_per_block"
  | precompileCalls => "parevm_execution_precompile_calls_total"
  | blockRounds => "parevm_execution_rounds_per_block"
  | failed => "parevm_execution_tx_failed_total"
  | succeeded => "parevm_execution_tx_success_total"
  | blockTransactions => "parevm_execution_txs_per_block"
  | deposits => "parevm_staking_deposits_total"
  | totalStake => "parevm_staking_total_stake"
  | withdrawals => "parevm_staking_withdrawals_total"

def help : Metric → String
  | admitted => "Total transactions appended to the standby queue"
  | collected => "Total transactions handed to Prepare"
  | discarded => "Total transactions not admitted"
  | prepareTime => "Time spent in Prepare"
  | queueLength => "Entries waiting in the standby queue"
  | busySlots => "Ad-hoc runner slots currently in use"
  | adhocCalls => "Total read-only calls served by the ad-hoc pool"
  | blockTime => "Time to execute a block"
  | blocks => "Total blocks executed"
  | conflicts => "Standby entries re-appended after a conflict within a round"
  | blockGas => "Gas used per block"
  | precompileCalls => "Total precompile calls"
  | blockRounds => "Execution rounds run per block"
  | failed => "Total committed transactions with a failure status"
  | succeeded => "Total successful transactions"
  | blockTransactions => "Committed transactions per block"
  | deposits => "Total successful stake() calls"
  | totalStake => "Total stake held by the staking contract (in wei)"
  | withdrawals => "Total successful unstake() calls"

def kind : Metric → MetricKind
  | prepareTime | blockTime | blockGas | blockRounds | blockTransactions => .histogram
  | queueLength | busySlots | totalStake => .gauge
  | _ => .counter

def label? : Metric → Option String
  | discarded => some "reason"
  | precompileCalls => some "address"
  | failed => some "status"
  | _ => none

/-- The upper bounds of the buckets of a histogram, ascending. -/
def bounds : Metric → List Bound
  | prepareTime => [⟨5, 4⟩, ⟨1, 3⟩, ⟨5, 3⟩, ⟨1, 2⟩, ⟨25, 3⟩, ⟨5, 2⟩, ⟨1, 1⟩, ⟨25, 2⟩, ⟨5, 1⟩]
  | blockTime => [⟨1, 3⟩, ⟨5, 3⟩, ⟨1, 2⟩, ⟨25, 3⟩, ⟨5, 2⟩, ⟨1, 1⟩, ⟨25, 2⟩, ⟨5, 1⟩, ⟨1, 0⟩]
  | blockTransactions =>
    [⟨1, 0⟩, ⟨10, 0⟩, ⟨50, 0⟩, ⟨100, 0⟩, ⟨250, 0⟩, ⟨500, 0⟩, ⟨1000, 0⟩, ⟨2500, 0⟩, ⟨5000, 0⟩]
  | blockGas => (List.range 11).map fun k => ⟨21000 <<< k, 0⟩
  | blockRounds => [⟨1, 0⟩, ⟨2, 0⟩, ⟨3, 0⟩, ⟨5, 0⟩, ⟨10, 0⟩, ⟨20, 0⟩]
  | _ => []

end Metric

/-- The number of samples in each bucket: those that the bound covers and the bounds before do
not. The last bucket has no bound. -/
def bucketCounts : List Bound → List Nat → List (Option Bound × Nat)
  | [], samples => [(none, samples.length)]
  | b :: rest, samples =>
    (some b, samples.countP b.covers) :: bucketCounts rest (samples.filter fun n => !b.covers n)

end RoundLedger
