import RoundLedger.Metrics

/-!
# Changes of meters

What was added between two states of the meters. Counts that did not move and levels that are
zero are left out.
-/

namespace RoundLedger

inductive Change
  | count (n : Nat)
  | labelled (label : String) (n : Nat)
  /-- Not the change of a level, but its value. -/
  | level (n : Nat)
  | samples (n : Nat)
  /-- How many new samples fall into a bucket. The last one has no bound. -/
  | bucket (bound : Option Bound) (n : Nat)
  deriving DecidableEq, Repr

namespace Change

def amount : Change → Nat
  | count n | labelled _ n | level n | samples n | bucket _ n => n

/-- The changes of one family, from an earlier reading to a later one. -/
def between (bounds : List Bound) : Reading → Reading → List Change
  | .count a, .count b => [count (b - a)]
  | .labelled as, .labelled bs => bs.map fun (label, n) => labelled label (n - (as.lookup label).getD 0)
  | .level _, .level b => [level b]
  | .samples as, .samples bs =>
    -- New samples stand in front.
    let new := bs.take (bs.length - as.length)
    samples new.length :: (bucketCounts bounds new).map fun (bound, n) => bucket bound n
  | .times a, .times b => [samples (b - a)]
  | _, _ => []

end Change

def Meters.changes (later earlier : Meters) (family : Metric) : List Change :=
  (Change.between family.bounds (earlier.reading family) (later.reading family)).filter (·.amount ≠ 0)

end RoundLedger
