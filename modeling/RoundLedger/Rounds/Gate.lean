import RoundLedger.Queue
import Std.Data.ExtTreeMap
import Std.Data.ExtTreeSet

/-!
# The nonce gate

Of each sender only the lowest queued nonce may run, so that no transaction overtakes an
earlier one that is still waiting.
-/

namespace RoundLedger

abbrev NonceGate := Std.ExtTreeMap Address (Std.ExtTreeSet UInt64 compare) compare

namespace NonceGate

def enter (g : NonceGate) (tx : Transaction) : NonceGate :=
  g.insert tx.sender ((g.getD tx.sender ∅).insert tx.nonce)

def ofEntries (entries : List QueueEntry) : NonceGate :=
  entries.foldl (fun g entry => g.enter entry.tx) ∅

def lowest? (g : NonceGate) (sender : Address) : Option UInt64 :=
  g[sender]?.bind fun nonces => nonces.toList.head?

/-- Whether a transaction may run now. One that has expired always may. -/
def mayRun (g : NonceGate) (height : UInt64) (tx : Transaction) : Bool :=
  tx.isTooOld height ||
    match g.lowest? tx.sender with
    | some lowest => tx.nonce ≤ lowest
    | none => true

def settle (g : NonceGate) (tx : Transaction) : NonceGate :=
  match g[tx.sender]? with
  | none => g
  | some nonces =>
    let rest := nonces.erase tx.nonce
    if rest.isEmpty then g.erase tx.sender else g.insert tx.sender rest

end NonceGate

end RoundLedger
