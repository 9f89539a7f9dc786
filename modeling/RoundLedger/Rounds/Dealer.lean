/-!
# Dealers

A dealer chooses the order in which the work of a round is handed out. It may carry a state
from round to round, and never adds, drops or repeats work.
-/

namespace RoundLedger

structure Dealer where
  State : Type
  start : State
  deal : {α : Type} → State → List α → List α × State
  deal_perm : ∀ {α : Type} (s : State) (work : List α), (deal s work).1.Perm work

/-- Hands out the work as it comes. -/
def Dealer.inOrder : Dealer where
  State := Unit
  start := ()
  deal := fun s work => (work, s)
  deal_perm := fun _ work => List.Perm.refl work

end RoundLedger
