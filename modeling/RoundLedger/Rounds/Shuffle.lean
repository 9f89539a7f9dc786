import RoundLedger.Random.Generator
import RoundLedger.Rounds.Dealer

/-!
# The shuffling dealer

Hands out the work of every round in a random order that is fixed by a seed. From the back to
the front, each place swaps its item with one drawn from the places up to it.
-/

namespace RoundLedger.Shuffle

/-- The number of draws after which a swap is given up. At least every second draw is fair. -/
def tries : Nat := 1024

/-- Settles the places from `last` down to the second. -/
def settle {α : Type} : Nat → Generator → Array α → Array α × Generator
  | 0, g, work => (work, g)
  | last + 1, g, work =>
    let (other, g) := g.below (last + 2) tries
    settle last g (work.swapIfInBounds (last + 1) other)

def shuffle {α : Type} (g : Generator) (work : List α) : List α × Generator :=
  let (work, g) := settle (work.length - 1) g work.toArray
  (work.toList, g)

theorem swapIfInBounds_perm {α : Type} (work : Array α) (i j : Nat) :
    (work.swapIfInBounds i j).Perm work := by
  unfold Array.swapIfInBounds
  split
  · split
    · exact Array.swap_perm ..
    · exact .refl _
  · exact .refl _

theorem settle_perm {α : Type} (last : Nat) (g : Generator) (work : Array α) :
    (settle last g work).1.Perm work := by
  induction last generalizing g work with
  | zero => exact .refl _
  | succ last ih => exact (ih ..).trans (swapIfInBounds_perm ..)

theorem shuffle_perm {α : Type} (g : Generator) (work : List α) : (shuffle g work).1.Perm work :=
  (settle_perm (work.length - 1) g work.toArray).toList

end RoundLedger.Shuffle

namespace RoundLedger

def Dealer.shuffling (seed : UInt64) : Dealer where
  State := Generator
  start := .ofSeed seed
  deal := Shuffle.shuffle
  deal_perm := Shuffle.shuffle_perm

end RoundLedger
