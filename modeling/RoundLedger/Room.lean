import RoundLedger.Fault

/-!
# Room

Room for a list is made before the list is filled, and it is made for as many items as are
announced. An announcement of more than can be addressed is a fault, even if the items are not
there.
-/

namespace RoundLedger.Room

/-- The most bytes that one list can take. -/
def most : Nat := 0x7fffffffffffffff

/-- Makes room for `count` items of `size` bytes each. -/
def make (size count : Nat) : Except Fault Unit :=
  if size * count ≤ most then .ok () else .error .roomTooLarge

theorem make_eq_ok_iff (size count : Nat) : make size count = .ok () ↔ size * count ≤ most := by
  unfold make
  split <;> simp [*]

end RoundLedger.Room
