import RoundLedger.Bytes

/-!
# Groups with encoded elements
-/

namespace RoundLedger

/-- A group of prime order with a generator and an encoding of its elements as 33 bytes. -/
structure Group (P : Type) where
  add : P → P → P
  neg : P → P
  mul : Nat → P → P
  generator : P
  order : Nat
  /-- The identity has an encoding too, which cannot be read. -/
  encode : P → Bytes
  decode : Bytes → Option P

end RoundLedger
