import RoundLedger.Curve.Modular
import RoundLedger.Precompile.Hashing
import RoundLedger.Room

/-!
# The modular power precompile

The input is three lengths of 32 bytes each, then base, exponent and modulus in as many bytes.
The price follows EIP-198: it grows with the longer of base and modulus, and with the number
of bits of the exponent.
-/

namespace RoundLedger.StandardPrecompile

/-- The price of one multiplication of numbers of this many bytes. -/
def multiplicationCost (length : Nat) : Nat :=
  if length ≤ 64 then length * length
  else if length ≤ 1024 then length * length / 4 + 96 * length - 3072
  else length * length / 16 + 480 * length - 199680

/-- The number of squarings: one less than the bits of the exponent, told from its length and
its first 32 bytes. At least one. -/
def squarings (length head : Nat) : Nat :=
  let headBits := if head = 0 then 0 else head.log2
  max 1 (min (UInt64.size - 1) (min (UInt64.size - 1) (8 * (length - 32)) + headBits))

/-- The price, up to the largest 64-bit count. -/
def powerModPrice (baseLength exponentLength modulusLength head : Nat) : UInt64 :=
  let price := multiplicationCost (max baseLength modulusLength) * squarings exponentLength head / 20
  UInt64.ofNat (min (UInt64.size - 1) price)

/-- A power modulo a number, in as many bytes as the modulus. Everything is zero modulo zero. -/
def powerModOutput (base exponent modulus : Bytes) : Bytes :=
  let m := BigEndian.decode modulus
  let power := if m = 0 then 0
    else Modular.powBytes m (Modular.residue m base) exponent
  BigEndian.encode modulus.length power

/-- Lengths of base and modulus from 2^64 on are rejected before the price is asked for; a
longer exponent counts as one of the largest 64-bit length. Room for all three is made once the
price is paid. -/
def powerMod : StandardPrecompile := fun input limit =>
  let length (i : Nat) := BigEndian.decode (input.window (32 * i) 32)
  let baseLength := length 0
  let modulusLength := length 2
  if UInt64.size ≤ baseLength ∨ UInt64.size ≤ modulusLength then .rejected
  else if baseLength = 0 ∧ modulusLength = 0 then .returned 0 []
  else
    let exponentLength := min (UInt64.size - 1) (length 1)
    let body : Bytes := input.drop 96
    let head := BigEndian.decode ((body.window baseLength 32).take (min exponentLength 32))
    let price := powerModPrice baseLength exponentLength modulusLength head
    match Room.make 1 (baseLength + exponentLength + modulusLength) with
    | .error fault => if limit < price then .outOfGas else .stopped fault
    | .ok () =>
      priced price limit fun _ =>
        if modulusLength = 0 then some []
        else some <| powerModOutput (body.window 0 baseLength) (body.window baseLength exponentLength)
          (body.window (baseLength + exponentLength) modulusLength)

end RoundLedger.StandardPrecompile
