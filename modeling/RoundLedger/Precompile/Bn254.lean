import RoundLedger.Curve.Bn254.Pairing
import RoundLedger.Precompile.Hashing

/-!
# The precompiles on the curve BN254

Addition, multiplication and the check of a product of pairings. A missing end of the input of
the first two counts as zeros.
-/

namespace RoundLedger.StandardPrecompile

def curveAdd : StandardPrecompile := fun input limit =>
  priced 150 limit fun _ => do
    let a ← Bn254.First.decode (input.window 0 64)
    let b ← Bn254.First.decode (input.window 64 64)
    return Bn254.First.encode (a.add b)

def curveMul : StandardPrecompile := fun input limit =>
  priced 6000 limit fun _ => do
    let a ← Bn254.First.decode (input.window 0 64)
    return Bn254.First.encode (a.mul (BigEndian.decode (input.window 64 32)))

def pair? (bytes : Bytes) : Option (Bn254.First × Bn254.Second) := do
  let a ← Bn254.First.decode (bytes.take 64)
  let b ← Bn254.Second.decode (bytes.drop 64)
  return (a, b)

/-- Answers one if the product of the pairings is one, else zero. The price counts whole pairs
of 192 bytes; an input with a part of a pair is rejected after it. -/
def pairing : StandardPrecompile := fun input limit =>
  priced (45000 + 34000 * UInt64.ofNat (input.length / 192)) limit fun _ => do
    guard (input.length % 192 = 0)
    let pairs ← (Bytes.chunks 192 input).mapM pair?
    return BigEndian.encode 32 (if Bn254.cancels pairs then 1 else 0)

end RoundLedger.StandardPrecompile
