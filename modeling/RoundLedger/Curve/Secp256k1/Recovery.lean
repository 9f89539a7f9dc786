import RoundLedger.Curve.Secp256k1
import RoundLedger.Hash.Keccak

/-!
# Recovering the signer

A signature `(r, s)` on a hash, together with the parity of the `y` of the point it was made
from, determines the public key.
-/

namespace RoundLedger.Secp256k1

/-- The key that signed: `r⁻¹ (s R - z G)` for the point `R` with `x = r`. -/
def recover? (hash : Bytes) (odd : Bool) (r s : Nat) : Option Point := do
  guard (0 < r ∧ r < n ∧ 0 < s ∧ s < n)
  let point ← lift? (Fin.ofNat p r) odd
  let inverse := Modular.inverse n r
  let z := BigEndian.decode hash % n
  let key := (generator.mul ((n - z) * inverse % n)).add (point.mul (s * inverse % n))
  if key = .infinity then none else some key

/-- The low 20 bytes of the hash of both coordinates. -/
def Point.address : Point → Address
  | .infinity => 0
  | .affine x y => (Keccak.digest (coordinateBytes x ++ coordinateBytes y)).setWidth 160

end RoundLedger.Secp256k1
