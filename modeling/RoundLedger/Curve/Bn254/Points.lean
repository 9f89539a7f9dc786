import RoundLedger.Curve.Bn254.Field

/-!
# The two groups of BN254

The first group holds the points of `y² = x³ + 3` over the base field. The second holds those
points of `y² = x³ + 3 / (9 + u)` over the quadratic extension whose order divides `r`. Both
have the prime order `r`. In bytes, infinity has only zeros.
-/

namespace RoundLedger.Bn254

def r : Nat := 0x30644e72e131a029b85045b68181585d2833e84879b9709143e1f593f0000001

abbrev First := Curve.Point Base

abbrev Second := Curve.Point Quadratic

def base? (bytes : Bytes) : Option Base :=
  let v := BigEndian.decode bytes
  if h : v < p then some ⟨v, h⟩ else none

/-- Two coordinates of 32 bytes, the imaginary part first. -/
def quadratic? (bytes : Bytes) : Option Quadratic := do
  let im ← base? (bytes.take 32)
  let re ← base? (bytes.drop 32)
  return ⟨re, im⟩

/-- The point with these coordinates, if it is on the curve. Two zeros stand for infinity. -/
def point? {F : Type} [CurveField F] [DecidableEq F] (b x y : F) : Option (Curve.Point F) :=
  if x = CurveField.zero ∧ y = CurveField.zero then some .infinity
  else
    let point : Curve.Point F := .affine x y
    if point.onCurve b then some point else none

def First.decode (bytes : Bytes) : Option First := do
  point? 3 (← base? (bytes.take 32)) (← base? (bytes.drop 32))

def First.encode : First → Bytes
  | .infinity => List.replicate 64 0
  | .affine x y => BigEndian.encode 32 x.val ++ BigEndian.encode 32 y.val

def twisted : Quadratic := Quadratic.ofBase 3 * CurveField.inverse Quadratic.xi

/-- Reads a point of 128 bytes. The second curve has points outside the group. -/
def Second.decode (bytes : Bytes) : Option Second := do
  let point ← point? twisted (← quadratic? (bytes.take 64)) (← quadratic? (bytes.drop 64))
  if point.mul r = .infinity then some point else none

end RoundLedger.Bn254
