import RoundLedger.Bytes
import RoundLedger.Curve.Basic
import RoundLedger.Curve.Modular

/-!
# The fields of the curve BN254

The integers modulo `p`, the quadratic extension with `u² = -1`, and on top of it the
extension of degree six with `w⁶ = 9 + u`.
-/

namespace RoundLedger.Bn254

def p : Nat := 0x30644e72e131a029b85045b68181585d97816a916871ca8d3c208c16d87cfd47

instance : @NeZero Nat Zero.ofOfNat0 p := ⟨Nat.succ_ne_zero (p - 1)⟩

abbrev Base := Fin p

instance : CurveField Base where
  zero := 0
  one := 1
  inverse a := Fin.ofNat p (Modular.inverse p a.val)

/-! ## The quadratic extension -/

/-- The element `re + im u`. -/
structure Quadratic where
  re : Base
  im : Base
  deriving DecidableEq

namespace Quadratic

def ofBase (a : Base) : Quadratic := ⟨a, 0⟩

def scale (c : Base) (a : Quadratic) : Quadratic := ⟨c * a.re, c * a.im⟩

instance : CurveField Quadratic where
  zero := ofBase 0
  one := ofBase 1
  add a b := ⟨a.re + b.re, a.im + b.im⟩
  sub a b := ⟨a.re - b.re, a.im - b.im⟩
  mul a b := ⟨a.re * b.re - a.im * b.im, a.re * b.im + a.im * b.re⟩
  neg a := ⟨-a.re, -a.im⟩
  inverse a := scale (CurveField.inverse (a.re * a.re + a.im * a.im)) ⟨a.re, -a.im⟩

/-- The element `9 + u`, which has no sixth root. -/
def xi : Quadratic := ⟨9, 1⟩

end Quadratic

/-! ## The extension of degree twelve -/

/-- The six coefficients of a polynomial in `w`. -/
abbrev Top := Vector Quadratic 6

namespace Top

def one : Top := .ofFn fun k => Quadratic.ofBase (if k = 0 then 1 else 0)

/-- The product of two polynomials, where `w⁶` becomes `9 + u`. Indices count modulo six, so that
`k - i` is the partner of `i` for the coefficient `k`, and their powers of `w` add up to `k + 6`
if `k < i`. -/
def mul (a b : Top) : Top :=
  .ofFn fun k => Fin.foldl 6 (fun sum i =>
    let term := a[i] * b[k - i]
    sum + if k < i then Quadratic.xi * term else term) (Quadratic.ofBase 0)

def pow (a : Top) (exponent : Nat) : Top :=
  if exponent = 0 then one
  else
    let half := pow (a.mul a) (exponent / 2)
    if exponent % 2 = 1 then a.mul half else half
termination_by exponent

end Top

end RoundLedger.Bn254
