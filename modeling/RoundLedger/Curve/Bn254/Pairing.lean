import RoundLedger.Curve.Bn254.Points

/-!
# The ate pairing of BN254

A bilinear map from the two groups to the `r`-th roots of one. It is not degenerate, so that a
product of pairings is one exactly if the logarithms cancel; which of the pairings of these
groups it is does not matter for that.
-/

namespace RoundLedger.Bn254

structure Twisted where
  x : Quadratic
  y : Quadratic

namespace Twisted

def tangent (t : Twisted) : Quadratic :=
  let square := t.x * t.x
  (square + square + square) * CurveField.inverse (t.y + t.y)

def chord (t q : Twisted) : Quadratic := (q.y - t.y) * CurveField.inverse (q.x - t.x)

/-- The sum of `t` and `q`, which lie on a line of this slope. -/
def add (t : Twisted) (slope : Quadratic) (q : Twisted) : Twisted :=
  let x := slope * slope - t.x - q.x
  ⟨x, slope * (t.x - x) - t.y⟩

/-- The line of this slope through `t`, at the point `(x, y)` of the first group. A point of the
second group is `(x w², y w³)` on the first curve, where the slope gets a factor `w`. -/
def line (t : Twisted) (slope : Quadratic) (x y : Base) : Top :=
  let zero := Quadratic.ofBase 0
  #v[Quadratic.ofBase (-y), slope.scale x, zero, t.y - slope * t.x, zero, zero]

end Twisted

/-- The multiple `k q` and the value at `(x, y)` of the function with `k` zeros at `q`, by doubling
along the bits of `k`. Vertical lines are left out: the last power makes them one. -/
def miller (x y : Base) (q : Twisted) (k : Nat) : Top × Twisted :=
  if k ≤ 1 then (.one, q)
  else
    let (f, t) := miller x y q (k / 2)
    let slope := t.tangent
    let f := (f.mul f).mul (t.line slope x y)
    let t := t.add slope t
    if k % 2 = 1 then
      let slope := t.chord q
      (f.mul (t.line slope x y), t.add slope q)
    else (f, t)
termination_by k

def parameter : Nat := 4965661367192848881

/-- The trace of the curve less one. -/
def loopCount : Nat := 6 * parameter * parameter

/-- The pairing up to the last power. -/
def unreduced : First → Second → Top
  | .affine x y, .affine qx qy => (miller x y ⟨qx, qy⟩ loopCount).1
  | _, _ => .one

def cancels (pairs : List (First × Second)) : Bool :=
  let product := pairs.foldl (fun f (a, b) => f.mul (unreduced a b)) Top.one
  product.pow ((Nat.pow p 12 - 1) / r) = Top.one

end RoundLedger.Bn254
