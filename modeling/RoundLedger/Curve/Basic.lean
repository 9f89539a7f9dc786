/-!
# Curves without a linear term

Points of curves `y² = x³ + b`, over any field whose operations are given. A multiple of a point
is computed on triples `(x, y, z)` that stand for `(x / z², y / z³)`, so that it takes one
division in the end.
-/

namespace RoundLedger

class CurveField (F : Type) extends Add F, Sub F, Mul F, Neg F where
  zero : F
  one : F
  /-- The inverse; zero for zero. -/
  inverse : F → F

namespace Curve

inductive Point (F : Type)
  | infinity
  | affine (x y : F)
  deriving DecidableEq, Repr

/-- Stands for the point `(x / z², y / z³)`, or for infinity when `z` is zero. -/
structure Triple (F : Type) where
  x : F
  y : F
  z : F

variable {F : Type} [CurveField F]

def square (a : F) : F := a * a

def twice (a : F) : F := a + a

namespace Triple

def infinity : Triple F := ⟨CurveField.one, CurveField.one, CurveField.zero⟩

def ofPoint : Point F → Triple F
  | .infinity => infinity
  | .affine x y => ⟨x, y, CurveField.one⟩

def double (p : Triple F) : Triple F :=
  let a := square p.x
  let b := square p.y
  let c := square b
  let d := twice (square (p.x + b) - a - c)
  let e := a + twice a
  let x := square e - twice d
  ⟨x, e * (d - x) - twice (twice (twice c)), twice (p.y * p.z)⟩

variable [DecidableEq F]

def add (p q : Triple F) : Triple F :=
  if p.z = CurveField.zero then q
  else if q.z = CurveField.zero then p
  else
    let pz := square p.z
    let qz := square q.z
    let u := p.x * qz
    let h := q.x * pz - u
    let s := p.y * q.z * qz
    let r := q.y * p.z * pz - s
    if h = CurveField.zero then
      if r = CurveField.zero then p.double else infinity
    else
      let hh := square h
      let hhh := h * hh
      let v := u * hh
      let x := square r - hhh - twice v
      ⟨x, r * (v - x) - s * hhh, p.z * q.z * h⟩

/-- `k` times a point, from the highest bit of `k` down. -/
def mul (k : Nat) (p : Triple F) : Triple F :=
  if k = 0 then infinity
  else
    let half := (mul (k / 2) p).double
    if k % 2 = 1 then half.add p else half
termination_by k

def toPoint (p : Triple F) : Point F :=
  if p.z = CurveField.zero then .infinity
  else
    let i := CurveField.inverse p.z
    let ii := square i
    .affine (p.x * ii) (p.y * (i * ii))

end Triple

namespace Point

def neg : Point F → Point F
  | infinity => infinity
  | affine x y => affine x (-y)

def onCurve [DecidableEq F] (b : F) : Point F → Bool
  | infinity => true
  | affine x y => square y = x * square x + b

variable [DecidableEq F]

def add (p q : Point F) : Point F := ((Triple.ofPoint p).add (Triple.ofPoint q)).toPoint

def mul (k : Nat) (p : Point F) : Point F := ((Triple.ofPoint p).mul k).toPoint

end Point

end Curve

end RoundLedger
