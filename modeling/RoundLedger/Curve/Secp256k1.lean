import RoundLedger.Bytes
import RoundLedger.Curve.Basic
import RoundLedger.Curve.Modular
import RoundLedger.Curve.Group

/-!
# The curve secp256k1

`y² = x³ + 7` over the integers modulo `p`, with a group of prime order `n`.
-/

namespace RoundLedger.Secp256k1

def p : Nat := 0xfffffffffffffffffffffffffffffffffffffffffffffffffffffffefffffc2f

def n : Nat := 0xfffffffffffffffffffffffffffffffebaaedce6af48a03bbfd25e8cd0364141

instance : @NeZero Nat Zero.ofOfNat0 p := ⟨Nat.succ_ne_zero (p - 1)⟩

abbrev Coordinate := Fin p

instance : CurveField Coordinate where
  zero := 0
  one := 1
  inverse a := Fin.ofNat p (Modular.inverse p a.val)

abbrev Point := Curve.Point Coordinate

def b : Coordinate := 7

def generator : Point :=
  .affine 0x79be667ef9dcbbac55a06295ce870b07029bfcdb2dce28d959f2815b16f81798
    0x483ada7726a3c4655da4fbfc0e1108a8fd17b448a68554199c47d08ffb10d4b8

/-! ## Encodings -/

def coordinateBytes (a : Coordinate) : Bytes := BigEndian.encode 32 a.val

def coordinate? (bytes : Bytes) : Option Coordinate :=
  let v := BigEndian.decode bytes
  if h : v < p then some ⟨v, h⟩ else none

/-- The point with this `x` and a `y` of the given parity, if there is one. -/
def lift? (x : Coordinate) (odd : Bool) : Option Point :=
  let square := x * x * x + b
  let y : Coordinate := Fin.ofNat p (Modular.pow p square.val ((p + 1) / 4))
  if y * y = square then some (.affine x (if (y.val % 2 = 1) = odd then y else -y)) else none

/-- The compressed form of 33 bytes: the parity of `y`, then `x`. Infinity is all zeros. -/
def encode : Point → Bytes
  | .infinity => List.replicate 33 0
  | .affine x y => (if y.val % 2 = 1 then 3 else 2) :: coordinateBytes x

/-- Reads a point other than infinity: compressed (a first byte 2 or 3 gives the parity of `y`),
compact (5, with an even `y`) or with both coordinates (4). -/
def decode : Bytes → Option Point
  | [] => none
  | tag :: rest =>
    if rest.length = 32 ∧ (tag = 2 ∨ tag = 3 ∨ tag = 5) then do
      lift? (← coordinate? rest) (tag = 3)
    else if rest.length = 64 ∧ tag = 4 then do
      let point : Point := .affine (← coordinate? (rest.take 32)) (← coordinate? (rest.drop 32))
      if point.onCurve b then some point else none
    else none

def group : Group Point :=
  { add := .add, neg := .neg, mul := .mul, generator, order := n, encode, decode }

end RoundLedger.Secp256k1
