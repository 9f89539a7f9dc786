/-!
# Counts as binary floating-point numbers

The double nearest to a natural number; of two equally near the one with an even last bit.
-/

namespace RoundLedger.Double

/-- `n` divided by `2 ^ shift`, rounded to the nearest number, a tie to the even one. -/
def roundShift (n shift : Nat) : Nat :=
  let quotient := n >>> shift
  let unit := 1 <<< shift
  let remainder := n % unit
  if unit < 2 * remainder ∨ unit = 2 * remainder ∧ quotient % 2 = 1 then quotient + 1
  else quotient

/-- The bits of the double: sign, 11 bits of exponent and 52 bits of fraction. A fraction that
is rounded up to the next power of two carries into the exponent. -/
def bits (n : Nat) : UInt64 :=
  if n = 0 then 0
  else
    let exponent := n.log2
    let significand := if exponent ≤ 52 then n <<< (52 - exponent) else roundShift n (exponent - 52)
    UInt64.ofNat ((exponent + 1022) <<< 52 + significand)

end RoundLedger.Double
