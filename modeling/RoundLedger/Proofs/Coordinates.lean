import Mathlib.FieldTheory.Finite.Basic
import RoundLedger.Proofs.Primes
import RoundLedger.Proofs.Triples

/-!
# The field of the coordinates

Coordinates are read as integers modulo a prime. The steps of `euclid` end in an inverse, and a root
of a square is one of its powers, up to the sign; the parity of a coordinate tells it from its
opposite.
-/

namespace RoundLedger.Modular

/-- What the steps keep makes the answer a multiplier of the common divisor. -/
theorem cast_euclid {m : Nat} (hm : 0 < m) (start a b x y : Nat) (hx : (x * start : ZMod m) = a)
    (hy : (y * start : ZMod m) = b) : (euclid m a b x y * start : ZMod m) = Nat.gcd a b := by
  induction a, b, x, y using euclid.induct m with
  | case1 a x y =>
    rw [euclid, if_pos rfl, Nat.gcd_zero_right, hx]
  | case2 a b x y hne ih =>
    have hnext : (((x + (m - a / b * y % m)) % m : Nat) * start : ZMod m) = (a % b : Nat) := by
      have hsplit : (a : ZMod m) = b * (a / b : Nat) + (a % b : Nat) := by
        rw [← Nat.cast_mul, ← Nat.cast_add, Nat.div_add_mod]
      rw [ZMod.natCast_mod, Nat.cast_add, Nat.cast_sub (Nat.mod_lt _ hm).le, ZMod.natCast_self,
        ZMod.natCast_mod, Nat.cast_mul]
      linear_combination hx - ((a / b : Nat) : ZMod m) * hy + hsplit
    rw [euclid, if_neg hne, ih hy hnext, Nat.gcd_comm b, ← Nat.gcd_rec, Nat.gcd_comm]

theorem cast_inverse {m : Nat} (hm : m.Prime) (k : Nat) :
    (inverse m k : ZMod m) = (k : ZMod m)⁻¹ := by
  have := Fact.mk hm
  rw [inverse]
  split
  · next hzero =>
    rw [(ZMod.natCast_eq_zero_iff k m).mpr (Nat.dvd_of_mod_eq_zero hzero), inv_zero, Nat.cast_zero]
  · next hne =>
    have hcoprime : Nat.gcd m (k % m) = 1 := by
      rw [Nat.gcd_comm, ← Nat.gcd_rec]
      exact hm.coprime_iff_not_dvd.mpr fun hdvd => hne (Nat.mod_eq_zero_of_dvd hdvd)
    have hmul := cast_euclid hm.pos k m (k % m) 0 1 (by simp) (by simp)
    rw [hcoprime, Nat.cast_one] at hmul
    exact eq_inv_of_mul_eq_one_left hmul

end RoundLedger.Modular

namespace RoundLedger.Secp256k1

open Curve

instance : Fact p.Prime := ⟨prime_p⟩

open scoped Fin.CommRing in
theorem finEquiv_ofNat (k : Nat) : ZMod.finEquiv p (Fin.ofNat p k) = k :=
  map_natCast (ZMod.finEquiv p) k

theorem finEquiv_eq (a : Coordinate) : ZMod.finEquiv p a = a.val := by
  rw [← finEquiv_ofNat, Fin.ofNat_val_eq_self]

/-- Coordinates are read as the integers modulo the prime. -/
def reading : Reading Coordinate (ZMod p) where
  value := (ZMod.finEquiv p).toEquiv
  add := map_add (ZMod.finEquiv p)
  sub := map_sub (ZMod.finEquiv p)
  mul := map_mul (ZMod.finEquiv p)
  neg := map_neg (ZMod.finEquiv p)
  zero := map_zero (ZMod.finEquiv p)
  one := map_one (ZMod.finEquiv p)
  inverse a := by
    change ZMod.finEquiv p (Fin.ofNat p (Modular.inverse p a.val)) = (ZMod.finEquiv p a)⁻¹
    rw [finEquiv_ofNat, finEquiv_eq, Modular.cast_inverse prime_p]

theorem reading_ofNat (k : Nat) : reading.value (Fin.ofNat p k) = k := finEquiv_ofNat k

theorem reading_eq (a : Coordinate) : reading.value a = a.val := finEquiv_eq a

/-! ## Signs and roots -/

section Signs

open scoped Fin.CommRing

theorem eq_or_eq_neg {a b : Coordinate} (hsquare : a * a = b * b) : a = b ∨ a = -b := by
  have hread : reading.value a * reading.value a = reading.value b * reading.value b := by
    rw [← reading.mul, ← reading.mul, hsquare]
  rw [mul_self_eq_mul_self_iff, ← reading.neg] at hread
  exact hread.imp (reading.value.injective ·) (reading.value.injective ·)

theorem odd_neg {a : Coordinate} (h : a ≠ 0) : (-a).val % 2 = 1 ↔ ¬ a.val % 2 = 1 := by
  have hval : (-a).val = p - a.val := by rw [Fin.val_neg, if_neg h]
  have hlt := a.isLt
  have hp : p % 2 = 1 := by decide
  omega

/-- A coordinate or its opposite, whichever has the parity. -/
def withParity (odd : Bool) (a : Coordinate) : Coordinate := if (a.val % 2 = 1) = odd then a else -a

theorem withParity_mul_self (odd : Bool) (a : Coordinate) :
    withParity odd a * withParity odd a = a * a := by
  rw [withParity]
  split
  · rfl
  · exact neg_mul_neg a a

/-- Of a coordinate and its opposite one is odd, unless both are zero. -/
theorem withParity_eq {a b : Coordinate} (hsquare : a * a = b * b) :
    withParity (b.val % 2 = 1) a = b := by
  rcases eq_or_eq_neg hsquare with rfl | rfl
  · simp [withParity]
  · by_cases hzero : b = 0
    · simp [withParity, hzero]
    · have hdiffer : ¬((-b).val % 2 = 1) = (decide (b.val % 2 = 1) = true) := by
        rw [decide_eq_true_eq, odd_neg hzero, eq_iff_iff]
        exact not_iff_self
      rw [withParity, if_neg hdiffer, neg_neg]

theorem eq_of_parity {a b : Coordinate} (hsquare : a * a = b * b)
    (hparity : a.val % 2 = 1 ↔ b.val % 2 = 1) : a = b := by
  rw [← withParity_eq hsquare, withParity, if_pos (by simpa using hparity)]

end Signs

/-- What a coordinate is taken for the root of. -/
def root (square : Coordinate) : Coordinate :=
  Fin.ofNat p (Modular.pow p square.val ((p + 1) / 4))

theorem root_mul_root (a : Coordinate) : root (a * a) * root (a * a) = a * a := by
  have hroot : reading.value (root (a * a)) = reading.value a ^ (2 * ((p + 1) / 4)) := by
    rw [root, reading_ofNat, Modular.pow_eq, ZMod.natCast_mod]
    change (((a * a).val ^ ((p + 1) / 4) : Nat) : ZMod p) = _
    rw [Nat.cast_pow, ← reading_eq, reading.mul, ← pow_two, ← pow_mul]
  have hexponent : 2 * ((p + 1) / 4) + 2 * ((p + 1) / 4) = p + 1 := by decide
  apply reading.value.injective
  rw [reading.mul, reading.mul, hroot, ← pow_add, hexponent, pow_succ, ZMod.pow_card]

end RoundLedger.Secp256k1
