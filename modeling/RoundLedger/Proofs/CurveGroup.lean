import Mathlib.GroupTheory.Perm.Cycle.Type
import RoundLedger.Proofs.Coordinates

/-!
# The order of secp256k1

The curve has exactly `n` points. The generator has order `n`, a point is known by its `x` and the
parity of its `y`, so that there are at most `2 * p + 1`, and no point is its own opposite.
-/

namespace RoundLedger.Secp256k1

open Curve WeierstrassCurve.Affine

/-- The points of the curve as a group. -/
abbrev Element : Type := (short (7 : ZMod p)).Point

def point : Element → Secp256k1.Point := ofCurve reading

theorem cast_ne_zero {k : Nat} (hpos : k ≠ 0) (hlt : k < p) : (k : ZMod p) ≠ 0 := by
  rw [ne_eq, ZMod.natCast_eq_zero_iff]
  exact fun hdvd => absurd (Nat.le_of_dvd (Nat.pos_of_ne_zero hpos) hdvd) (by omega)

theorem two_ne_zero_mod : (2 : ZMod p) ≠ 0 := cast_ne_zero (by decide) (by decide)

theorem nonsingular_iff (x y : ZMod p) :
    (short (7 : ZMod p)).Nonsingular x y ↔ y ^ 2 = x ^ 3 + 7 := by
  have hdiscriminant : (short (7 : ZMod p)).Δ ≠ 0 := by
    have hvalue : (short (7 : ZMod p)).Δ = -(21168 : Nat) := by
      simp only [WeierstrassCurve.Δ, WeierstrassCurve.b₂, WeierstrassCurve.b₄, WeierstrassCurve.b₆,
        WeierstrassCurve.b₈, short]
      norm_num
    rw [hvalue]
    exact neg_ne_zero.mpr (cast_ne_zero (by decide) (by decide))
  rw [← equation_iff_nonsingular_of_Δ_ne_zero hdiscriminant, short_equation]

theorem reading_b : reading.value b = 7 := reading_ofNat 7

theorem equation_iff_reading {x y : Coordinate} :
    y * y = x * x * x + b ↔ reading.value y ^ 2 = reading.value x ^ 3 + 7 := by
  rw [← reading.value.apply_eq_iff_eq, reading.add, reading.mul, reading.mul, reading.mul,
    reading_b]
  ring_nf

open scoped Fin.CommRing in
theorem onCurve_iff (x y : Coordinate) :
    (Curve.Point.affine x y).onCurve b = true ↔ y * y = x * x * x + b := by
  rw [Point.onCurve, decide_eq_true_eq, square, square, mul_assoc]

theorem exists_point {x y : Coordinate} (h : y * y = x * x * x + b) :
    ∃ a : Element, a ≠ 0 ∧ point a = .affine x y :=
  ⟨.some _ _ ((nonsingular_iff _ _).mpr (equation_iff_reading.mp h)), Point.some_ne_zero _, by
    simp [point, ofCurve]⟩

theorem point_cases (a : Element) : (a = 0 ∧ point a = .infinity)
    ∨ (a ≠ 0 ∧ ∃ x y, point a = .affine x y ∧ y * y = x * x * x + b) := by
  cases a with
  | zero => exact .inl ⟨rfl, rfl⟩
  | some x y h =>
    refine .inr ⟨Point.some_ne_zero h, reading.value.symm x, reading.value.symm y, rfl, ?_⟩
    rw [equation_iff_reading, Equiv.apply_symm_apply, Equiv.apply_symm_apply]
    exact (nonsingular_iff x y).mp h

theorem point_injective : Function.Injective point := by
  intro a a' h
  cases a <;> cases a' <;> simp_all [point, ofCurve]

/-! ## Counting -/

/-- A cube of a unit has this power one, and the opposite of seven does not. -/
theorem cube_ne (x : ZMod p) : x ^ 3 ≠ (p - 7 : Nat) := by
  intro hcube
  have hx : x ≠ 0 := by
    rintro rfl
    rw [zero_pow (by decide)] at hcube
    exact cast_ne_zero (by decide) (by decide) hcube.symm
  have hpower : ((p - 7 : Nat) : ZMod p) ^ ((p - 1) / 3) = 1 := by
    have hexponent : 3 * ((p - 1) / 3) = p - 1 := by decide
    rw [← hcube, ← pow_mul, hexponent, ZMod.pow_card_sub_one_eq_one hx]
  rw [PrimeTest.cast_pow_eq_one (by decide)] at hpower
  revert hpower
  decide +kernel

theorem no_involution {a : Element} (h : a + a = 0) : a = 0 := by
  obtain _ | ⟨x, y, hxy⟩ := a
  · rfl
  have hy : y = 0 := by
    by_contra hne
    rw [Point.add_self_of_Y_ne (ne_negY two_ne_zero_mod hne x)] at h
    exact Point.some_ne_zero _ h
  have hcube : x ^ 3 = ((p - 7 : Nat) : ZMod p) := by
    have hcurve := (nonsingular_iff x y).mp hxy
    rw [Nat.cast_sub (by decide), ZMod.natCast_self]
    linear_combination -hcurve + y * hy
  exact absurd hcube (cube_ne x)

/-- What tells a point from all others. -/
def signature : Secp256k1.Point → Option (Coordinate × Bool)
  | .infinity => none
  | .affine x y => some (x, y.val % 2 = 1)

theorem signature_injective : Function.Injective (signature ∘ point) := by
  intro a a' h
  apply point_injective
  obtain ⟨-, ha⟩ | ⟨-, x, y, ha, hcurve⟩ := point_cases a
    <;> obtain ⟨-, ha'⟩ | ⟨-, x', y', ha', hcurve'⟩ := point_cases a'
    <;> simp only [Function.comp_apply, ha, ha', signature, Option.some.injEq, Prod.mk.injEq,
      decide_eq_decide, reduceCtorEq] at h ⊢
  obtain ⟨rfl, hparity⟩ := h
  rw [eq_of_parity (hcurve.trans hcurve'.symm) hparity]

instance : Finite Element := Finite.of_injective _ signature_injective

theorem card_le : Nat.card Element ≤ 2 * p + 1 := by
  have h := Nat.card_le_card_of_injective _ signature_injective
  have hbool : Nat.card Bool = 2 := by simp
  rw [Finite.card_option, Nat.card_prod, Nat.card_fin, hbool] at h
  omega

theorem exists_base : ∃ base : Element, base ≠ 0 ∧ point base = generator :=
  exists_point (by decide +kernel)

theorem mul_point (k : Nat) (a : Element) : (point a).mul k = point (k • a) :=
  mul_ofCurve two_ne_zero_mod k a

instance : Fact n.Prime := ⟨prime_n⟩

theorem order_base {base : Element} (hne : base ≠ 0) (hbase : point base = generator) :
    addOrderOf base = n := by
  refine addOrderOf_eq_prime (point_injective ?_) hne
  rw [← mul_point, hbase]
  decide +kernel

theorem card_eq : Nat.card Element = n := by
  obtain ⟨base, hne, hbase⟩ := exists_base
  obtain ⟨k, hk⟩ : n ∣ Nat.card Element := order_base hne hbase ▸ addOrderOf_dvd_natCard base
  have hfew : k < 3 := by
    have hbound : 2 * p + 1 < n * 3 := by decide
    exact Nat.lt_of_mul_lt_mul_left (hk ▸ card_le.trans_lt hbound)
  have hsome : k ≠ 0 := by
    rintro rfl
    exact Nat.card_pos.ne' (hk.trans (mul_zero n))
  have hodd : k ≠ 2 := by
    rintro rfl
    obtain ⟨a, ha⟩ := exists_prime_addOrderOf_dvd_card' 2 (hk ▸ dvd_mul_left 2 n)
    have hopposite : a + a = 0 := by rw [← two_nsmul, ← ha, addOrderOf_nsmul_eq_zero]
    rw [no_involution hopposite, addOrderOf_zero] at ha
    exact absurd ha (by decide)
  obtain rfl : k = 1 := by omega
  rw [hk, mul_one]

theorem order_smul (a : Element) : n • a = 0 := card_eq ▸ card_nsmul_eq_zero'

end RoundLedger.Secp256k1
