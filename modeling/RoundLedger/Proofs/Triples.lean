import Mathlib.AlgebraicGeometry.EllipticCurve.Affine.Point
import Mathlib.Tactic.LinearCombination
import Mathlib.Tactic.FieldSimp
import RoundLedger.Curve.Basic

/-!
# Sums and multiples of points

The operations on triples compute the group of the curve. `Stands` ties a triple to the point that
it stands for, without a division; each operation on triples has one lemma about it, and a multiple
is an induction over the bits of the number.
-/

namespace RoundLedger.Curve

open WeierstrassCurve.Affine

/-- A reading of `F` as the field `K`, under which the operations of `F` are those of the field. -/
structure Reading (F K : Type) [CurveField F] [Field K] where
  value : F ≃ K
  add : ∀ a b : F, value (a + b) = value a + value b
  sub : ∀ a b : F, value (a - b) = value a - value b
  mul : ∀ a b : F, value (a * b) = value a * value b
  neg : ∀ a : F, value (-a) = -value a
  zero : value CurveField.zero = 0
  one : value CurveField.one = 1
  inverse : ∀ a : F, value (CurveField.inverse a) = (value a)⁻¹

/-- The curve `y² = x³ + b`. -/
def short {K : Type} [Field K] (b : K) : WeierstrassCurve.Affine K :=
  { a₁ := 0, a₂ := 0, a₃ := 0, a₄ := 0, a₆ := b }

section Short

variable {K : Type} [Field K] {b : K}

theorem short_equation (x y : K) : (short b).Equation x y ↔ y ^ 2 = x ^ 3 + b := by
  simp [equation_iff, short]

@[simp] theorem short_negY (x y : K) : (short b).negY x y = -y := by simp [negY, short]

@[simp] theorem short_addX (x₁ x₂ slope : K) :
    (short b).addX x₁ x₂ slope = slope ^ 2 - x₁ - x₂ := by simp [addX, short]

@[simp] theorem short_addY (x₁ x₂ y₁ slope : K) :
    (short b).addY x₁ x₂ y₁ slope = slope * (x₁ - (slope ^ 2 - x₁ - x₂)) - y₁ := by
  simp only [addY, negAddY, short_negY, short_addX]
  ring

theorem ne_negY (htwo : (2 : K) ≠ 0) {y : K} (hy : y ≠ 0) (x : K) : y ≠ (short b).negY x y := by
  rw [short_negY]
  intro hopposite
  exact mul_ne_zero htwo hy (by linear_combination hopposite)

end Short

variable {F K : Type} [CurveField F] [Field K] (reading : Reading F K) {b : K}

/-- The point with the coordinates that are read as those of a point of the curve. -/
def ofCurve : (short b).Point → Point F
  | .zero => .infinity
  | .some x y _ => .affine (reading.value.symm x) (reading.value.symm y)

/-- The triple stands for the point. -/
def Stands (t : Triple F) : (short b).Point → Prop
  | .zero => reading.value t.z = 0
  | .some x y _ => reading.value t.z ≠ 0
      ∧ reading.value t.x = x * reading.value t.z ^ 2
      ∧ reading.value t.y = y * reading.value t.z ^ 3

namespace Reading

theorem square (a : F) : reading.value (Curve.square a) = reading.value a ^ 2 := by
  rw [Curve.square, reading.mul, pow_two]

theorem twice (a : F) : reading.value (Curve.twice a) = 2 * reading.value a := by
  rw [Curve.twice, reading.add, two_mul]

theorem eq_zero_iff (a : F) : a = CurveField.zero ↔ reading.value a = 0 := by
  rw [← reading.zero, reading.value.apply_eq_iff_eq]

end Reading

theorem stands_infinity : Stands reading Triple.infinity (0 : (short b).Point) := reading.zero

theorem stands_ofPoint (point : (short b).Point) :
    Stands reading (Triple.ofPoint (ofCurve reading point)) point := by
  cases point with
  | zero => exact reading.zero
  | some x y h => simp [Stands, ofCurve, Triple.ofPoint, reading.one]

variable {reading}

theorem Stands.z_eq_zero_iff {t : Triple F} {point : (short b).Point} (h : Stands reading t point) :
    reading.value t.z = 0 ↔ point = 0 := by
  cases point with
  | zero => exact iff_of_true h rfl
  | some x y hxy => exact iff_of_false h.1 (Point.some_ne_zero hxy)

theorem neg_ofCurve (point : (short b).Point) :
    (ofCurve reading point).neg = ofCurve reading (-point) := by
  cases point with
  | zero => rfl
  | some x y h =>
    rw [Point.neg_some]
    simp only [ofCurve, Point.neg, Point.affine.injEq, true_and, short_negY, Equiv.eq_symm_apply,
      reading.neg, Equiv.apply_symm_apply]

theorem Stands.toPoint [DecidableEq F] {t : Triple F} {point : (short b).Point}
    (h : Stands reading t point) : t.toPoint = ofCurve reading point := by
  rw [Triple.toPoint]
  cases point with
  | zero => rw [if_pos ((reading.eq_zero_iff _).mpr h), ofCurve]
  | some x y hxy =>
    obtain ⟨hz, hx, hy⟩ := h
    rw [if_neg ((reading.eq_zero_iff _).not.mpr hz), ofCurve]
    simp only [Point.affine.injEq, Equiv.eq_symm_apply, reading.mul, reading.square,
      reading.inverse, hx, hy]
    constructor <;> field_simp

variable [DecidableEq K] (htwo : (2 : K) ≠ 0)
include htwo

theorem Stands.double {t : Triple F} {point : (short b).Point} (h : Stands reading t point) :
    Stands reading t.double (point + point) := by
  cases point with
  | zero =>
    have hz : reading.value t.z = 0 := h
    change reading.value (twice (t.y * t.z)) = 0
    rw [reading.twice, reading.mul, hz, mul_zero, mul_zero]
  | some x y hxy =>
    obtain ⟨hz, hx, hy⟩ := h
    by_cases hzero : y = 0
    · rw [Point.add_self_of_Y_eq (by rw [short_negY, hzero, neg_zero])]
      change reading.value (twice (t.y * t.z)) = 0
      rw [reading.twice, reading.mul, hy, hzero, zero_mul, zero_mul, mul_zero]
    · have hne := ne_negY (b := b) htwo hzero x
      have hslope : (short b).slope x x y y = 3 * x ^ 2 / (2 * y) := by
        rw [slope_of_Y_ne rfl hne, short_negY]
        simp only [short]
        ring
      rw [Point.add_self_of_Y_ne hne]
      simp only [Stands, Triple.double, reading.twice, reading.square, reading.mul, reading.add,
        reading.sub, short_addX, short_addY, hslope, hx, hy]
      refine ⟨mul_ne_zero htwo (mul_ne_zero (mul_ne_zero hzero (pow_ne_zero 3 hz)) hz), ?_, ?_⟩
      · field_simp
        ring
      · field_simp
        ring

variable [DecidableEq F]

theorem Stands.add {t t' : Triple F} {point point' : (short b).Point} (h : Stands reading t point)
    (h' : Stands reading t' point') : Stands reading (t.add t') (point + point') := by
  rw [Triple.add]
  simp only [reading.eq_zero_iff, h.z_eq_zero_iff, h'.z_eq_zero_iff]
  split
  · next hzero => rwa [hzero, zero_add]
  split
  · next hzero => rwa [hzero, add_zero]
  obtain _ | ⟨x, y, hxy⟩ := point
  · contradiction
  obtain _ | ⟨x', y', hxy'⟩ := point'
  · contradiction
  have hdouble := h.double htwo
  obtain ⟨hz, hx, hy⟩ := h
  obtain ⟨hz', hx', hy'⟩ := h'
  have hzz : reading.value t.z * reading.value t'.z ≠ 0 := mul_ne_zero hz hz'
  have hdx : reading.value (t'.x * Curve.square t.z - t.x * Curve.square t'.z)
      = (x' - x) * (reading.value t.z * reading.value t'.z) ^ 2 := by
    simp only [reading.square, reading.mul, reading.sub, hx, hx']
    ring
  have hdy : reading.value (t'.y * t.z * Curve.square t.z - t.y * t'.z * Curve.square t'.z)
      = (y' - y) * (reading.value t.z * reading.value t'.z) ^ 3 := by
    simp only [reading.square, reading.mul, reading.sub, hy, hy']
    ring
  simp only [hdx, hdy, mul_eq_zero, pow_ne_zero _ hzz, or_false, sub_eq_zero]
  by_cases hsame : x' = x
  · subst hsame
    rw [if_pos rfl]
    -- Two points with one `x` are equal or opposite; a point that is its own opposite is doubled.
    split
    · next hequal =>
      subst hequal
      exact hdouble
    · next hdiffer =>
      have hopposite : y = (short b).negY x' y' :=
        (Y_eq_of_X_eq hxy.1 hxy'.1 rfl).resolve_left fun h => hdiffer h.symm
      rw [Point.add_of_Y_eq rfl hopposite]
      exact stands_infinity reading
  · rw [if_neg hsame, Point.add_of_X_ne (Ne.symm hsame)]
    have hsub : x' - x ≠ 0 := sub_ne_zero.mpr hsame
    have hsub' : x - x' ≠ 0 := sub_ne_zero.mpr (Ne.symm hsame)
    have hslope : (short b).slope x x' y y' = (y' - y) / (x' - x) := by
      rw [slope_of_X_ne (Ne.symm hsame), div_eq_div_iff hsub' hsub]
      ring
    refine ⟨?_, ?_, ?_⟩
    · rw [reading.mul, reading.mul, hdx]
      exact mul_ne_zero hzz (mul_ne_zero hsub (pow_ne_zero 2 hzz))
    · simp only [reading.mul, reading.sub, reading.twice, reading.square, hslope, short_addX, hx,
        hx', hy, hy']
      field_simp
      ring
    · simp only [reading.mul, reading.sub, reading.twice, reading.square, hslope, short_addY, hx,
        hx', hy, hy']
      field_simp
      ring

theorem Stands.mul {t : Triple F} {point : (short b).Point} (h : Stands reading t point) (k : Nat) :
    Stands reading (t.mul k) (k • point) := by
  induction k using Nat.strongRecOn with
  | ind k ih =>
    rw [Triple.mul]
    split
    · next hzero =>
      rw [hzero, zero_nsmul]
      exact stands_infinity reading
    · next hpos =>
      have hhalf := (ih (k / 2) (Nat.div_lt_self (Nat.pos_of_ne_zero hpos) one_lt_two)).double htwo
      rw [← two_nsmul, ← mul_nsmul'] at hhalf
      split
      · next hodd =>
        have hk : k • point = (2 * (k / 2)) • point + point := by
          rw [← succ_nsmul]
          congr 1
          omega
        rw [hk]
        exact hhalf.add htwo h
      · next heven =>
        have hk : 2 * (k / 2) = k := by omega
        rwa [hk] at hhalf

/-! ## Points -/

theorem add_ofCurve (point point' : (short b).Point) :
    (ofCurve reading point).add (ofCurve reading point') = ofCurve reading (point + point') :=
  ((stands_ofPoint reading point).add htwo (stands_ofPoint reading point')).toPoint

theorem mul_ofCurve (k : Nat) (point : (short b).Point) :
    (ofCurve reading point).mul k = ofCurve reading (k • point) :=
  ((stands_ofPoint reading point).mul htwo k).toPoint

end RoundLedger.Curve
