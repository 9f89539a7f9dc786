import Mathlib.GroupTheory.OrderOfElement
import RoundLedger.Curve.Group

/-!
# What a group with encoded elements keeps

`Lawful` says that the operations of a group are those of a group of prime order, through a map from
its elements, and that the encoding of an element other than the identity can be read back.
-/

namespace RoundLedger

structure Group.Lawful {P A : Type} [AddCommGroup A] (g : Group P) (point : A → P) : Prop where
  add : ∀ a a', g.add (point a) (point a') = point (a + a')
  neg : ∀ a, g.neg (point a) = point (-a)
  mul : ∀ k a, g.mul k (point a) = point (k • a)
  generator : ∃ base, base ≠ 0 ∧ point base = g.generator
  prime : g.order.Prime
  order_smul : ∀ a : A, g.order • a = 0
  /-- A scalar is written as 32 bytes, and 16 bytes always are one. -/
  order_le : g.order ≤ BigEndian.limit 32
  le_order : BigEndian.limit 16 ≤ g.order
  length_encode : ∀ q, (g.encode q).length = 33
  decode_encode : ∀ a, a ≠ 0 → g.decode (g.encode (point a)) = some (point a)
  decode_identity : g.decode (g.encode (point 0)) = none
  exists_of_decode : ∀ bytes q, g.decode bytes = some q → ∃ a, a ≠ 0 ∧ point a = q

namespace Group.Lawful

variable {P A : Type} [AddCommGroup A] {g : Group P} {point : A → P} (laws : g.Lawful point)
include laws

theorem addOrderOf_eq {a : A} (h : a ≠ 0) : addOrderOf a = g.order :=
  have := Fact.mk laws.prime
  addOrderOf_eq_prime (laws.order_smul a) h

theorem smul_eq_zero_iff {a : A} (h : a ≠ 0) {k : Nat} (hlt : k < g.order) :
    k • a = 0 ↔ k = 0 := by
  rw [← addOrderOf_dvd_iff_nsmul_eq_zero, laws.addOrderOf_eq h]
  exact ⟨fun hdvd => Nat.eq_zero_of_dvd_of_lt hdvd hlt, fun hzero => hzero ▸ dvd_zero _⟩

theorem mod_smul (k : Nat) (a : A) : (k % g.order) • a = k • a := by
  conv_rhs => rw [← Nat.mod_add_div k g.order, add_nsmul, mul_nsmul, laws.order_smul, nsmul_zero,
    add_zero]

/-- Only the multiple by zero cannot be read. -/
theorem decode_multiple {a : A} (h : a ≠ 0) {k : Nat} (hlt : k < g.order) :
    g.decode (g.encode (g.mul k (point a))) =
      if k = 0 then none else some (g.mul k (point a)) := by
  rw [laws.mul]
  split
  · next hzero => rw [hzero, zero_nsmul, laws.decode_identity]
  · next hpos => exact laws.decode_encode _ (mt (laws.smul_eq_zero_iff h hlt).mp hpos)

end Group.Lawful

end RoundLedger
