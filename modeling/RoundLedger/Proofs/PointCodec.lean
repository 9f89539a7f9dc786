import RoundLedger.Proofs.CurveGroup
import RoundLedger.Proofs.GroupLaws

/-!
# Encoded points of secp256k1

What is read is a point of the curve other than infinity, and such a point is read back from its
compressed form. With the order of the curve this makes the group of the curve lawful.
-/

namespace RoundLedger.Secp256k1

open Curve

theorem coordinate?_coordinateBytes (x : Coordinate) :
    coordinate? (coordinateBytes x) = some x := by
  have hfits : x.val < BigEndian.limit 32 := x.isLt.trans (by decide)
  simp [coordinate?, coordinateBytes, BigEndian.decode_encode, Nat.mod_eq_of_lt hfits]

theorem lift?_eq (x : Coordinate) (odd : Bool) :
    lift? x odd =
      if root (x * x * x + b) * root (x * x * x + b) = x * x * x + b then
        some (.affine x (withParity odd (root (x * x * x + b))))
      else none := rfl

theorem lift?_eq_some {x y : Coordinate} (hcurve : y * y = x * x * x + b) :
    lift? x (y.val % 2 = 1) = some (.affine x y) := by
  have hroot := root_mul_root y
  rw [lift?_eq, ← hcurve, if_pos hroot, withParity_eq hroot]

theorem exists_of_lift? {x : Coordinate} {odd : Bool} {q : Secp256k1.Point}
    (h : lift? x odd = some q) : ∃ a, a ≠ 0 ∧ point a = q := by
  rw [lift?_eq, Option.ite_none_right_eq_some] at h
  obtain ⟨hsquare, h⟩ := h
  obtain rfl := Option.some.inj h
  exact exists_point ((withParity_mul_self odd _).trans hsquare)

theorem exists_of_decode {bytes : Bytes} {q : Secp256k1.Point} (h : decode bytes = some q) :
    ∃ a, a ≠ 0 ∧ point a = q := by
  cases bytes with
  | nil => contradiction
  | cons tag rest =>
    simp only [decode, Option.bind_eq_bind] at h
    split at h
    · obtain ⟨x, -, hlift⟩ := Option.bind_eq_some_iff.mp h
      exact exists_of_lift? hlift
    · split at h
      · obtain ⟨x, -, h⟩ := Option.bind_eq_some_iff.mp h
        obtain ⟨y, -, h⟩ := Option.bind_eq_some_iff.mp h
        rw [Option.ite_none_right_eq_some, onCurve_iff] at h
        obtain ⟨hcurve, h⟩ := h
        obtain rfl := Option.some.inj h
        exact exists_point hcurve
      · contradiction

theorem length_encode (q : Secp256k1.Point) : (encode q).length = 33 := by
  cases q <;> simp [encode, coordinateBytes]

theorem decode_encode {x y : Coordinate} (hcurve : y * y = x * x * x + b) :
    decode (encode (.affine x y)) = some (.affine x y) := by
  have hlength : (coordinateBytes x).length = 32 := BigEndian.length_encode 32 _
  have hlift := lift?_eq_some hcurve
  rw [encode]
  by_cases hodd : y.val % 2 = 1
  · simp_all [decode, coordinate?_coordinateBytes]
  · simp_all [decode, coordinate?_coordinateBytes]

theorem lawful : group.Lawful point where
  add a a' := add_ofCurve two_ne_zero_mod a a'
  neg a := neg_ofCurve a
  mul := mul_point
  generator := exists_base
  prime := prime_n
  order_smul := order_smul
  order_le := by decide
  le_order := by decide
  length_encode := length_encode
  decode_encode a h := by
    obtain ⟨hzero, -⟩ | ⟨-, x, y, ha, hcurve⟩ := point_cases a
    · contradiction
    · rw [ha]
      exact decode_encode hcurve
  decode_identity := rfl
  exists_of_decode _ _ := exists_of_decode

end RoundLedger.Secp256k1
