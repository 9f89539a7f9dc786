import Mathlib.Tactic.SplitIfs
import RoundLedger.Gas

/-!
# Settlement in unbounded numbers

What `GasPolicy.settle` charges, written without an operation that stops at the edge of a word.
The two are the same but at one use: when all of the largest count was used, the sum of the
refund and the half cannot pass it, and a refund past the half is taken off in full.
-/

namespace RoundLedger

namespace Gas

/-- What is left of a use once the refund is off, and at least half of it. -/
def capped (used refund : Nat) : Nat := max (used - refund) ((used + 1) / 2)

/-- What smoothing makes of a use. -/
def smoothed (limit used : Nat) : Nat :=
  if 4 * used < limit then limit else if 2 * used < limit then (limit + used) / 2 else used

/-- A use and a refund for which the sum of refund and half stops short of passing the use. -/
def CapMissed (used refund : Nat) : Prop := used = UInt64.top.toNat ∧ UInt64.size ≤ 2 * refund

instance (used refund : Nat) : Decidable (CapMissed used refund) :=
  inferInstanceAs (Decidable (_ ∧ _))

theorem smoothed_le {limit used : Nat} (h : used ≤ limit) : smoothed limit used ≤ limit := by
  unfold smoothed
  split_ifs <;> omega

/-- Smoothing gives the whole limit for a use below the quarter, and for the whole limit. -/
theorem smoothed_eq_limit_iff {limit used : Nat} (h : used ≤ limit) :
    smoothed limit used = limit ↔ 4 * used < limit ∨ used = limit := by
  unfold smoothed
  split_ifs <;> omega

theorem capped_le {limit used : Nat} (h : used ≤ limit) (refund : Nat) : capped used refund ≤ limit := by
  unfold capped
  omega

theorem half_le_capped (used refund : Nat) : used ≤ 2 * capped used refund := by
  unfold capped
  omega

/-- The products stop at the largest count, which no limit passes. -/
theorem toNat_smooth (limit used : UInt64) :
    (smooth limit used).toNat = smoothed limit.toNat used.toNat := by
  have hsize : UInt64.size = 2 ^ 64 := rfl
  have hlimit := limit.toNat_lt
  have hquarter : used.mulCapped 4 < limit ↔ 4 * used.toNat < limit.toNat := by
    rw [UInt64.lt_iff_toNat_lt, UInt64.toNat_mulCapped, show (4 : UInt64).toNat = 4 from rfl]
    omega
  have hhalf : used.mulCapped 2 < limit ↔ 2 * used.toNat < limit.toNat := by
    rw [UInt64.lt_iff_toNat_lt, UInt64.toNat_mulCapped, show (2 : UInt64).toNat = 2 from rfl]
    omega
  unfold smooth smoothed
  simp only [hquarter, hhalf]
  split
  · rfl
  · split
    · rw [UInt64.toNat_ofNat']
      omega
    · rfl

theorem toNat_half (used : UInt64) : (used / 2 + used % 2).toNat = (used.toNat + 1) / 2 := by
  have hused := used.toNat_lt
  rw [UInt64.toNat_add, UInt64.toNat_div, UInt64.toNat_mod, show (2 : UInt64).toNat = 2 from rfl]
  omega

theorem toNat_applyRefund (used refund : UInt64) :
    (applyRefund used refund).toNat =
      if CapMissed used.toNat refund.toNat then used.toNat - refund.toNat
      else capped used.toNat refund.toNat := by
  have hsize : UInt64.size = 2 ^ 64 := rfl
  have htop : UInt64.top.toNat = 2 ^ 64 - 1 := rfl
  have hused := used.toNat_lt
  have hrefund := refund.toNat_lt
  unfold applyRefund capped
  dsimp only
  split
  next hlt =>
    rw [UInt64.lt_iff_toNat_lt, UInt64.toNat_addCapped, toNat_half] at hlt
    rw [toNat_half, if_neg (by unfold CapMissed; omega)]
    omega
  next hle =>
    rw [UInt64.lt_iff_toNat_lt, UInt64.toNat_addCapped, toNat_half] at hle
    rw [UInt64.toNat_sub_of_le _ _ (by rw [UInt64.le_iff_toNat_le]; omega)]
    split
    · rfl
    · unfold CapMissed at *
      omega

end Gas

namespace GasPolicy

/-- The use that a policy settles. -/
def used (policy : GasPolicy) (limit left : Nat) : Nat :=
  if policy.smoothing then Gas.smoothed limit (limit - min left limit) else limit - min left limit

theorem used_le (policy : GasPolicy) (limit left : Nat) : policy.used limit left ≤ limit := by
  unfold used
  split
  · exact Gas.smoothed_le (Nat.sub_le _ _)
  · exact Nat.sub_le _ _

/-- The whole limit is used when nothing is left, or when smoothing raises the use to it. -/
theorem used_eq_limit_iff (policy : GasPolicy) (limit left : Nat) :
    policy.used limit left = limit ↔
      limit = 0 ∨ left = 0 ∨ policy.smoothing = true ∧ 4 * (limit - min left limit) < limit := by
  unfold used
  cases policy.smoothing with
  | true =>
    rw [if_pos rfl, Gas.smoothed_eq_limit_iff (Nat.sub_le _ _)]
    simp only [true_and]
    omega
  | false =>
    simp only [Bool.false_eq_true, if_false, false_and, or_false]
    omega

theorem toNat_settle (policy : GasPolicy) (limit left refund : UInt64) :
    (policy.settle limit left refund).toNat =
      if Gas.CapMissed (policy.used limit.toNat left.toNat) refund.toNat then
        policy.used limit.toNat left.toNat - refund.toNat
      else Gas.capped (policy.used limit.toNat left.toNat) refund.toNat := by
  have hleft : (limit.subFloor left).toNat = limit.toNat - min left.toNat limit.toNat := by
    rw [UInt64.toNat_subFloor]
    omega
  have hused : (if policy.smoothing then Gas.smooth limit (limit.subFloor left)
      else limit.subFloor left).toNat = policy.used limit.toNat left.toNat := by
    unfold used
    split
    · rw [Gas.toNat_smooth, hleft]
    · exact hleft
  rw [settle, Gas.toNat_applyRefund, hused]

/-- The cap is missed under the largest limit only, once all of it counts as used. -/
theorem capMissed_iff (policy : GasPolicy) (limit left refund : UInt64) :
    Gas.CapMissed (policy.used limit.toNat left.toNat) refund.toNat ↔
      limit = UInt64.top ∧ UInt64.size ≤ 2 * refund.toNat ∧
        (left = 0 ∨ policy.smoothing = true ∧ 4 * (limit.toNat - left.toNat) < limit.toNat) := by
  have htop : UInt64.top.toNat = 2 ^ 64 - 1 := rfl
  have hlimit := limit.toNat_lt
  have hle := policy.used_le limit.toNat left.toNat
  have hall := policy.used_eq_limit_iff limit.toNat left.toNat
  rw [show limit.toNat - min left.toNat limit.toNat = limit.toNat - left.toNat by omega] at hall
  rw [← UInt64.toNat_inj (a := limit), ← UInt64.toNat_inj (a := left)]
  simp only [UInt64.toNat_zero]
  constructor
  · rintro ⟨hused, hrefund⟩
    have hwhole : policy.used limit.toNat left.toNat = limit.toNat := by omega
    refine ⟨by omega, hrefund, ?_⟩
    rcases hall.1 hwhole with hzero | hnone | hraised
    · omega
    · exact .inl hnone
    · exact .inr hraised
  · rintro ⟨hmost, hrefund, hcounts⟩
    exact ⟨(hall.2 (.inr hcounts)).trans hmost, hrefund⟩

/-- The charge is the exact one, and at least half of the use, just where the cap is not
missed; where it is, the whole refund comes off. The charge never passes the limit. -/
theorem settle_exact_iff (policy : GasPolicy) (limit left refund : UInt64) :
    let used := policy.used limit.toNat left.toNat
    let charge := (policy.settle limit left refund).toNat
    (charge = Gas.capped used refund.toNat ↔ ¬Gas.CapMissed used refund.toNat) ∧
      (used ≤ 2 * charge ↔ ¬Gas.CapMissed used refund.toNat) ∧
      (Gas.CapMissed used refund.toNat → charge = used - refund.toNat) ∧
      charge ≤ limit.toNat := by
  intro used charge
  have hsize : UInt64.size = 2 ^ 64 := rfl
  have htop : UInt64.top.toNat = 2 ^ 64 - 1 := rfl
  have hle : used ≤ limit.toNat := policy.used_le limit.toNat left.toNat
  have hcharge : charge = if Gas.CapMissed used refund.toNat then used - refund.toNat
      else Gas.capped used refund.toNat := policy.toNat_settle limit left refund
  by_cases hmissed : Gas.CapMissed used refund.toNat
  · rw [if_pos hmissed] at hcharge
    obtain ⟨hused, hrefund⟩ := hmissed
    have hhalf : 2 * charge < used := by omega
    refine ⟨iff_of_false ?_ (not_not_intro ⟨hused, hrefund⟩),
      iff_of_false (by omega) (not_not_intro ⟨hused, hrefund⟩), fun _ => hcharge, by omega⟩
    intro hexact
    have := Gas.half_le_capped used refund.toNat
    omega
  · rw [if_neg hmissed] at hcharge
    refine ⟨iff_of_true hcharge hmissed, iff_of_true ?_ hmissed, (absurd · hmissed), ?_⟩
    · rw [hcharge]
      exact Gas.half_le_capped used refund.toNat
    · rw [hcharge]
      exact Gas.capped_le hle refund.toNat

/-- All of the largest limit is used and the refund is as large: nothing is charged, with
smoothing or without, where half would be due. -/
theorem settle_top_uncapped :
    (GasPolicy.mk false).settle UInt64.top 0 UInt64.top = 0 ∧
      (GasPolicy.mk true).settle UInt64.top 0 UInt64.top = 0 ∧
      Gas.capped ((GasPolicy.mk false).used UInt64.top.toNat 0) UInt64.top.toNat = UInt64.size / 2 ∧
      Gas.capped ((GasPolicy.mk true).used UInt64.top.toNat 0) UInt64.top.toNat = UInt64.size / 2 := by
  decide +kernel

end GasPolicy

end RoundLedger
