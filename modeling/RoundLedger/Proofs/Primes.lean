import Mathlib.NumberTheory.LucasPrimality
import Mathlib.Data.List.Prime
import Mathlib.Tactic.NormNum.Prime
import RoundLedger.Curve.Secp256k1

/-!
# The two primes of secp256k1

A number is prime when some root has an order that is one less than the number. The test of that
takes the primes that divide one less, and a certificate lists the large ones among them before the
numbers that need them.
-/

namespace RoundLedger.PrimeTest

structure Entry where
  number : Nat
  root : Nat
  /-- The primes whose product is one less than the number. -/
  factors : List Nat

/-- The test for one number, where the numbers in `known` are known to be prime. -/
def Entry.Holds (known : List Nat) (entry : Entry) : Prop :=
  1 < entry.number
    ∧ entry.factors.prod = entry.number - 1
    ∧ Modular.pow entry.number entry.root (entry.number - 1) = 1
    ∧ ∀ q ∈ entry.factors, q ∈ known
        ∧ Modular.pow entry.number entry.root ((entry.number - 1) / q) ≠ 1

instance (known : List Nat) (entry : Entry) : Decidable (entry.Holds known) :=
  inferInstanceAs (Decidable (_ ∧ _))

/-- Each number is tested with the ones before it known. -/
def Certified : List Nat → List Entry → Prop
  | _, [] => True
  | known, entry :: rest => entry.Holds known ∧ Certified (entry.number :: known) rest

instance decidableCertified : ∀ known entries, Decidable (Certified known entries)
  | _, [] => inferInstanceAs (Decidable True)
  | known, entry :: rest =>
    have := decidableCertified (entry.number :: known) rest
    inferInstanceAs (Decidable (_ ∧ _))

theorem cast_pow_eq_one {m : Nat} (hm : 1 < m) (root exponent : Nat) :
    (root : ZMod m) ^ exponent = 1 ↔ Modular.pow m root exponent = 1 := by
  rw [Modular.pow_eq, ← Nat.cast_pow, ← Nat.cast_one, ZMod.natCast_eq_natCast_iff',
    Nat.mod_eq_of_lt hm]
  rfl

theorem Entry.prime {known : List Nat} {entry : Entry} (hknown : ∀ q ∈ known, q.Prime)
    (h : entry.Holds known) : entry.number.Prime := by
  obtain ⟨hlarge, hprod, hpow, hfactors⟩ := h
  refine lucas_primality entry.number entry.root ((cast_pow_eq_one hlarge _ _).mpr hpow) ?_
  intro q hq hdvd
  obtain ⟨f, hf, hqf⟩ := (Prime.dvd_prod_iff hq.prime).mp (hprod ▸ hdvd)
  obtain ⟨hmem, hne⟩ := hfactors f hf
  obtain rfl := (Nat.prime_dvd_prime_iff_eq hq (hknown f hmem)).mp hqf
  exact fun hone => hne ((cast_pow_eq_one hlarge _ _).mp hone)

theorem prime_of_certified {known : List Nat} {entries : List Entry}
    (hknown : ∀ q ∈ known, q.Prime) (h : Certified known entries) :
    ∀ q ∈ entries.map Entry.number, q.Prime := by
  induction entries generalizing known with
  | nil => simp
  | cons entry rest ih =>
    have hprime := Entry.prime hknown h.1
    have hrest := ih (List.forall_mem_cons.mpr ⟨hprime, hknown⟩) h.2
    exact List.forall_mem_cons.mpr ⟨hprime, hrest⟩

/-- Found by trial division. -/
def small : List Nat :=
  [2, 3, 5, 7, 11, 17, 29, 31, 41, 53, 59, 97, 109, 149, 293, 461, 631, 797, 971, 1373, 1627,
    2011, 2621, 2657, 4051, 4423, 5323, 7723, 9349, 13441, 16699, 24809, 28181, 41201, 85831,
    96557, 120233, 305873, 1206781, 1627771]

theorem prime_of_small : ∀ q ∈ small, q.Prime := by norm_num [small]

/-- The prime of the coordinates, the order of the curve, and the large primes that they rest on. -/
def certificate : List Entry :=
  [⟨7240687, 3, [2, 3, 1206781]⟩,
    ⟨107590001, 3, [2, 2, 2, 2, 5, 5, 5, 5, 7, 29, 53]⟩,
    ⟨255515944373312847190720520512484175977, 3,
      [2, 2, 2, 7, 7, 11, 1627, 2657, 4423, 41201, 96557, 7240687, 107590001]⟩,
    ⟨13331831, 13, [2, 5, 971, 1373]⟩,
    ⟨173378833005251801, 6, [2, 2, 2, 5, 5, 2621, 24809, 13331831]⟩,
    ⟨22149492674086928081353, 5, [2, 2, 2, 3, 5323, 173378833005251801]⟩,
    ⟨132896956044521568488119, 6, [2, 3, 22149492674086928081353]⟩,
    ⟨205115282021455665897114700593932402728804164701536103180137503955397371, 10,
      [2, 3, 5, 29, 29, 31, 7723, 132896956044521568488119,
        255515944373312847190720520512484175977]⟩,
    ⟨Secp256k1.p, 3,
      [2, 3, 7, 13441, 205115282021455665897114700593932402728804164701536103180137503955397371]⟩,
    ⟨297159362677, 2, [2, 2, 3, 3, 11, 461, 1627771]⟩,
    ⟨545358713, 5, [2, 2, 2, 41, 59, 28181]⟩,
    ⟨29047611873442575647497758179, 2, [2, 293, 305873, 545358713, 297159362677]⟩,
    ⟨341948486974166000522343609283189, 2, [2, 2, 3, 3, 3, 109, 29047611873442575647497758179]⟩,
    ⟨44706919, 6, [2, 3, 797, 9349]⟩,
    ⟨174723607534414371449, 3, [2, 2, 2, 17, 59, 4051, 120233, 44706919]⟩,
    ⟨4681609, 23, [2, 2, 2, 3, 97, 2011]⟩,
    ⟨107361793816595537, 3, [2, 2, 2, 2, 16699, 85831, 4681609]⟩,
    ⟨Secp256k1.n, 7,
      [2, 2, 2, 2, 2, 2, 3, 149, 631, 107361793816595537, 174723607534414371449,
        341948486974166000522343609283189]⟩]

theorem certificate_certified : Certified small certificate := by decide +kernel

end RoundLedger.PrimeTest

namespace RoundLedger.Secp256k1

theorem prime_p : p.Prime :=
  PrimeTest.prime_of_certified PrimeTest.prime_of_small PrimeTest.certificate_certified p
    (by decide +kernel)

theorem prime_n : n.Prime :=
  PrimeTest.prime_of_certified PrimeTest.prime_of_small PrimeTest.certificate_certified n
    (by decide +kernel)

end RoundLedger.Secp256k1
