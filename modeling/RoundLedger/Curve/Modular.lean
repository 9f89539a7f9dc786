import RoundLedger.Bytes

/-!
# Powers and inverses modulo a number
-/

namespace RoundLedger.Modular

/-- `base ^ exponent` modulo `m`, by squaring. -/
def pow (m base exponent : Nat) : Nat :=
  if exponent = 0 then 1 % m
  else
    let half := pow m (base * base % m) (exponent / 2)
    if exponent % 2 = 1 then base * half % m else half
termination_by exponent

theorem pow_eq (m base exponent : Nat) : pow m base exponent = Nat.pow base exponent % m := by
  change pow m base exponent = base ^ exponent % m
  induction base, exponent using pow.induct m with
  | case1 base => simp [pow]
  | case2 base exponent hne hodd ih =>
    have hsplit : base ^ exponent = base * (base * base) ^ (exponent / 2) := by
      rw [← Nat.pow_two, ← Nat.pow_mul, Nat.mul_comm base, ← Nat.pow_succ]
      congr 1
      omega
    rw [pow, if_neg hne]
    simp only [hodd, if_true, ih]
    rw [hsplit, Nat.mul_mod base, Nat.mod_mod, ← Nat.pow_mod, ← Nat.mul_mod]
  | case3 base exponent hne heven ih =>
    have hsplit : base ^ exponent = (base * base) ^ (exponent / 2) := by
      rw [← Nat.pow_two, ← Nat.pow_mul]
      congr 1
      omega
    rw [pow, if_neg hne]
    simp only [heven, if_false, ih]
    rw [hsplit, ← Nat.pow_mod]

/-- The remainder of the number that the bytes write, most significant first. -/
def residue (m : Nat) (bytes : Bytes) : Nat := bytes.foldl (fun n b => (n * 256 + b.toNat) % m) 0

theorem residue_eq (m : Nat) (bytes : Bytes) : residue m bytes = BigEndian.decode bytes % m := by
  suffices h : ∀ k, bytes.foldl (fun n b => (n * 256 + b.toNat) % m) (k % m)
      = bytes.foldl (fun n b => n * 256 + b.toNat) k % m by
    have hzero := h 0
    rwa [Nat.zero_mod] at hzero
  induction bytes with
  | nil => exact fun _ => rfl
  | cons b rest ih =>
    intro k
    have hstep : (k % m * 256 + b.toNat) % m = (k * 256 + b.toNat) % m := by
      rw [Nat.add_mod, Nat.mod_mul_mod, ← Nat.add_mod]
    rw [List.foldl_cons, List.foldl_cons, hstep, ih]

/-- The power whose exponent is the number that the bytes write, most significant first. Each byte
raises what the bytes before it gave to the power 256. -/
def powBytes (m base : Nat) (exponent : Bytes) : Nat :=
  exponent.foldl (fun power b => pow m power 256 * pow m base b.toNat % m) (1 % m)

theorem powBytes_eq (m base : Nat) (exponent : Bytes) :
    powBytes m base exponent = pow m base (BigEndian.decode exponent) := by
  suffices h : ∀ k, exponent.foldl (fun power b => pow m power 256 * pow m base b.toNat % m)
      (base ^ k % m) = base ^ exponent.foldl (fun n b => n * 256 + b.toNat) k % m by
    rw [pow_eq]
    exact h 0
  induction exponent with
  | nil => intro k; rfl
  | cons b rest ih =>
    intro k
    have hstep : pow m (base ^ k % m) 256 * pow m base b.toNat % m
        = base ^ (k * 256 + b.toNat) % m := by
      rw [pow_eq, pow_eq]
      change (base ^ k % m) ^ 256 % m * (base ^ b.toNat % m) % m = _
      rw [← Nat.pow_mod, ← Nat.mul_mod, ← Nat.pow_mul, ← Nat.pow_add]
    rw [List.foldl_cons, List.foldl_cons, hstep, ih]

/-- The steps of Euclid's algorithm on `a` and `b`, keeping `x` and `y` with
`x * start = a` and `y * start = b` modulo `m`. Answers the multiplier of the last remainder. -/
def euclid (m a b x y : Nat) : Nat :=
  if b = 0 then x else euclid m b (a % b) y ((x + (m - a / b * y % m)) % m)
termination_by b
decreasing_by exact Nat.mod_lt _ (by omega)

/-- The inverse of a number that has none in common with `m`; zero for zero. -/
def inverse (m n : Nat) : Nat := if n % m = 0 then 0 else euclid m m (n % m) 0 1

end RoundLedger.Modular
