import RoundLedger.Precompile.VrfCheck
import RoundLedger.Proofs.PointCodec

/-!
# Proofs of the verifiable random function

A proof made with a secret convinces whoever holds the secret's key. The maker hashes two multiples
by a nonce, the checker takes the same two points from the challenge and the response. The key and
the proofs of every scalar but zero can be read; those of zero cannot.
-/

namespace RoundLedger.Vrf

section Lawful

variable {P A : Type} [AddCommGroup A] {g : Group P} {point : A → P}

/-! ## Scalars and points -/

theorem secretScalar_of_lt {secret : Bytes} (h : BigEndian.decode secret < g.order) :
    secretScalar g secret = .ok (BigEndian.decode secret) := by
  rw [secretScalar, scalar?, if_pos h]

theorem secretScalar_of_le {secret : Bytes} (h : g.order ≤ BigEndian.decode secret) :
    secretScalar g secret = .error .invalidPublicKey := by
  rw [secretScalar, scalar?, if_neg (Nat.not_lt.mpr h)]

theorem challenge_lt (points : List P) : challenge g points < BigEndian.limit 16 := by
  have hlength (message : Bytes) : ((Sha256.hash message).take 16).length = 16 := by
    simp [Sha256.hash]
  exact (BigEndian.decode_lt _).trans_eq (congrArg BigEndian.limit (hlength _))

theorem hashToCurve_cases (laws : g.Lawful point) (key : P) (alpha : Bytes) :
    hashToCurve g key alpha = .error .hashToCurve
      ∨ ∃ a, a ≠ 0 ∧ hashToCurve g key alpha = .ok (point a) := by
  rw [hashToCurve]
  split
  · next q hfound =>
    obtain ⟨counter, -, hdecode⟩ := List.exists_of_findSome?_eq_some hfound
    obtain ⟨a, ha, rfl⟩ := laws.exists_of_decode _ _ hdecode
    exact .inr ⟨a, ha, rfl⟩
  · exact .inl rfl

/-! ## Making a proof -/

def nonce (g : Group P) (secret : Bytes) (h : P) : Nat :=
  BigEndian.decode (Sha256.hash (secret ++ g.encode h)) % g.order

/-- The proof for an input that is hashed to the point. -/
def proofAt (g : Group P) (secret : Bytes) (x : Nat) (h : P) : Proof P :=
  let k := nonce g secret h
  let c := challenge g [h, g.mul x h, g.mul k g.generator, g.mul k h]
  { gamma := g.mul x h, challenge := c, response := (k + c * x) % g.order }

theorem publicKey_eq {secret : Bytes} (hlt : BigEndian.decode secret < g.order) :
    publicKey g secret = .ok (g.encode (g.mul (BigEndian.decode secret) g.generator)) := by
  rw [publicKey, secretScalar_of_lt hlt]
  rfl

theorem prove_eq {secret : Bytes} (hlt : BigEndian.decode secret < g.order) (alpha : Bytes) :
    prove g secret alpha =
      (hashToCurve g (g.mul (BigEndian.decode secret) g.generator) alpha).map fun h =>
        (proofAt g secret (BigEndian.decode secret) h,
          output g (g.mul (BigEndian.decode secret) h)) := by
  rw [prove, secretScalar_of_lt hlt]
  simp only [bind, Except.bind]
  cases hashToCurve g (g.mul (BigEndian.decode secret) g.generator) alpha <;> rfl

theorem prove_cases (laws : g.Lawful point) {secret : Bytes}
    (hlt : BigEndian.decode secret < g.order) (alpha : Bytes) :
    prove g secret alpha = .error .hashToCurve
      ∨ ∃ a, a ≠ 0
        ∧ hashToCurve g (g.mul (BigEndian.decode secret) g.generator) alpha = .ok (point a)
        ∧ prove g secret alpha = .ok (proofAt g secret (BigEndian.decode secret) (point a),
            output g (g.mul (BigEndian.decode secret) (point a))) := by
  rw [prove_eq hlt]
  obtain herror | ⟨a, ha, hhash⟩ := hashToCurve_cases laws
    (g.mul (BigEndian.decode secret) g.generator) alpha
  · rw [herror]
    exact .inl rfl
  · exact .inr ⟨a, ha, hhash, by rw [hhash]; rfl⟩

theorem refused {secret : Bytes} (hle : g.order ≤ BigEndian.decode secret) :
    publicKey g secret = .error .invalidPublicKey
      ∧ ∀ alpha, prove g secret alpha = .error .invalidPublicKey := by
  rw [publicKey, secretScalar_of_le hle]
  refine ⟨rfl, fun alpha => ?_⟩
  rw [prove, secretScalar_of_le hle]
  rfl

/-! ## Reading keys and proofs -/

theorem Proof.length_encode (laws : g.Lawful point) (proof : Proof P) :
    (proof.encode g).length = 81 := by
  simp [Proof.encode, laws.length_encode]

theorem Proof.decode_eq (laws : g.Lawful point) {proof : Proof P}
    (hchallenge : proof.challenge < BigEndian.limit 16) (hresponse : proof.response < g.order) :
    Proof.decode g (proof.encode g) =
      (g.decode (g.encode proof.gamma)).elim (.error .malformedProof) fun gamma =>
        .ok { proof with gamma } := by
  have hlength : (g.encode proof.gamma).length = 33 := laws.length_encode _
  have hscalar : scalar? g (BigEndian.encode 16 proof.challenge) = some proof.challenge := by
    rw [scalar?, BigEndian.decode_encode, Nat.mod_eq_of_lt hchallenge,
      if_pos (hchallenge.trans_le laws.le_order)]
  have hscalar' : scalar? g (BigEndian.encode 32 proof.response) = some proof.response := by
    rw [scalar?, BigEndian.decode_encode, Nat.mod_eq_of_lt (hresponse.trans_le laws.order_le),
      if_pos hresponse]
  rw [Proof.decode, if_pos (Proof.length_encode laws proof), Proof.encode, List.append_assoc,
    List.take_left' hlength, List.drop_left' hlength,
    List.take_left' (BigEndian.length_encode 16 _), ← List.append_assoc,
    List.drop_left' (by simp [hlength]), hscalar, hscalar']
  cases g.decode (g.encode proof.gamma) <;> rfl

theorem decode_key (laws : g.Lawful point) {x : Nat} (hlt : x < g.order) :
    g.decode (g.encode (g.mul x g.generator)) =
      if x = 0 then none else some (g.mul x g.generator) := by
  obtain ⟨base, hbase, hgenerator⟩ := laws.generator
  rw [← hgenerator, laws.decode_multiple hbase hlt]

theorem decode_proofAt (laws : g.Lawful point) (secret : Bytes) {x : Nat} (hlt : x < g.order)
    {a : A} (ha : a ≠ 0) :
    Proof.decode g ((proofAt g secret x (point a)).encode g) =
      if x = 0 then .error .malformedProof else .ok (proofAt g secret x (point a)) := by
  have hgamma : g.decode (g.encode (proofAt g secret x (point a)).gamma) = _ :=
    laws.decode_multiple ha hlt
  rw [Proof.decode_eq laws (challenge_lt _) (Nat.mod_lt _ laws.prime.pos), hgamma]
  by_cases hzero : x = 0
  · rw [if_pos hzero, if_pos hzero, Option.elim_none]
  · rw [if_neg hzero, if_neg hzero, Option.elim_some]
    rfl

/-! ## Checking a proof -/

/-- What the checker takes from the challenge and the response is the multiple by the nonce. -/
theorem commitment (laws : g.Lawful point) (secret : Bytes) (x : Nat) (h : P) (a : A) :
    g.add (g.mul (proofAt g secret x h).response (point a))
        (g.neg (g.mul (proofAt g secret x h).challenge (g.mul x (point a)))) =
      g.mul (nonce g secret h) (point a) := by
  have hresponse : (proofAt g secret x h).response =
      (nonce g secret h + (proofAt g secret x h).challenge * x) % g.order := rfl
  rw [hresponse, laws.mul, laws.mul, laws.mul, laws.mul, laws.neg, laws.add, laws.mod_smul,
    add_nsmul, mul_nsmul', add_neg_cancel_right]

theorem verify_proofAt (laws : g.Lawful point) (secret alpha : Bytes) {x : Nat} (hpos : x ≠ 0)
    (hlt : x < g.order) {h : P} (hhash : hashToCurve g (g.mul x g.generator) alpha = .ok h) :
    verify g (g.encode (g.mul x g.generator)) alpha ((proofAt g secret x h).encode g) =
      .ok (output g (g.mul x h)) := by
  obtain ⟨base, hbase, hgenerator⟩ := laws.generator
  obtain herror | ⟨a, ha, hpoint⟩ := hashToCurve_cases laws (g.mul x g.generator) alpha
  · rw [herror] at hhash
    contradiction
  obtain rfl : point a = h := Except.ok.inj (hpoint.symm.trans hhash)
  have hkey : g.decode (g.encode (g.mul x g.generator)) = some (g.mul x g.generator) := by
    rw [decode_key laws hlt, if_neg hpos]
  have hproof := decode_proofAt laws secret hlt ha
  rw [if_neg hpos] at hproof
  have hu := commitment laws secret x (point a) base
  have hv := commitment laws secret x (point a) a
  have hgamma : (proofAt g secret x (point a)).gamma = g.mul x (point a) := rfl
  rw [hgenerator] at hu
  rw [verify, hkey]
  simp only [hproof, hhash, bind, Except.bind, pure, Except.pure, hgamma, hu, hv]
  exact if_pos rfl

/-- Input, key and proof are told apart by their widths. -/
theorem run_append {alpha key proof : Bytes} (halpha : alpha.length = 32) (hkey : key.length = 33)
    (hproof : proof.length = 81) :
    VrfCheck.run g (alpha ++ key ++ proof) =
      (verify g key alpha proof).mapError fun e => .precompile e.message := by
  have hlong : ¬(alpha ++ key ++ proof).length ≤ 65 := by
    simp only [List.length_append, halpha, hkey, hproof]
    decide
  have hfront : (alpha ++ key).length = 65 := by rw [List.length_append, halpha, hkey]
  rw [VrfCheck.run, if_neg hlong, List.drop_left' hfront, List.append_assoc,
    List.take_left' halpha, List.drop_left' halpha, List.take_left' hkey]

end Lawful

open Secp256k1

/-- A proof made with the secret of a scalar other than zero convinces the holder of its key, and
the checking contract. -/
theorem proof_convinces (secret alpha : Bytes) (proof : Proof Secp256k1.Point) (beta : Bytes)
    (hpos : 0 < BigEndian.decode secret) (hprove : prove group secret alpha = .ok (proof, beta)) :
    ∃ key, publicKey group secret = .ok key
      ∧ verify group key alpha (proof.encode group) = .ok beta
      ∧ (alpha.length = 32 →
          VrfCheck.run group (alpha ++ key ++ proof.encode group) = .ok beta) := by
  have hlt : BigEndian.decode secret < group.order := by
    by_contra hge
    rw [(refused (Nat.not_lt.mp hge)).2 alpha] at hprove
    contradiction
  obtain herror | ⟨a, ha, hhash, hmade⟩ := prove_cases lawful hlt alpha
  · rw [herror] at hprove
    contradiction
  obtain ⟨rfl, rfl⟩ := Prod.mk.inj (Except.ok.inj (hmade.symm.trans hprove))
  have hverify := verify_proofAt lawful secret alpha hpos.ne' hlt hhash
  refine ⟨_, publicKey_eq hlt, hverify, fun halpha => ?_⟩
  rw [run_append halpha (lawful.length_encode _) (Proof.length_encode lawful _), hverify]
  rfl

theorem two_convinces : ∃ key proof beta,
    publicKey group (BigEndian.encode 32 2) = .ok key
      ∧ prove group (BigEndian.encode 32 2) (List.replicate 32 7) = .ok (proof, beta)
      ∧ VrfCheck.run group (List.replicate 32 7 ++ key ++ proof.encode group) = .ok beta := by
  have hmade : (prove group (BigEndian.encode 32 2) (List.replicate 32 7)).isOk = true := by
    decide +kernel
  cases hprove : prove group (BigEndian.encode 32 2) (List.replicate 32 7) with
  | error e =>
    rw [hprove] at hmade
    contradiction
  | ok made =>
    obtain ⟨key, hkey, -, hrun⟩ := proof_convinces _ _ made.1 made.2 (by decide +kernel) hprove
    exact ⟨key, made.1, made.2, hkey, rfl, hrun (by decide)⟩

/-- What a secret is good for. Numbers from the order on are refused. Of the others zero alone gets
a key and proofs that cannot be read. -/
theorem keys_readable_iff (secret : Bytes) :
    (n ≤ BigEndian.decode secret
      ∧ publicKey group secret = .error .invalidPublicKey
      ∧ ∀ alpha, prove group secret alpha = .error .invalidPublicKey)
    ∨ (BigEndian.decode secret < n
      ∧ (∃ key, publicKey group secret = .ok key
          ∧ key.length = 33
          ∧ decode key =
              if BigEndian.decode secret = 0 then none
              else some (generator.mul (BigEndian.decode secret)))
      ∧ ∀ alpha, prove group secret alpha = .error .hashToCurve
          ∨ ∃ proof beta, prove group secret alpha = .ok (proof, beta)
            ∧ Proof.decode group (proof.encode group) =
                if BigEndian.decode secret = 0 then .error .malformedProof else .ok proof) := by
  obtain hge | hlt := le_or_gt n (BigEndian.decode secret)
  · exact .inl ⟨hge, refused hge⟩
  · have hkey := decode_key lawful hlt
    refine .inr ⟨hlt, ⟨_, publicKey_eq hlt, length_encode _, hkey⟩, fun alpha => ?_⟩
    obtain herror | ⟨a, ha, -, hmade⟩ := prove_cases lawful hlt alpha
    · exact .inl herror
    · exact .inr ⟨_, _, hmade, decode_proofAt lawful secret hlt ha⟩

/-- The secret zero is not refused, and neither its key nor its proofs can be read. -/
theorem zero_unreadable :
    publicKey group (BigEndian.encode 32 0) = .ok (List.replicate 33 0)
      ∧ decode (List.replicate 33 0) = none
      ∧ ((prove group (BigEndian.encode 32 0) []).map fun made =>
          (Proof.decode group (made.1.encode group)).isOk) = .ok false := by
  decide +kernel

end RoundLedger.Vrf
