import RoundLedger.Curve.Group
import RoundLedger.Error
import RoundLedger.Hash.Sha256

/-!
# A verifiable random function

The holder of a secret can compute one output for every input and prove that it is the right
one; whoever has the public key can check the proof. Everything that is hashed starts with
the suite byte and a byte that says what the hash is for.
-/

namespace RoundLedger.Vrf

variable {P : Type} (g : Group P)

def suite : UInt8 := 0xfe

def scalar? (bytes : Bytes) : Option Nat :=
  let v := BigEndian.decode bytes
  if v < g.order then some v else none

/-! ## Hashes -/

/-- The point with an even `y` at a hash of the key and the input, for the first counter that
gives one. -/
def hashToCurve (key : P) (alpha : Bytes) : Except VrfError P :=
  let candidate (counter : Nat) :=
    g.decode (2 :: Sha256.hash ([suite, 1] ++ g.encode key ++ alpha ++ [UInt8.ofNat counter]))
  match (List.range 256).findSome? candidate with
  | some point => .ok point
  | none => .error .hashToCurve

def challenge (points : List P) : Nat :=
  BigEndian.decode ((Sha256.hash ([suite, 2] ++ points.flatMap g.encode)).take 16)

def output (gamma : P) : Bytes := Sha256.hash ([suite, 3] ++ g.encode gamma)

/-! ## Proofs -/

structure Proof (P : Type) where
  gamma : P
  challenge : Nat
  response : Nat

def Proof.encode (proof : Proof P) : Bytes :=
  g.encode proof.gamma ++ BigEndian.encode 16 proof.challenge ++ BigEndian.encode 32 proof.response

def Proof.decode (bytes : Bytes) : Except VrfError (Proof P) :=
  if bytes.length = 81 then
    match g.decode (bytes.take 33), scalar? g ((bytes.drop 33).take 16), scalar? g (bytes.drop 49) with
    | some gamma, some challenge, some response => .ok { gamma, challenge, response }
    | _, _, _ => .error .malformedProof
  else .error .malformedProof

/-! ## Keys, proving and checking -/

def secretScalar (secret : Bytes) : Except VrfError Nat :=
  match scalar? g secret with
  | some x => .ok x
  | none => .error .invalidPublicKey

def publicKey (secret : Bytes) : Except VrfError Bytes := do
  let x ← secretScalar g secret
  return g.encode (g.mul x g.generator)

/-- The proof for an input and its output. The nonce is a hash of the secret and the hashed
point, so that equal inputs get equal proofs. -/
def prove (secret alpha : Bytes) : Except VrfError (Proof P × Bytes) := do
  let x ← secretScalar g secret
  let h ← hashToCurve g (g.mul x g.generator) alpha
  let gamma := g.mul x h
  let nonce := BigEndian.decode (Sha256.hash (secret ++ g.encode h)) % g.order
  let c := challenge g [h, gamma, g.mul nonce g.generator, g.mul nonce h]
  return ({ gamma, challenge := c, response := (nonce + c * x) % g.order }, output g gamma)

/-- The output, if the proof shows that it belongs to the key and the input. -/
def verify (publicKey alpha proof : Bytes) : Except VrfError Bytes := do
  let some key := g.decode publicKey | throw .invalidPublicKey
  let proof ← Proof.decode g proof
  let h ← hashToCurve g key alpha
  let u := g.add (g.mul proof.response g.generator) (g.neg (g.mul proof.challenge key))
  let v := g.add (g.mul proof.response h) (g.neg (g.mul proof.challenge proof.gamma))
  if challenge g [h, proof.gamma, u, v] = proof.challenge then return output g proof.gamma
  else throw .verificationFailed

end RoundLedger.Vrf
