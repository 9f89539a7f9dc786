import RoundLedger.Curve.Secp256k1.Recovery
import RoundLedger.Precompile.Hashing

/-!
# The signature precompile

The input is a hash, a number that is 27 or 28, and a signature of two scalars. The output is
the signer's address as a word, or nothing if there is no signer.
-/

namespace RoundLedger.StandardPrecompile

def parity? (v : Bytes) : Option Bool :=
  match BigEndian.decode v with
  | 27 => some false
  | 28 => some true
  | _ => none

def signer? (input : Bytes) : Option Address := do
  let odd ← parity? (input.window 32 32)
  let key ← Secp256k1.recover? (input.window 0 32) odd (BigEndian.decode (input.window 64 32))
    (BigEndian.decode (input.window 96 32))
  return Secp256k1.Point.address key

def recovery : StandardPrecompile := fun input limit =>
  priced 3000 limit fun _ => some <| match signer? input with
    | some address => address.word.bytes
    | none => []

end RoundLedger.StandardPrecompile
