import RoundLedger.Precompile.Table
import RoundLedger.Vrf

/-!
# The checking contract of the verifiable random function

Its input is the function's input (32 bytes), the public key (33) and the proof.
-/

namespace RoundLedger.VrfCheck

def address : Address := 0x2713

def price : UInt64 := 5000

variable {P : Type} (g : Group P)

def run (input : Bytes) : Except ExecutionError Bytes :=
  let answer :=
    if input.length ≤ 65 then .error (.inputTooShort input.length)
    else Vrf.verify g ((input.drop 32).take 33) (input.take 32) (input.drop 65)
  answer.mapError fun e => .precompile e.message

/-- Every check has the same price. -/
def contract : NativeContract := { requiredGas := fun _ => price, run := run g }

end RoundLedger.VrfCheck
