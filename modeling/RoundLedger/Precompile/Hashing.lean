import RoundLedger.Hash.Blake2
import RoundLedger.Hash.Ripemd160
import RoundLedger.Hash.Sha256
import RoundLedger.Precompile.Table

/-!
# Standard precompiles on byte strings

Two hashes, the identity and one block of BLAKE2b.
-/

namespace RoundLedger.StandardPrecompile

/-- Runs at a price that is known from the input: the answer is computed only if the limit
covers it. -/
def priced (price limit : UInt64) (answer : Unit → Option Bytes) : StandardResult :=
  if limit < price then .outOfGas
  else match answer () with
    | some output => .returned price output
    | none => .rejected

/-- A base price and one for every word that is begun. -/
def wordPrice (base each : UInt64) (input : Bytes) : UInt64 :=
  base + each * UInt64.ofNat ((input.length + 31) / 32)

def sha256 : StandardPrecompile := fun input limit =>
  priced (wordPrice 60 12 input) limit fun _ => some (Sha256.hash input)

/-- The hash of 20 bytes in the low end of a word. -/
def ripemd160 : StandardPrecompile := fun input limit =>
  priced (wordPrice 600 120 input) limit fun _ => some (Bytes.padLeft (Ripemd160.hash input) 32)

def identity : StandardPrecompile := fun input limit =>
  priced (wordPrice 15 3 input) limit fun _ => some input

def littleWords (bytes : Bytes) : List UInt64 :=
  (Bytes.chunks 8 bytes).map fun word => UInt64.ofNat (LittleEndian.decode word)

/-- The input is the number of rounds (4 bytes), the state (64), the block (128), two counters
of 8 bytes and the flag of the last block. A round costs one. A wrong length is rejected before
the price is asked for, a flag other than 0 and 1 after it. -/
def blake2 : StandardPrecompile := fun input limit =>
  if input.length = 213 then
    let count := BigEndian.decode (input.take 4)
    priced (UInt64.ofNat count) limit fun _ =>
      let compressed (final : Bool) :=
        let counters := littleWords ((input.drop 196).take 16)
        Blake2.compress count (littleWords ((input.drop 4).take 64))
          (littleWords ((input.drop 68).take 128)) (counters.getD 0 0) (counters.getD 1 0) final
      match input.drop 212 with
      | [0] => some ((compressed false).flatMap fun w => LittleEndian.encode 8 w.toNat)
      | [1] => some ((compressed true).flatMap fun w => LittleEndian.encode 8 w.toNat)
      | _ => none
  else .rejected

end RoundLedger.StandardPrecompile
