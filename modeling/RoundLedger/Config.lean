import RoundLedger.Bytes
import RoundLedger.Error
import RoundLedger.Gas
import RoundLedger.Json.Reader

/-!
# Engine configuration

Six values with defaults, and the JSON file they are kept in. A file may leave fields out, or
give the values as an array in order; fields that are not known are passed over.
-/

namespace RoundLedger

structure EngineConfig where
  rounds : UInt64 := 10
  /-- The most entries taken in one round. -/
  batch : UInt64 := 100
  workers : UInt64 := 32
  /-- The room made for collected transactions. -/
  collectedCapacity : UInt64 := 100
  slots : UInt64 := 256
  policy : GasPolicy := {}
  deriving DecidableEq, Repr

namespace EngineConfig

/-! ## Checking -/

def atLeastOne (field : String) (n : UInt64) : Except ConfigError Unit :=
  if n = 0 then .error (.invalidValue field "must be at least 1") else .ok ()

/-- Whether the engine can run with these values. The first bad one is reported. -/
def validate (c : EngineConfig) : Except ConfigError Unit := do
  atLeastOne "exe_round_count" c.rounds
  atLeastOne "runner_count" c.batch
  atLeastOne "parallel_num" c.workers
  atLeastOne "adhoc_runner_count" c.slots

/-! ## Writing -/

def json (c : EngineConfig) : Json :=
  .record
    [("exe_round_count", .ofNat c.rounds.toNat),
      ("runner_count", .ofNat c.batch.toNat),
      ("parallel_num", .ofNat c.workers.toNat),
      ("default_tx_list_cap", .ofNat c.collectedCapacity.toNat),
      ("adhoc_runner_count", .ofNat c.slots.toNat),
      ("gas_policy", .record [("smoothing", .bool c.policy.smoothing)])]

def save (c : EngineConfig) : String := String.ofList (Json.pretty 0 c.json)

/-! ## Reading -/

/-- A field of an object; a missing one has its default. -/
def field {α : Type} (fields : List (Option String × Json)) (name : String)
    (read : Json → Option α) (default : α) : Option α := do
  match ← Json.uniqueField fields name with
  | none => some default
  | some value => read value

/-- An item of an array; one past the end has its default. -/
def item {α : Type} (items : List Json) (index : Nat) (read : Json → Option α) (default : α) :
    Option α :=
  (items[index]?).elim (some default) read

def readPolicy : Json → Option GasPolicy
  | .object fields => do
    guard (fields.all fun f => f.1.isSome)
    some { smoothing := ← field fields "smoothing" Json.bool? false }
  | .array items => do
    guard (items.length ≤ 1)
    some { smoothing := ← item items 0 Json.bool? false }
  | _ => none

def ofJson? : Json → Option EngineConfig
  | .object fields => do
    guard (fields.all fun f => f.1.isSome)
    let rounds ← field fields "exe_round_count" Json.count? 10
    let batch ← field fields "runner_count" Json.count? 100
    let workers ← field fields "parallel_num" Json.count? 32
    let collectedCapacity ← field fields "default_tx_list_cap" Json.count? 100
    let slots ← field fields "adhoc_runner_count" Json.count? 256
    let policy ← field fields "gas_policy" readPolicy {}
    some { rounds, batch, workers, collectedCapacity, slots, policy }
  | .array items => do
    guard (items.length ≤ 6)
    let rounds ← item items 0 Json.count? 10
    let batch ← item items 1 Json.count? 100
    let workers ← item items 2 Json.count? 32
    let collectedCapacity ← item items 3 Json.count? 100
    let slots ← item items 4 Json.count? 256
    let policy ← item items 5 readPolicy {}
    some { rounds, batch, workers, collectedCapacity, slots, policy }
  | _ => none

def parse (text : String) : Except ConfigError EngineConfig := do
  match (Json.parse? text.toList).bind ofJson? with
  | none => throw .malformed
  | some c =>
    c.validate
    return c

/-- Reads and checks a file; there is no content when the file is missing. -/
def load (content : Option Bytes) : Except ConfigError EngineConfig :=
  match content.bind fun bytes => String.fromUTF8? ⟨bytes.toArray⟩ with
  | none => .error .unreadable
  | some text => parse text

end EngineConfig

end RoundLedger
