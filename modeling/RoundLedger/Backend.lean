import RoundLedger.Account
import RoundLedger.Precompile.Call
import RoundLedger.Status
import RoundLedger.Transaction

/-!
# Backends and hosts

A backend runs one call at a time. It sees the ledger only through the questions it puts to
its host, and reports what it changed as a change set. So its outcome depends on the request
and on the answers it was given.
-/

namespace RoundLedger

/-! ## Requests -/

abbrev Revision := UInt8

structure CallRequest where
  sender : Address
  /-- Missing for a contract creation. -/
  destination : Option Address
  nonce : UInt64
  value : Word
  gasPrice : Word
  gasLimit : UInt64
  input : Bytes
  block : Block
  revision : Revision
  /-- Whether an estimate of the gas is asked for. -/
  estimate : Bool

/-! ## Outcomes -/

structure Log where
  address : Address
  topics : List Digest
  data : Bytes
  deriving DecidableEq, Repr

inductive CallKind
  | call
  | delegateCall
  | callCode
  | create
  | create2
  deriving DecidableEq, Repr

namespace CallKind

def all : List CallKind := [call, delegateCall, callCode, create, create2]

def name : CallKind → String
  | call => "call"
  | delegateCall => "delegate_call"
  | callCode => "call_code"
  | create => "create"
  | create2 => "create2"

def ofName? (name : String) : Option CallKind := all.find? (·.name = name)

end CallKind

structure InternalCall where
  kind : CallKind
  isStatic : Bool
  depth : UInt32
  gas : UInt64
  destination : Address
  sender : Address
  input : Bytes
  value : Word
  deriving DecidableEq, Repr

structure InternalReturn where
  status : Status
  gasLeft : UInt64
  output : Bytes
  created : Option Address
  deriving DecidableEq, Repr

/-- What a call changed. A change without a new value deletes. -/
structure ChangeSet where
  accounts : List (Address × Option Account) := []
  counters : List (UInt8 × UInt64) := []
  codes : List (Address × Option Code) := []
  storage : List (UInt64 × Digest × Option Bytes) := []
  logs : List Log := []
  calls : List InternalCall := []
  returns : List InternalReturn := []
  /-- The gas refund earned, before it is capped. -/
  refund : UInt64 := 0
  deriving DecidableEq, Repr

structure CallOutcome where
  status : Status
  gasLeft : UInt64
  output : Bytes := []
  created : Option Address := none
  /-- Missing when the call stopped before it touched anything. -/
  changes : Option ChangeSet := none
  gasEstimate : UInt64 := 0
  deriving DecidableEq, Repr

/-! ## Questions to the host -/

inductive Query
  | counter (first : UInt8)
  | account (address : Address)
  | code (address : Address)
  | storage (sequence : UInt64) (slot : Digest)
  | blockHash (number : UInt64)
  /-- Runs the precompile or system contract at an address, if there is one. -/
  | precompile (address : Address) (input : Bytes) (gasLeft : UInt64)
  deriving DecidableEq, Repr

abbrev Query.Answer : Query → Type
  | counter _ => UInt64
  | account _ => Option Account
  | code _ => Option Code
  | storage _ _ => Option Bytes
  | blockHash _ => Digest
  | precompile _ _ _ => Option PrecompileCall

abbrev Exchange := (query : Query) × query.Answer

/-- A computation that may put questions to a host. -/
inductive HostProgram (α : Type) where
  | done (result : α)
  | fail (fault : Fault)
  | ask (query : Query) (next : query.Answer → HostProgram α)

namespace HostProgram

def bind {α β : Type} : HostProgram α → (α → HostProgram β) → HostProgram β
  | done a, f => f a
  | fail fault, _ => fail fault
  | ask query next, f => ask query fun answer => (next answer).bind f

instance : Monad HostProgram where
  pure := done
  bind := bind

def query (q : Query) : HostProgram q.Answer := ask q done

end HostProgram

/-- Runs a call against a host. -/
abbrev Backend := CallRequest → HostProgram CallOutcome

end RoundLedger
