/-!
# Errors that are reported

What goes wrong outside transactions: a configuration that cannot be used, and native
contracts that fail.
-/

namespace RoundLedger

inductive ConfigError
  /-- A field holds a value the engine cannot run with. -/
  | invalidValue (field reason : String)
  /-- The file cannot be read as text. -/
  | unreadable
  /-- The text is no configuration. -/
  | malformed
  deriving DecidableEq, Repr

/-- The wording, where it is the ledger's own. -/
def ConfigError.message? : ConfigError → Option String
  | invalidValue field reason => some ("invalid value for `" ++ field ++ "`: " ++ reason)
  | unreadable => none
  | malformed => none

inductive ExecutionError
  | config (cause : ConfigError)
  | threadPool (reason : String)
  | precompile (reason : String)
  | internal (reason : String)
  deriving DecidableEq, Repr

def ExecutionError.message : ExecutionError → String
  | config cause => "Configuration error: " ++ cause.message?.getD ""
  | threadPool reason => "Thread pool error: " ++ reason
  | precompile reason => "Precompile error: " ++ reason
  | internal reason => "Internal error: " ++ reason

inductive VrfError
  | inputTooShort (length : Nat)
  | invalidPublicKey
  | malformedProof
  | hashToCurve
  | verificationFailed
  deriving DecidableEq, Repr

def VrfError.message : VrfError → String
  | inputTooShort length => s!"input too short: {length} bytes"
  | invalidPublicKey => "invalid public key"
  | malformedProof => "malformed proof"
  | hashToCurve => "hash to curve failed"
  | verificationFailed => "proof verification failed"

end RoundLedger
