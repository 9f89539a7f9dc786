import RoundLedger.Backend

/-!
# Committed results
-/

namespace RoundLedger

structure CommittedResult where
  tx : Transaction
  hash : Digest
  status : Status
  gasUsed : UInt64 := 0
  feeRefund : Word := 0
  logs : List Log := []
  calls : List InternalCall := []
  returns : List InternalReturn := []
  output : Bytes := []
  contract : Option Address := none
  deriving DecidableEq, Repr

namespace CommittedResult

def terminal (tx : Transaction) (status : Status) : CommittedResult := { tx, hash := tx.hash, status }

def gasFee (r : CommittedResult) : Word := (BitVec.ofNat 256 r.gasUsed.toNat).mulCapped r.tx.gasPrice

end CommittedResult

structure GasTotals where
  used : UInt64 := 0
  refund : Word := 0
  fee : Word := 0
  deriving DecidableEq, Repr

namespace GasTotals

def add (t : GasTotals) (r : CommittedResult) : GasTotals :=
  { used := t.used.addCapped r.gasUsed
    refund := t.refund.addCapped r.feeRefund
    fee := t.fee.addCapped r.gasFee }

def ofResults (results : List CommittedResult) : GasTotals := results.foldl add {}

end GasTotals

end RoundLedger
