import RoundLedger.State
import RoundLedger.Transaction

/-!
# Admission

Chooses which collected transactions run. Of each sender it takes the run of nonces that starts
at the account's, as far as the balance covers the fees, and charges the fees at once. The
admitted transactions come in levels: the first of every sender by ascending address, then the
second of every sender, and so on.
-/

namespace RoundLedger

inductive DiscardReason
  | gasPriceTooLow
  | gasLimitTooHigh
  /-- Another transaction with the same sender and nonce was chosen. -/
  | duplicateNonce
  | staleNonce
  | unaffordable
  /-- Waited too long behind a missing nonce. -/
  | expired
  deriving DecidableEq, Repr

namespace DiscardReason

def all : List DiscardReason :=
  [gasPriceTooLow, gasLimitTooHigh, duplicateNonce, staleNonce, unaffordable, expired]

def label : DiscardReason → String
  | gasPriceTooLow => "gas_price_too_low"
  | gasLimitTooHigh => "gas_limit_too_high"
  | duplicateNonce => "duplicate_nonce"
  | staleNonce => "stale_nonce"
  | unaffordable => "unaffordable"
  | expired => "expired"

end DiscardReason

structure Discard where
  reason : DiscardReason
  tx : Transaction
  deriving DecidableEq, Repr

structure Admission where
  /-- In the order in which they are to be queued. -/
  admitted : List Transaction := []
  /-- Behind a missing nonce, to be tried again. -/
  deferred : List Transaction := []
  /-- The senders that were charged, ascending. -/
  touched : List Address := []
  discarded : List Discard := []
  deriving DecidableEq, Repr

def Admission.count (a : Admission) (reason : DiscardReason) : Nat :=
  a.discarded.countP (·.reason = reason)

namespace Admission

/-! ## Candidates -/

abbrev Nonces := Std.ExtTreeMap UInt64 Transaction compare

abbrev Candidates := Std.ExtTreeMap Address Nonces compare

/-- Of two transactions with one sender and nonce, the one with the lower hash stays; the first
stays when the hashes are equal. Answers the one that stays and the one that goes. -/
def choose (held tx : Transaction) : Transaction × Transaction :=
  if tx.hash < held.hash then (tx, held) else (held, tx)

/-- Adds a transaction to the candidates, or discards it or the one it beats. -/
def enter (candidates : Candidates) (tx : Transaction) : Candidates × List Discard :=
  let nonces := candidates.getD tx.sender ∅
  match nonces[tx.nonce]? with
  | none => (candidates.insert tx.sender (nonces.insert tx.nonce tx), [])
  | some held =>
    let (stays, goes) := choose held tx
    (candidates.insert tx.sender (nonces.insert tx.nonce stays), [⟨.duplicateNonce, goes⟩])

def gather (minGasPrice : Word) (maxGasLimit : UInt64) :
    List Transaction → Candidates → Candidates × List Discard
  | [], candidates => (candidates, [])
  | tx :: rest, candidates =>
    let (candidates, now) :=
      if tx.gasPrice < minGasPrice then (candidates, [⟨.gasPriceTooLow, tx⟩])
      else if maxGasLimit < tx.gasLimit then (candidates, [⟨.gasLimitTooHigh, tx⟩])
      else enter candidates tx
    let (candidates, later) := gather minGasPrice maxGasLimit rest candidates
    (candidates, now ++ later)

/-! ## One sender -/

inductive Phase
  /-- The next nonce is still to come. -/
  | running
  /-- A fee was not covered. -/
  | broke
  /-- A nonce is missing. -/
  | waiting
  deriving DecidableEq, Repr

structure Share where
  balance : Word
  nextNonce : UInt64
  phase : Phase := .running
  run : List Transaction := []
  deferred : List Transaction := []
  discarded : List Discard := []

namespace Share

def discard (s : Share) (reason : DiscardReason) (tx : Transaction) : Share :=
  { s with discarded := s.discarded ++ [⟨reason, tx⟩] }

def defer (s : Share) (tx : Transaction) : Share :=
  { s with phase := .waiting, deferred := s.deferred ++ [tx] }

def charge (s : Share) (tx : Transaction) : Except Fault Share :=
  match tx.maxFee with
  | none => .ok { s.discard .unaffordable tx with phase := .broke }
  | some fee =>
    if s.balance < fee then .ok { s.discard .unaffordable tx with phase := .broke }
    else
      match s.nextNonce.add? 1 with
      | none => .error .sumTooLarge
      | some nextNonce =>
        .ok { s with balance := s.balance - fee, nextNonce, run := s.run ++ [tx] }

/-- Takes the next candidate, by ascending nonce. -/
def take (s : Share) (tx : Transaction) : Except Fault Share :=
  if tx.nonce < s.nextNonce then .ok (s.discard .staleNonce tx)
  else
    match s.phase with
    | .broke => .ok (s.discard .unaffordable tx)
    | .waiting => .ok (s.defer tx)
    | .running => if s.nextNonce < tx.nonce then .ok (s.defer tx) else s.charge tx

end Share

def admitSender (sender : Address) (candidates : List Transaction) : Program Share := do
  match ← State.account sender with
  | none =>
    return { balance := 0, nextNonce := 0, discarded := candidates.map (⟨.unaffordable, ·⟩) }
  | some account =>
    let start : Share := { balance := account.balance, nextNonce := account.nonce }
    let share ← Program.ofExcept (candidates.foldlM Share.take start)
    if share.run ≠ [] then
      State.setAccount sender { account with balance := share.balance }
    return share

def admitSenders : List (Address × Nonces) → Program (List (Address × Share))
  | [] => return []
  | (sender, nonces) :: rest => do
    let share ← admitSender sender (nonces.toList.map (·.2))
    let shares ← admitSenders rest
    return (sender, share) :: shares

/-! ## All senders -/

/-- The first item of every list, then the second of every list, and so on. -/
def interleave {α : Type} (runs : List (List α)) : List α :=
  let depth := runs.foldl (fun depth run => max depth run.length) 0
  (List.range depth).flatMap fun level => runs.filterMap fun run => run[level]?

def select (collected : List Transaction) (minGasPrice : Word) (maxGasLimit : UInt64) :
    Program Admission := do
  let (candidates, discarded) := gather minGasPrice maxGasLimit collected ∅
  let shares ← admitSenders candidates.toList
  return {
    admitted := interleave (shares.map (·.2.run))
    deferred := shares.flatMap (·.2.deferred)
    touched := (shares.filter (·.2.run ≠ [])).map (·.1)
    discarded := discarded ++ shares.flatMap (·.2.discarded) }

end Admission

end RoundLedger
