import RoundLedger.BlockHashes
import RoundLedger.Metrics
import RoundLedger.Program

/-!
# Nodes and sessions

A node is all that lasts between steps: the store with its overlays, the hashes of recent
blocks, the meters and the journal of what backends asked. A session is a step of a node; when
it stops with a fault, the node stays as it was reached.
-/

namespace RoundLedger

/-- Runs a step of a part of the state. The part is put back also after a fault. -/
def zoom {ε σ τ α : Type} (part : σ → τ) (restore : σ → τ → σ) (step : EStateM ε τ α) :
    EStateM ε σ α := fun s =>
  match step (part s) with
  | .ok a t => .ok a (restore s t)
  | .error e t => .error e (restore s t)

/-- What one call asked of its host, and was told. -/
structure Conversation where
  request : CallRequest
  exchanges : List Exchange

namespace Conversation

def blocksAsked (c : Conversation) : List UInt64 :=
  c.exchanges.filterMap fun e =>
    match e.1 with
    | .blockHash number => some number
    | _ => none

def addressesCalled (c : Conversation) : List Address :=
  c.exchanges.filterMap fun e =>
    match e.1 with
    | .precompile address _ _ => some address
    | _ => none

end Conversation

structure Node where
  view : View := {}
  hashes : BlockHashes := {}
  meters : Meters := {}
  /-- The conversations so far, the last one in front. -/
  journal : List Conversation := []

abbrev Session := EStateM Fault Node

namespace Session

def access {α : Type} (p : Program α) : Session α :=
  zoom Node.view (fun n view => { n with view }) p.run

def meter (f : Meters → Meters) : Session Unit :=
  modify fun n => { n with meters := f n.meters }

def fail {α : Type} (fault : Fault) : Session α := throw fault

def openOverlay : Session Unit := modify fun n => { n with view := n.view.opened }

/-- Takes the innermost overlay off without writing it. -/
def takeOverlay : Session Overlay := fun n =>
  match n.view.taken with
  | none => .ok {} n
  | some (o, view) => .ok o { n with view }

/-- Records conversations: block hashes that were asked for count as used, and calls to the
given precompiles are counted. -/
def hear (isPrecompile : Address → Bool) (c : Conversation) : Session Unit :=
  modify fun n =>
    { n with
      hashes := c.blocksAsked.foldl BlockHashes.touch n.hashes
      meters :=
        { n.meters with
          precompileCalls :=
            (c.addressesCalled.filter isPrecompile).foldl Tally.bump n.meters.precompileCalls }
      journal := c :: n.journal }

end Session

end RoundLedger
