import RoundLedger.Room
import RoundLedger.Runner

/-!
# Slots for read-only calls

A fixed number of slots serves read-only calls next to block execution. Free slots are handed
out first in, first out. The list of free slots has room for all of them, and no more: a slot that
is put back when there is no room is gone. A call that stops with a fault gives its slot back too.
-/

namespace RoundLedger

structure Slots where
  /-- The most free slots that are kept. -/
  capacity : Nat := 0
  /-- The free slots, the next one in front. -/
  free : List Nat := []
  held : List Nat := []
  deriving DecidableEq, Repr

namespace Slots

def ofSize (n : Nat) : Slots := { capacity := n, free := List.range n }

def slotRoom : Nat := 16

/-- The most slots that the list of free ones can number: two bits of a 64-bit count are taken. -/
def most : Nat := 0x3fffffffffffffff

/-- Whether so many slots can be had. -/
def check (n : Nat) : Except Fault Unit :=
  if most < n then .error .slotsTooMany else Room.make slotRoom n

def size (s : Slots) : Nat := s.free.length + s.held.length

def claim? (s : Slots) : Option (Nat × Slots) :=
  match s.free with
  | [] => none
  | index :: free => some (index, { s with free, held := index :: s.held })

/-- Puts a slot behind the free ones, if there is room. -/
def offer (s : Slots) (index : Nat) : Slots :=
  if s.free.length < s.capacity then { s with free := s.free ++ [index] } else s

def release? (s : Slots) (index : Nat) : Option Slots :=
  if index ∈ s.held then some { s.offer index with held := s.held.erase index } else none

/-- The slots are there from the start as if they had been put in one by one. -/
theorem ofSize_eq (n : Nat) : ofSize n = (List.range n).foldl offer { capacity := n } := by
  suffices h : ∀ k ≤ n, (List.range k).foldl offer { capacity := n } = { ofSize n with free := List.range k } from
    (h n (Nat.le_refl n)).symm
  intro k hk
  induction k with
  | zero => rfl
  | succ k ih =>
    have hroom : (List.range k).length < n := by rw [List.length_range]; exact hk
    rw [List.range_succ, List.foldl_append, ih (Nat.le_of_succ_le hk), List.foldl_cons, List.foldl_nil, offer]
    exact if_pos hroom

/-- Claiming moves a slot from the free ones to the held ones. -/
theorem perm_of_claim? {s t : Slots} {index : Nat} (h : s.claim? = some (index, t)) :
    (t.free ++ t.held).Perm (s.free ++ s.held) := by
  unfold claim? at h
  split at h
  · cases h
  · rename_i next free hfree
    cases h
    rw [hfree]
    exact List.perm_middle

/-- Releasing moves a slot back, if there is room. -/
theorem perm_of_release? {s t : Slots} {index : Nat} (room : s.free.length < s.capacity)
    (h : s.release? index = some t) : (t.free ++ t.held).Perm (s.free ++ s.held) := by
  unfold release? at h
  split at h
  · rename_i hheld
    cases h
    rw [offer, if_pos room, List.append_assoc]
    exact .append_left _ (List.perm_cons_erase hheld).symm
  · cases h

end Slots

structure Desk where
  node : Node := {}
  slots : Slots := {}

namespace Desk

def start (node : Node) (n : UInt64) : Except Fault Desk := do
  Slots.check n.toNat
  return { node, slots := Slots.ofSize n.toNat }

abbrev Session := EStateM Fault Desk

def onNode {α : Type} (step : RoundLedger.Session α) : Session α :=
  zoom Desk.node (fun d node => { d with node }) step

def claim : Session (Option Nat) := fun d =>
  match d.slots.claim? with
  | none => .ok none d
  | some (index, slots) =>
    let meters := { d.node.meters with busySlots := d.node.meters.busySlots + 1 }
    .ok (some index) { node := { d.node with meters }, slots }

/-- Releases a slot and answers whether it was held. -/
def release (index : Nat) : Session Bool := fun d =>
  match d.slots.release? index with
  | none => .ok false d
  | some slots =>
    let meters := { d.node.meters with busySlots := d.node.meters.busySlots - 1 }
    .ok true { node := { d.node with meters }, slots }

def callOnSlot (r : Runner) (request : CallRequest) : Session CallResult := do
  let result ← onNode (r.runCall request)
  onNode (Session.meter fun m => { m with adhocCalls := m.adhocCalls + 1 })
  return result

/-- Runs a step and releases the slot, also after a fault. -/
def releasing {α : Type} (index : Nat) (step : Session α) : Session α := fun d =>
  match step d with
  | .ok a d =>
    match release index d with
    | .ok _ d => .ok a d
    | .error fault d => .error fault d
  | .error fault d =>
    match release index d with
    | .ok _ d => .error fault d
    | .error _ d => .error fault d

/-- Runs a call on a free slot; there is no answer when none is free. -/
def call (r : Runner) (request : CallRequest) : Session (Option CallResult) := do
  match ← claim with
  | none => return none
  | some index => releasing index (some <$> callOnSlot r request)

end Desk

end RoundLedger
