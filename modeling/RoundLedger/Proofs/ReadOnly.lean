import RoundLedger.Proofs.Agreement
import RoundLedger.Slots

/-!
# Read-only calls

A call runs on an overlay that is dropped, so it leaves the state as it was. What remains of it is that the
blocks whose hashes it asked for count as used.
-/

namespace RoundLedger

open Step

/-- The node is as it was, but some blocks count as used. -/
def Node.Beside (Asked : UInt64 → Prop) (n m : Node) : Prop :=
  m.view = n.view ∧ ∃ asked : List UInt64, (∀ number ∈ asked, Asked number) ∧
    m.hashes = asked.foldl BlockHashes.touch n.hashes

/-- The node with the innermost overlay dropped, as a call leaves it that stops with a fault. -/
def Node.dropped (n : Node) : Node := { n with view := n.view.closed false }

theorem Node.Beside.of_eq {Asked : UInt64 → Prop} {n m m' : Node} (h : n.Beside Asked m)
    (hview : m'.view = m.view) (hhashes : m'.hashes = m.hashes) : n.Beside Asked m' := by
  obtain ⟨hsame, asked, hasked, htouched⟩ := h
  exact ⟨hview.trans hsame, asked, hasked, hhashes.trans htouched⟩

/-- A step leaves the node as it was, but some blocks count as used. When it stops with a fault, its
overlay is still open. -/
def Node.Spared {σ α : Type} (Asked : UInt64 → Prop) (n : Node) (node : σ → Node) :
    EStateM.Result Fault σ α → Prop
  | .ok _ s => n.Beside Asked (node s)
  | .error _ s => n.Beside Asked (node s).dropped

section

variable {r : Runner} {request : CallRequest}

theorem Runner.runCall_spared {n : Node} (idle : n.view.overlays = []) :
    n.Spared (fun number => (r.backend request).Asks number) id (r.runCall request n) := by
  have hrun := Session.onOverlay_idle r.precompiles.contains (r.simulate n.hashes request)
    (fun result _ => result) idle
  have hcall : r.runCall request n = Session.onOverlay r.precompiles.contains
      (r.simulate n.hashes request) (fun result _ => result) n := rfl
  rw [hcall]
  cases habove : (r.simulate n.hashes request).above n.view.contents {} with
  | ok out o =>
    rw [habove] at hrun
    obtain ⟨m, hends, hview, hhashes⟩ := hrun
    rw [hends]
    exact ⟨hview, _, fun number hnumber => simulate_asks (Program.eval_of_above habove) hnumber, hhashes⟩
  | error fault o =>
    rw [habove] at hrun
    have hview : (⟨n.view.base, []⟩ : View) = n.view := by rw [← idle]
    rw [hrun]
    exact ⟨hview, [], by simp, rfl⟩

theorem Desk.callOnSlot_spared {d : Desk} (idle : d.node.view.overlays = []) :
    d.node.Spared (fun number => (r.backend request).Asks number) Desk.node
      (Desk.callOnSlot r request d) := by
  have hcall : d.node.Spared (fun number => (r.backend request).Asks number) id
      (r.runCall request d.node) := Runner.runCall_spared idle
  unfold callOnSlot
  cases hrun : r.runCall request d.node with
  | ok result m =>
    have hnode : Desk.onNode (r.runCall request) d = .ok result { d with node := m } := by
      rw [onNode, zoom, hrun]
    rw [hrun] at hcall
    rw [bind_of_ok hnode]
    exact hcall
  | error fault m =>
    have hnode : Desk.onNode (r.runCall request) d = .error fault { d with node := m } := by
      rw [onNode, zoom, hrun]
    rw [hrun] at hcall
    rw [bind_error hnode]
    exact hcall

/-- Releasing a slot changes nothing but a meter. -/
theorem Desk.release_ok (index : Nat) (d : Desk) :
    ∃ b d', Desk.release index d = .ok b d' ∧ d'.node.view = d.node.view ∧
      d'.node.hashes = d.node.hashes := by
  unfold release
  cases d.slots.release? index with
  | none => exact ⟨false, d, rfl, rfl, rfl⟩
  | some slots => exact ⟨true, _, rfl, rfl, rfl⟩

theorem Desk.releasing_spared {α : Type} {Asked : UInt64 → Prop} {n : Node} {step : Desk.Session α}
    {d : Desk} (h : n.Spared Asked Desk.node (step d)) (index : Nat) :
    n.Spared Asked Desk.node (Desk.releasing index step d) := by
  unfold releasing
  cases hstep : step d with
  | ok a d₁ =>
    rw [hstep] at h
    obtain ⟨b, d₂, hrelease, hview, hhashes⟩ := release_ok index d₁
    simp only [hrelease]
    exact Node.Beside.of_eq h hview hhashes
  | error fault d₁ =>
    rw [hstep] at h
    obtain ⟨b, d₂, hrelease, hview, hhashes⟩ := release_ok index d₁
    simp only [hrelease]
    exact Node.Beside.of_eq h (congrArg (View.closed · false) hview) hhashes

theorem Desk.call_spared {d : Desk} (idle : d.node.view.overlays = []) :
    d.node.Spared (fun number => (r.backend request).Asks number) Desk.node (Desk.call r request d) := by
  unfold Desk.call
  cases hclaim : d.slots.claim? with
  | none =>
    have hnone : Desk.claim d = .ok none d := by rw [Desk.claim, hclaim]
    rw [bind_of_ok hnone]
    exact ⟨rfl, [], by simp, rfl⟩
  | some claimed =>
    obtain ⟨index, slots⟩ := claimed
    let claimed : Desk :=
      { node := { d.node with meters := { d.node.meters with busySlots := d.node.meters.busySlots + 1 } }
        slots }
    have hsome : Desk.claim d = .ok (some index) claimed := by rw [Desk.claim, hclaim]
    have hslot : claimed.node.Spared (fun number => (r.backend request).Asks number) Desk.node
        (Desk.callOnSlot r request claimed) := Desk.callOnSlot_spared idle
    rw [bind_of_ok hsome]
    refine Desk.releasing_spared ?_ index
    change Node.Spared _ _ _ (EStateM.map some (callOnSlot r request) claimed)
    unfold EStateM.map
    cases hcall : callOnSlot r request claimed with
    | ok result d₁ =>
      rw [hcall] at hslot
      exact hslot
    | error fault d₁ =>
      rw [hcall] at hslot
      exact hslot

end

end RoundLedger
