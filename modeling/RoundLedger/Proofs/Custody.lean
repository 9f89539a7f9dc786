import RoundLedger.Proofs.Books

/-!
# Custody of slots

Any number of holders claim slots, call on them and give them back, each at its own pace. A claim takes an index
out of the list of free ones and is counted after that; what is given back is first no longer counted and then
put back. Other holders may act in between. At each moment every slot is free or in the hands of one holder, so
there is room for each slot that is put back, and the meter of busy slots shows those that are counted.
-/

namespace RoundLedger

open Step

/-! ## What calls leave alone -/

/-- A part of a node that neither the store nor what is heard of a call belongs to. -/
structure Node.Apart {γ : Type} (part : Node → γ) : Prop where
  view : ∀ n view, part { n with view } = part n
  hear : ∀ isPrecompile c, Keeps part (Session.hear isPrecompile c)

def Node.busy (n : Node) : Nat := n.meters.busySlots

theorem Node.busy_apart : Node.Apart Node.busy where
  view _ _ := rfl
  hear _ _ := keeps_modify fun _ => rfl

theorem Runner.runCall_keeps_apart {γ : Type} {part : Node → γ} (h : Node.Apart part) (r : Runner)
    (request : CallRequest) : Keeps part (r.runCall request) := by
  have haccess {α : Type} (p : Program α) : Keeps part (Session.access p) := by
    have hview : Keeps (fun _ : View => ()) p.run := fun _ => rfl
    exact hview.zoom fun n view _ => h.view n view
  have htake : Keeps part Session.takeOverlay := by
    intro n
    unfold Session.takeOverlay
    cases n.view.taken with
    | none => rfl
    | some taken => exact h.view n _
  unfold runCall
  refine keeps_get.bind fun node => (keeps_modify fun n => h.view n _).bind fun _ => ?_
  refine (haccess _).bind fun out => htake.bind fun _ => ?_
  exact (Keeps.forM fun c => h.hear _ c).bind fun _ => keeps_pure _

namespace Desk

def busy (d : Desk) : Nat := d.node.busy

theorem onNode_keeps_busy {α : Type} {step : RoundLedger.Session α} (h : Keeps Node.busy step) :
    Keeps Desk.busy (onNode step) := h.zoom fun _ _ hnode => hnode

theorem callOnSlot_keeps_busy (r : Runner) (request : CallRequest) : Keeps Desk.busy (callOnSlot r request) := by
  refine (onNode_keeps_busy (Runner.runCall_keeps_apart Node.busy_apart r request)).bind fun _ => ?_
  refine (onNode_keeps_busy (keeps_modify ?_)).bind fun _ => keeps_pure _
  exact fun _ => rfl

theorem onNode_keeps_slots {α : Type} (step : RoundLedger.Session α) : Keeps Desk.slots (onNode step) := by
  have hnode : Keeps (fun _ : Node => ()) step := fun _ => rfl
  exact hnode.zoom fun _ _ _ => rfl

theorem callOnSlot_keeps_slots (r : Runner) (request : CallRequest) : Keeps Desk.slots (callOnSlot r request) :=
  (onNode_keeps_slots _).bind fun _ => (onNode_keeps_slots _).bind fun _ => keeps_pure _

theorem final_releasing {α : Type} (index : Nat) (step : Session α) (d : Desk) :
    final (releasing index step d) = final (release index (final (step d))) := by
  unfold releasing
  cases step d with
  | ok a d₁ => dsimp only [final]; cases release index d₁ <;> rfl
  | error fault d₁ => dsimp only [final]; cases release index d₁ <;> rfl

end Desk

/-! ## Holders -/

/-- How far a holder is with a slot. -/
inductive Phase
  /-- Out of the free list, and not counted yet. -/
  | arriving
  | live
  /-- Not counted any more, and not yet put back. -/
  | leaving
  deriving DecidableEq

structure Ticket where
  holder : Nat
  index : Nat
  phase : Phase
  deriving DecidableEq

/-- A desk and the slots that are out. -/
structure Floor where
  desk : Desk
  tickets : List Ticket

namespace Floor

def advance (f : Floor) (ticket : Ticket) (phase : Phase) : List Ticket :=
  { ticket with phase } :: f.tickets.erase ticket

def recount (d : Desk) (busy : Nat) : Desk :=
  { d with node := { d.node with meters := { d.node.meters with busySlots := busy } } }

/-- What holders make of a desk with `n` slots. An operation is done at a stroke, or in its parts with those of
others in between. A holder that waits for a slot does nothing until one is free. -/
inductive Reached (r : Runner) (n : UInt64) : Floor → Prop
  | opened {node desk} : node.busy = 0 → Desk.start node n = .ok desk → Reached r n ⟨desk, []⟩
  | claimed {f index desk} (holder : Nat) : Reached r n f → Desk.claim f.desk = .ok (some index) desk →
      Reached r n ⟨desk, ⟨holder, index, .live⟩ :: f.tickets⟩
  | refused {f desk} : Reached r n f → Desk.claim f.desk = .ok none desk → Reached r n ⟨desk, f.tickets⟩
  | called {f} (request : CallRequest) : Reached r n f →
      Reached r n ⟨final (Desk.call r request f.desk), f.tickets⟩
  | served {f ticket} (request : CallRequest) : Reached r n f → ticket ∈ f.tickets → ticket.phase = .live →
      Reached r n ⟨final (Desk.callOnSlot r request f.desk), f.tickets⟩
  | dropped {f ticket} : Reached r n f → ticket ∈ f.tickets → ticket.phase = .live →
      Reached r n ⟨final (Desk.release ticket.index f.desk), f.tickets.erase ticket⟩
  | received {f index slots} (holder : Nat) : Reached r n f → f.desk.slots.claim? = some (index, slots) →
      Reached r n ⟨{ f.desk with slots }, ⟨holder, index, .arriving⟩ :: f.tickets⟩
  | counted {f ticket} : Reached r n f → ticket ∈ f.tickets → ticket.phase = .arriving →
      Reached r n ⟨recount f.desk (f.desk.busy + 1), f.advance ticket .live⟩
  | uncounted {f ticket} : Reached r n f → ticket ∈ f.tickets → ticket.phase = .live →
      Reached r n ⟨recount f.desk (f.desk.busy - 1), f.advance ticket .leaving⟩
  | sent {f ticket slots} : Reached r n f → ticket ∈ f.tickets → ticket.phase = .leaving →
      f.desk.slots.release? ticket.index = some slots →
      Reached r n ⟨{ f.desk with slots }, f.tickets.erase ticket⟩
  /-- Part of a call, or anything else that the node does meanwhile. -/
  | elsewhere {f desk} : Reached r n f → desk.slots = f.desk.slots → desk.busy = f.desk.busy →
      Reached r n ⟨desk, f.tickets⟩

/-! ## What each part keeps -/

def live (tickets : List Ticket) : Nat := tickets.countP (·.phase = .live)

/-- Every slot is free or out, and all that are out have a ticket. -/
structure Kept (n : Nat) (f : Floor) : Prop where
  capacity : f.desk.slots.capacity = n
  spread : (f.desk.slots.free ++ f.desk.slots.held).Perm (List.range n)
  held : f.desk.slots.held.Perm (f.tickets.map (·.index))
  busy : f.desk.busy = live f.tickets

theorem live_erase {tickets : List Ticket} {ticket : Ticket} (h : ticket ∈ tickets) :
    live tickets = live (tickets.erase ticket) + if ticket.phase = .live then 1 else 0 := by
  unfold live
  rw [(List.perm_cons_erase h).countP_eq, List.countP_cons]
  simp

theorem live_cons (ticket : Ticket) (tickets : List Ticket) :
    live (ticket :: tickets) = live tickets + if ticket.phase = .live then 1 else 0 := by
  unfold live
  rw [List.countP_cons]
  simp

theorem indices_erase {tickets : List Ticket} {ticket : Ticket} (h : ticket ∈ tickets) :
    (tickets.map (·.index)).Perm (ticket.index :: (tickets.erase ticket).map (·.index)) :=
  (List.perm_cons_erase h).map (·.index)

variable {n : Nat} {f : Floor} {ticket : Ticket}

theorem Kept.length (h : Kept n f) : f.desk.slots.free.length + f.tickets.length = n := by
  have hspread := h.spread.length_eq
  have hheld := h.held.length_eq
  rw [List.length_append, List.length_range] at hspread
  rw [List.length_map] at hheld
  omega

/-- A slot that is out leaves a place free. -/
theorem Kept.room (h : Kept n f) (hticket : ticket ∈ f.tickets) :
    f.desk.slots.free.length < f.desk.slots.capacity := by
  have hlength := h.length
  have hpos := List.length_pos_of_mem hticket
  have hcapacity := h.capacity
  omega

theorem Kept.mem_held (h : Kept n f) (hticket : ticket ∈ f.tickets) : ticket.index ∈ f.desk.slots.held :=
  h.held.mem_iff.2 (List.mem_map_of_mem hticket)

theorem Kept.opened {node : Node} {desk : Desk} {count : UInt64} (hbusy : node.busy = 0)
    (h : Desk.start node count = .ok desk) : Kept count.toNat ⟨desk, []⟩ := by
  unfold Desk.start at h
  cases hcheck : Slots.check count.toNat with
  | error fault =>
    rw [hcheck] at h
    cases h
  | ok _ =>
    rw [hcheck] at h
    cases h
    refine ⟨rfl, ?_, .refl _, hbusy⟩
    change (List.range count.toNat ++ []).Perm _
    rw [List.append_nil]

theorem Kept.received {index : Nat} {slots : Slots} (holder : Nat) (h : Kept n f)
    (hclaim : f.desk.slots.claim? = some (index, slots)) :
    Kept n ⟨{ f.desk with slots }, ⟨holder, index, .arriving⟩ :: f.tickets⟩ := by
  have hspread := Slots.perm_of_claim? hclaim
  unfold Slots.claim? at hclaim
  split at hclaim
  · cases hclaim
  · cases hclaim
    refine ⟨h.capacity, hspread.trans h.spread, h.held.cons _, ?_⟩
    rw [live_cons]
    exact h.busy

theorem Kept.counted (h : Kept n f) (hticket : ticket ∈ f.tickets) (hphase : ticket.phase = .arriving) :
    Kept n ⟨recount f.desk (f.desk.busy + 1), f.advance ticket .live⟩ := by
  refine ⟨h.capacity, h.spread, h.held.trans (indices_erase hticket), ?_⟩
  have hlive := live_erase hticket
  rw [hphase] at hlive
  change f.desk.busy + 1 = live (_ :: _)
  rw [live_cons, h.busy, hlive]
  rfl

theorem Kept.uncounted (h : Kept n f) (hticket : ticket ∈ f.tickets) (hphase : ticket.phase = .live) :
    Kept n ⟨recount f.desk (f.desk.busy - 1), f.advance ticket .leaving⟩ := by
  refine ⟨h.capacity, h.spread, h.held.trans (indices_erase hticket), ?_⟩
  have hlive := live_erase hticket
  rw [hphase] at hlive
  change f.desk.busy - 1 = live (_ :: _)
  rw [live_cons, h.busy, hlive]
  rfl

theorem Kept.sent {slots : Slots} (h : Kept n f) (hticket : ticket ∈ f.tickets) (hphase : ticket.phase = .leaving)
    (hrelease : f.desk.slots.release? ticket.index = some slots) :
    Kept n ⟨{ f.desk with slots }, f.tickets.erase ticket⟩ := by
  have hspread := Slots.perm_of_release? (h.room hticket) hrelease
  have hlive := live_erase hticket
  rw [hphase] at hlive
  unfold Slots.release? at hrelease
  rw [if_pos (h.mem_held hticket)] at hrelease
  cases hrelease
  refine ⟨?_, hspread.trans h.spread, ?_, h.busy.trans hlive⟩
  · change (f.desk.slots.offer ticket.index).capacity = n
    unfold Slots.offer
    split <;> exact h.capacity
  · have hheld := (h.held.trans (indices_erase hticket)).erase ticket.index
    rwa [List.erase_cons_head] at hheld

theorem Kept.elsewhere {desk : Desk} (h : Kept n f) (hslots : desk.slots = f.desk.slots)
    (hbusy : desk.busy = f.desk.busy) : Kept n ⟨desk, f.tickets⟩ := by
  refine ⟨?_, ?_, ?_, hbusy.trans h.busy⟩
  · rw [hslots, h.capacity]
  · rw [hslots]
    exact h.spread
  · rw [hslots]
    exact h.held

/-! ## Whole operations -/

theorem Kept.claimed {index : Nat} {desk : Desk} (holder : Nat) (h : Kept n f)
    (hclaim : Desk.claim f.desk = .ok (some index) desk) :
    Kept n ⟨desk, ⟨holder, index, .live⟩ :: f.tickets⟩ := by
  unfold Desk.claim at hclaim
  split at hclaim
  · cases hclaim
  · next index slots hsome =>
    cases hclaim
    have hcounted := (h.received holder hsome).counted List.mem_cons_self rfl
    rwa [advance, List.erase_cons_head] at hcounted

theorem claim_refused {d desk : Desk} (hclaim : Desk.claim d = .ok none desk) : desk = d := by
  unfold Desk.claim at hclaim
  split at hclaim
  · cases hclaim
    rfl
  · cases hclaim

theorem Kept.dropped (h : Kept n f) (hticket : ticket ∈ f.tickets) (hphase : ticket.phase = .live) :
    Kept n ⟨final (Desk.release ticket.index f.desk), f.tickets.erase ticket⟩ := by
  have hrelease : f.desk.slots.release? ticket.index
      = some { f.desk.slots.offer ticket.index with held := f.desk.slots.held.erase ticket.index } :=
    if_pos (h.mem_held hticket)
  have hleaving : { ticket with phase := .leaving } ∈ f.advance ticket .leaving := List.mem_cons_self
  have hsent := (h.uncounted hticket hphase).sent hleaving rfl hrelease
  rw [advance, List.erase_cons_head] at hsent
  unfold Desk.release
  rw [hrelease]
  exact hsent

theorem Kept.served (r : Runner) (request : CallRequest) (h : Kept n f) :
    Kept n ⟨final (Desk.callOnSlot r request f.desk), f.tickets⟩ :=
  h.elsewhere (Desk.callOnSlot_keeps_slots r request f.desk) (Desk.callOnSlot_keeps_busy r request f.desk)

/-- A call has a slot of its own while it runs. -/
theorem Kept.called (r : Runner) (request : CallRequest) (h : Kept n f) :
    Kept n ⟨final (Desk.call r request f.desk), f.tickets⟩ := by
  unfold Desk.call
  cases hclaim : f.desk.slots.claim? with
  | none =>
    have hnone : Desk.claim f.desk = .ok none f.desk := by rw [Desk.claim, hclaim]
    rw [bind_of_ok hnone]
    exact h
  | some claimed =>
    obtain ⟨index, slots⟩ := claimed
    have hsome : Desk.claim f.desk = .ok (some index) { recount f.desk (f.desk.busy + 1) with slots } := by
      rw [Desk.claim, hclaim]
      rfl
    have hserved := (h.claimed 0 hsome).served r request
    have hmap : final ((some <$> Desk.callOnSlot r request) { recount f.desk (f.desk.busy + 1) with slots })
        = final (Desk.callOnSlot r request { recount f.desk (f.desk.busy + 1) with slots }) := by
      change final (EStateM.map _ _ _) = _
      unfold EStateM.map
      cases Desk.callOnSlot r request { recount f.desk (f.desk.busy + 1) with slots } <;> rfl
    have hticket : ⟨0, index, .live⟩ ∈ ⟨0, index, .live⟩ :: f.tickets := List.mem_cons_self
    have hdropped := hserved.dropped hticket rfl
    rw [List.erase_cons_head] at hdropped
    rw [bind_of_ok hsome]
    dsimp only
    rw [Desk.final_releasing, hmap]
    exact hdropped

theorem Reached.kept {r : Runner} {count : UInt64} (h : Reached r count f) : Kept count.toNat f := by
  induction h with
  | opened hbusy hstart => exact .opened hbusy hstart
  | claimed holder _ hclaim ih => exact ih.claimed holder hclaim
  | refused _ hclaim ih =>
    obtain rfl := claim_refused hclaim
    exact ih
  | called request _ ih => exact ih.called r request
  | served request _ _ _ ih => exact ih.served r request
  | dropped _ hticket hphase ih => exact ih.dropped hticket hphase
  | received holder _ hclaim ih => exact ih.received holder hclaim
  | counted _ hticket hphase ih => exact ih.counted hticket hphase
  | uncounted _ hticket hphase ih => exact ih.uncounted hticket hphase
  | sent _ hticket hphase hrelease ih => exact ih.sent hticket hphase hrelease
  | elsewhere _ hslots hbusy ih => exact ih.elsewhere hslots hbusy

/-! ## At every moment -/

theorem Kept.count_eq (h : Kept n f) (index : Nat) :
    f.desk.slots.free.count index + f.tickets.countP (·.index = index) = if index < n then 1 else 0 := by
  have hheld : f.desk.slots.held.count index = f.tickets.countP (·.index = index) := by
    rw [h.held.count_eq, List.count, List.countP_map]
    exact List.countP_congr fun ticket _ => by simp
  rw [← hheld, ← List.count_append, h.spread.count_eq, List.count_range]

theorem Kept.refused_iff (h : Kept n f) :
    (∃ desk, Desk.claim f.desk = .ok none desk) ↔ f.tickets.length = n := by
  have hlength := h.length
  constructor
  · rintro ⟨desk, hclaim⟩
    unfold Desk.claim Slots.claim? at hclaim
    cases hfree : f.desk.slots.free with
    | nil =>
      rw [hfree, List.length_nil] at hlength
      omega
    | cons index free =>
      rw [hfree] at hclaim
      cases hclaim
  · intro hout
    have hfree : f.desk.slots.free = [] := List.eq_nil_of_length_eq_zero (by omega)
    refine ⟨f.desk, ?_⟩
    unfold Desk.claim Slots.claim?
    rw [hfree]

theorem Kept.busy_eq (h : Kept n f) (hlive : ∀ ticket ∈ f.tickets, ticket.phase = .live) :
    f.desk.busy = f.tickets.length := by
  rw [h.busy, live, List.countP_eq_length]
  exact fun ticket hticket => decide_eq_true (hlive ticket hticket)

/-- Whatever the holders do and in whatever order, each of the `n` slots is free once or out with one of them. A
holder is turned away only when all slots are out, each one that is out finds room when it is put back, and the
meter shows those that are counted. These are all that are out, unless a holder is in the middle of a claim or of
giving a slot back. -/
theorem slots_conserved {r : Runner} {count : UInt64} (h : Reached r count f) :
    (∀ index, f.desk.slots.free.count index + f.tickets.countP (·.index = index)
        = if index < count.toNat then 1 else 0) ∧
      f.desk.slots.free.length + f.tickets.length = count.toNat ∧
      ((∃ desk, Desk.claim f.desk = .ok none desk) ↔ f.tickets.length = count.toNat) ∧
      (∀ ticket ∈ f.tickets, f.desk.slots.free.length < f.desk.slots.capacity) ∧
      f.desk.busy = live f.tickets ∧
      ((∀ ticket ∈ f.tickets, ticket.phase = .live) → f.desk.busy = f.tickets.length) := by
  have hkept := h.kept
  exact ⟨hkept.count_eq, hkept.length, hkept.refused_iff, fun _ hticket => hkept.room hticket, hkept.busy,
    hkept.busy_eq⟩

/-- Of two slots one is about to be counted, and the other is about to be put back. -/
def handover : List Ticket := [⟨1, 0, .leaving⟩, ⟨2, 1, .arriving⟩]

theorem handover_conserved :
    ∃ desk, Reached Rounds.stakingRunner 2 ⟨desk, handover⟩ ∧ desk.busy = 0 ∧
      (∃ desk', Desk.claim desk = .ok none desk') ∧ desk.slots.free.length < desk.slots.capacity := by
  have hopened : Reached Rounds.stakingRunner 2 ⟨{ slots := .ofSize 2 }, []⟩ := .opened rfl rfl
  have hclaimed := hopened.claimed 1 rfl
  have hreceived := hclaimed.received 2 rfl
  have hticket : ⟨1, 0, .live⟩ ∈ [(⟨2, 1, .arriving⟩ : Ticket), ⟨1, 0, .live⟩] := by decide
  have hleaving := hreceived.uncounted hticket rfl
  obtain ⟨-, -, hrefused, hroom, hbusy, -⟩ := slots_conserved hleaving
  exact ⟨_, hleaving, hbusy, hrefused.2 rfl, hroom _ List.mem_cons_self⟩

end Floor

end RoundLedger
