import RoundLedger.Proofs.QueueSteps

/-!
# What waits in the queue

Taking off the front takes what was queued first, and putting at the end adds to what waits. One
transaction is lost when the end of the queue passes over the reserved position, and only then.
-/

namespace RoundLedger

namespace Queue

/-! ## Waiting transactions -/

def waiting (f : Contents) : List Transaction :=
  match rangeIn f with
  | .ok r => (live r).filterMap (entryIn f)
  | .error _ => []

theorem waiting_congr {f g : Contents} (h : ∀ key, Key.IsQueue key → f key = g key) :
    waiting f = waiting g := by
  have hentry : entryIn f = entryIn g := funext (entryIn_congr h)
  rw [waiting, waiting, rangeIn_congr h, hentry]

theorem waiting_of_range {f : Contents} {r : QueueRange} (h : rangeIn f = .ok r) :
    waiting f = (live r).filterMap (entryIn f) := by
  rw [waiting, h]

theorem length_waiting_le {f : Contents} {r : QueueRange} (h : rangeIn f = .ok r) :
    (waiting f).length ≤ r.stop.toNat - r.start.toNat := by
  rw [waiting_of_range h, ← length_positions r.start (r.stop.toNat - r.start.toNat)]
  exact List.length_filterMap_le _ _

/-- Entries found at the live positions are what waits. -/
theorem waiting_of_found {f : Contents} {r : QueueRange} {entries : List QueueEntry}
    (h : rangeIn f = .ok r) (hpositions : entries.map (·.position) = live r)
    (found : ∀ entry ∈ entries, entryIn f entry.position = some entry.tx) :
    waiting f = entries.map (·.tx) := by
  rw [waiting_of_range h, ← hpositions, List.filterMap_map, ← List.filterMap_eq_map]
  exact List.filterMap_congr fun entry hentry => found entry hentry

theorem length_data_of_entryIn {f : Contents} {position : UInt64} {tx : Transaction}
    (h : entryIn f position = some tx) : tx.data.length < UInt64.size := by
  obtain ⟨record, -, hdecode⟩ := Option.bind_eq_some_iff.1 h
  exact Entry.length_data_of_decode hdecode

/-! ## Off the front -/

section Popped

variable {f f' : Contents} {r : QueueRange} {entries : List QueueEntry} (h : Popped f r entries f')

include h

theorem Popped.start_toNat :
    (r.start + UInt64.ofNat entries.length).toNat = r.start.toNat + entries.length := by
  have hfits := h.fits
  have hstop := r.stop.toNat_lt
  have hsize : UInt64.size = 2 ^ 64 := rfl
  exact UInt64.toNat_add_ofNat (by omega)

theorem Popped.mem_iff {position : UInt64} :
    (∃ entry ∈ entries, entry.position = position) ↔
      r.start.toNat ≤ position.toNat ∧ position.toNat < r.start.toNat + entries.length := by
  have hfits := h.fits
  have hstop := r.stop.toNat_lt
  have hsize : UInt64.size = 2 ^ 64 := rfl
  rw [← mem_positions (by omega), ← h.consecutive]
  simp

/-- The reserved position is never taken. -/
theorem Popped.ne_reserved {entry : QueueEntry} (hentry : entry ∈ entries) :
    entry.position ≠ reserved := by
  intro hreserved
  have hnone := entryIn_reserved h.range
  rw [← hreserved, h.found entry hentry] at hnone
  cases hnone

/-- Entries behind the ones taken are as they were. -/
theorem Popped.entryIn_eq {position : UInt64}
    (hposition : position.toNat < r.start.toNat ∨ r.start.toNat + entries.length ≤ position.toNat) :
    entryIn f' position = entryIn f position := by
  by_cases hreserved : position = reserved
  · rw [hreserved, entryIn_reserved h.range, entryIn_reserved h.next]
  · have hkey : (Key.entry position).bytes ≠ Key.queue.bytes :=
      fun hkey => hreserved (Key.entry_eq_queue.1 hkey)
    rw [entryIn, entryIn, h.others _ hkey]
    intro entry hentry hsame
    have htaken := h.mem_iff.1 ⟨entry, hentry, (Key.entry_bytes_inj hsame).symm⟩
    omega

theorem Popped.waiting_eq : waiting f = entries.map (·.tx) ++ waiting f' := by
  have hfits := h.fits
  have hstart := h.start_toNat
  have hsplit : live r = positions r.start entries.length
      ++ live ⟨r.start + UInt64.ofNat entries.length, r.stop⟩ := by
    rw [live, live, ← positions_add, hstart]
    congr 1
    dsimp only
    omega
  have htaken : (positions r.start entries.length).filterMap (entryIn f) = entries.map (·.tx) := by
    rw [← h.consecutive, List.filterMap_map, ← List.filterMap_eq_map]
    exact List.filterMap_congr fun entry hentry => h.found entry hentry
  have hleft : (live ⟨r.start + UInt64.ofNat entries.length, r.stop⟩).filterMap (entryIn f)
      = waiting f' := by
    rw [waiting_of_range h.next]
    refine List.filterMap_congr fun position hposition => ?_
    have hstop := r.stop.toNat_lt
    have hsize : UInt64.size = 2 ^ 64 := rfl
    have hbehind := (mem_positions (by dsimp only; omega)).1 hposition
    dsimp only at hbehind
    exact (h.entryIn_eq (by omega)).symm
  rw [waiting_of_range h.range, hsplit, List.filterMap_append, htaken, hleft]

end Popped

/-! ## At the end -/

/-- The end of the queue passes over the reserved position. -/
def Passes (stop stop' : UInt64) : Prop := stop ≤ reserved ∧ reserved < stop'

instance (stop stop' : UInt64) : Decidable (Passes stop stop') := inferInstanceAs (Decidable (_ ∧ _))

theorem passes_iff {stop stop' : UInt64} :
    Passes stop stop' ↔ stop.toNat ≤ reserved.toNat ∧ reserved.toNat < stop'.toNat := by
  rw [Passes, UInt64.le_iff_toNat_le, UInt64.lt_iff_toNat_lt]

/-- Transactions that stay in the queue when they are put at its end. -/
def kept (stop : UInt64) (txs : List Transaction) : List Transaction :=
  ((placed stop txs).filter (·.1 ≠ reserved)).map (·.2)

/-- The others: at most one, for positions are not used twice. -/
def lost (stop : UInt64) (txs : List Transaction) : List Transaction :=
  ((placed stop txs).filter (·.1 = reserved)).map (·.2)

theorem map_fst_placed (stop : UInt64) (txs : List Transaction) :
    (placed stop txs).map (·.1) = positions stop txs.length :=
  List.map_fst_zip (by simp)

theorem map_snd_placed (stop : UInt64) (txs : List Transaction) :
    (placed stop txs).map (·.2) = txs :=
  List.map_snd_zip (by simp)

theorem kept_append_lost (stop : UInt64) (txs : List Transaction) :
    (kept stop txs ++ lost stop txs).Perm txs := by
  have hperm := (List.filter_append_perm (fun place => decide (place.1 ≠ reserved)) (placed stop txs)).map
    (·.2)
  rw [map_snd_placed, List.map_append] at hperm
  simpa [kept, lost] using hperm

theorem length_lost {stop : UInt64} {txs : List Transaction}
    (h : stop.toNat + txs.length < UInt64.size) :
    (lost stop txs).length = if Passes stop (stop + UInt64.ofNat txs.length) then 1 else 0 := by
  have hnodup : (positions stop txs.length).Nodup :=
    (positions_ascending (Nat.le_of_lt h)).imp fun hlt heq => by
      rw [heq] at hlt
      exact UInt64.lt_irrefl _ hlt
  have hcount : (lost stop txs).length = (positions stop txs.length).count reserved := by
    rw [← map_fst_placed, lost, List.length_map, List.count, List.countP_map, List.countP_eq_length_filter]
    congr 2
  have hmem : reserved ∈ positions stop txs.length ↔ Passes stop (stop + UInt64.ofNat txs.length) := by
    rw [mem_positions (Nat.le_of_lt h), passes_iff,
      UInt64.toNat_add_ofNat h]
  rw [hcount, hnodup.count]
  simp only [hmem]

/-- Where the queue ends. -/
def stopIn (f : Contents) : Option UInt64 := (rangeIn f).toOption.map (·.stop)

theorem stopIn_of_range {f : Contents} {r : QueueRange} (h : rangeIn f = .ok r) :
    stopIn f = some r.stop := by
  rw [stopIn, h]
  rfl

theorem stopIn_congr {f g : Contents} (h : ∀ key, Key.IsQueue key → f key = g key) :
    stopIn f = stopIn g := by
  rw [stopIn, stopIn, rangeIn_congr h]

/-- The end of the queue has passed over the reserved position. -/
def PassesIn (f g : Contents) : Prop :=
  ∃ stop stop', stopIn f = some stop ∧ stopIn g = some stop' ∧ Passes stop stop'

theorem passesIn_iff {f g : Contents} {before now : QueueRange} (hf : rangeIn f = .ok before)
    (hg : rangeIn g = .ok now) : PassesIn f g ↔ Passes before.stop now.stop := by
  rw [PassesIn, stopIn_of_range hf, stopIn_of_range hg]
  simp

theorem PassesIn.irrefl {f : Contents} : ¬ PassesIn f f := by
  rintro ⟨stop, stop', hstop, hstop', hle, hlt⟩
  obtain rfl := Option.some.inj (hstop.symm.trans hstop')
  exact UInt64.not_lt.2 hle hlt

section Appended

variable {f f' : Contents} {r : QueueRange} {txs : List Transaction} (h : Appended f r txs f')

include h

theorem Appended.stop_toNat :
    (r.stop + UInt64.ofNat txs.length).toNat = r.stop.toNat + txs.length :=
  UInt64.toNat_add_ofNat h.fits

/-- Positions that were in use before hold what they held. -/
theorem Appended.entryIn_eq {position : UInt64}
    (hposition : position.toNat < r.stop.toNat ∨ r.stop.toNat + txs.length ≤ position.toNat) :
    entryIn f' position = entryIn f position := by
  by_cases hreserved : position = reserved
  · rw [hreserved, entryIn_reserved h.range, entryIn_reserved h.next]
  · have hkey : (Key.entry position).bytes ≠ Key.queue.bytes :=
      fun hkey => hreserved (Key.entry_eq_queue.1 hkey)
    rw [entryIn, entryIn, h.others _ hkey]
    intro p hp hsame
    have hrange := (mem_positions (Nat.le_of_lt h.fits)).1 hp
    rw [← Key.entry_bytes_inj hsame] at hrange
    omega

theorem Appended.entryIn_placed (sized : ∀ tx ∈ txs, tx.data.length < UInt64.size)
    {place : UInt64 × Transaction} (hplace : place ∈ placed r.stop txs) :
    entryIn f' place.1 = if place.1 = reserved then none else some place.2 := by
  by_cases hreserved : place.1 = reserved
  · rw [if_pos hreserved, hreserved, entryIn_reserved h.next]
  · have htx : place.2 ∈ txs := (List.of_mem_zip hplace).2
    rw [if_neg hreserved, entryIn, h.stored place hplace hreserved]
    simpa using Entry.decode_encode place.2 [] (sized place.2 htx)

theorem Appended.waiting_eq (ordered : r.start ≤ r.stop)
    (sized : ∀ tx ∈ txs, tx.data.length < UInt64.size) :
    waiting f' = waiting f ++ kept r.stop txs := by
  have hstop := h.stop_toNat
  have hwide := h.fits
  have hsize : UInt64.size = 2 ^ 64 := rfl
  rw [UInt64.le_iff_toNat_le] at ordered
  have hend : r.start + UInt64.ofNat (r.stop.toNat - r.start.toNat) = r.stop := by
    rw [← UInt64.toNat_inj, UInt64.toNat_add_ofNat (by omega)]
    omega
  have hsplit : live ⟨r.start, r.stop + UInt64.ofNat txs.length⟩
      = live r ++ positions r.stop txs.length := by
    have hadd := positions_add r.start (r.stop.toNat - r.start.toNat) txs.length
    rw [hend] at hadd
    rw [live, live, ← hadd]
    congr 1
    dsimp only
    omega
  have hold : (live r).filterMap (entryIn f') = waiting f := by
    rw [waiting_of_range h.range]
    refine List.filterMap_congr fun position hposition => ?_
    have hbefore := (mem_positions (by omega)).1 hposition
    exact h.entryIn_eq (by omega)
  have hnew : (positions r.stop txs.length).filterMap (entryIn f') = kept r.stop txs := by
    rw [← map_fst_placed, List.filterMap_map, kept, ← List.filterMap_eq_map, List.filterMap_filter]
    refine List.filterMap_congr fun place hplace => ?_
    simp only [Function.comp, h.entryIn_placed sized hplace]
    split <;> simp_all
  rw [waiting_of_range h.next, hsplit, List.filterMap_append, hold, hnew]

/-- Nothing that waits is lost, and what was put at the end waits behind it, but for the one
transaction at the reserved position. -/
theorem Appended.waiting_perm (ordered : r.start ≤ r.stop)
    (sized : ∀ tx ∈ txs, tx.data.length < UInt64.size) :
    (waiting f' ++ lost r.stop txs).Perm (waiting f ++ txs) := by
  rw [h.waiting_eq ordered sized, List.append_assoc]
  exact (kept_append_lost r.stop txs).append_left _

end Appended

/-! ## Well-formed queues -/

/-- The entries of the live positions are there, and no others. -/
structure WellFormed (f : Contents) (r : QueueRange) : Prop where
  range : rangeIn f = .ok r
  ordered : r.start ≤ r.stop
  live : ∀ position, r.start ≤ position → position < r.stop → (entryIn f position).isSome
  dead : ∀ position, position < r.start ∨ r.stop ≤ position → position ≠ reserved →
    f (Key.entry position).bytes = none

theorem WellFormed.congr {f g : Contents} {r : QueueRange} (h : WellFormed f r)
    (same : ∀ key, Key.IsQueue key → f key = g key) : WellFormed g r where
  range := by rw [← rangeIn_congr same, h.range]
  ordered := h.ordered
  live position hstart hstop := by
    rw [← entryIn_congr same]
    exact h.live position hstart hstop
  dead position houtside hreserved := by
    rw [← same _ (Key.isQueue_entry position)]
    exact h.dead position houtside hreserved

theorem WellFormed.length_waiting {f : Contents} {r : QueueRange} (h : WellFormed f r) :
    (waiting f).length = r.stop.toNat - r.start.toNat := by
  have hordered := UInt64.le_iff_toNat_le.1 h.ordered
  have hstop := r.stop.toNat_lt
  have hsize : UInt64.size = 2 ^ 64 := rfl
  have hsome : ∀ position ∈ Queue.live r, (entryIn f position).isSome := by
    intro position hposition
    have hrange := (mem_positions (by omega)).1 hposition
    exact h.live position (UInt64.le_iff_toNat_le.2 hrange.1) (UInt64.lt_iff_toNat_lt.2 (by omega))
  rw [waiting_of_range h.range, List.length_filterMap_eq_countP, List.countP_eq_length.2 hsome,
    Queue.live, length_positions]

/-- The reserved position is not live, for no entry can be there. -/
theorem WellFormed.not_live {f : Contents} {r : QueueRange} (h : WellFormed f r)
    (hstart : r.start ≤ reserved) : ¬ reserved < r.stop := by
  intro hstop
  have hlive := h.live reserved hstart hstop
  rw [entryIn_reserved h.range] at hlive
  cases hlive

theorem WellFormed.popped {f f' : Contents} {r : QueueRange} {entries : List QueueEntry}
    (h : WellFormed f r) (hpop : Popped f r entries f') :
    WellFormed f' ⟨r.start + UInt64.ofNat entries.length, r.stop⟩ := by
  have hfits := hpop.fits
  have hstart := hpop.start_toNat
  refine ⟨hpop.next, ?_, ?_, ?_⟩
  · dsimp only
    rw [UInt64.le_iff_toNat_le]
    omega
  · intro position hbehind hbefore
    dsimp only at hbehind hbefore
    rw [UInt64.le_iff_toNat_le] at hbehind
    rw [hpop.entryIn_eq (by omega)]
    exact h.live position (by rw [UInt64.le_iff_toNat_le]; omega) hbefore
  · intro position houtside hreserved
    by_cases htaken : ∃ entry ∈ entries, entry.position = position
    · obtain ⟨entry, hentry, rfl⟩ := htaken
      exact hpop.gone entry hentry
    · have hkey : (Key.entry position).bytes ≠ Key.queue.bytes :=
        fun hkey => hreserved (Key.entry_eq_queue.1 hkey)
      rw [hpop.others _ hkey]
      · refine h.dead position ?_ hreserved
        rw [hpop.mem_iff] at htaken
        simp only [UInt64.le_iff_toNat_le, UInt64.lt_iff_toNat_lt] at houtside ⊢
        omega
      · intro entry hentry hsame
        exact htaken ⟨entry, hentry, (Key.entry_bytes_inj hsame).symm⟩

theorem WellFormed.appended {f f' : Contents} {r : QueueRange} {txs : List Transaction}
    (h : WellFormed f r) (happend : Appended f r txs f')
    (sized : ∀ tx ∈ txs, tx.data.length < UInt64.size)
    (hpasses : ¬ Passes r.stop (r.stop + UInt64.ofNat txs.length)) :
    WellFormed f' ⟨r.start, r.stop + UInt64.ofNat txs.length⟩ := by
  have hstop := happend.stop_toNat
  have hordered := h.ordered
  rw [passes_iff, hstop] at hpasses
  rw [UInt64.le_iff_toNat_le] at hordered
  refine ⟨happend.next, ?_, ?_, ?_⟩
  · dsimp only
    rw [UInt64.le_iff_toNat_le]
    omega
  · intro position hbehind hbefore
    dsimp only at hbehind hbefore
    rw [UInt64.lt_iff_toNat_lt] at hbefore
    by_cases hold : position < r.stop
    · rw [happend.entryIn_eq (by rw [UInt64.lt_iff_toNat_lt] at hold; omega)]
      exact h.live position hbehind hold
    · rw [UInt64.lt_iff_toNat_lt] at hold
      have hmem : position ∈ positions r.stop txs.length :=
        (mem_positions (Nat.le_of_lt happend.fits)).2 (by omega)
      rw [← map_fst_placed] at hmem
      obtain ⟨place, hplace, rfl⟩ := List.mem_map.1 hmem
      rw [happend.entryIn_placed sized hplace, if_neg]
      · rfl
      · intro hreserved
        rw [hreserved] at hold hbefore
        omega
  · intro position houtside hreserved
    have hkey : (Key.entry position).bytes ≠ Key.queue.bytes :=
      fun hkey => hreserved (Key.entry_eq_queue.1 hkey)
    simp only [UInt64.le_iff_toNat_le, UInt64.lt_iff_toNat_lt] at houtside
    rw [happend.others _ hkey]
    · refine h.dead position ?_ hreserved
      simp only [UInt64.le_iff_toNat_le, UInt64.lt_iff_toNat_lt]
      omega
    · intro p hp hsame
      have hrange := (mem_positions (Nat.le_of_lt happend.fits)).1 hp
      rw [← Key.entry_bytes_inj hsame] at hrange
      omega

end Queue

end RoundLedger
