import RoundLedger.Proofs.Stops

/-!
# First in, first out

The records of the queue stand for a list that grows at its end and a count of how much of it
was taken off the front. Every step of the queue does to the records what it does to the list,
whatever else is written in between, as long as the positions stay in front of the reserved one.
-/

namespace RoundLedger

open Step Program

/-! ## Stored one after another -/

namespace Queue

theorem getElem_positions {start : UInt64} {count i : Nat} (h : i < (positions start count).length) :
    (positions start count)[i] = start + UInt64.ofNat i := by
  induction count generalizing start i with
  | zero => cases h
  | succ count ih =>
    cases i with
    | zero => simp [positions]
    | succ i =>
      simp only [positions, List.getElem_cons_succ, ih]
      rw [UInt64.add_assoc, UInt64.add_comm 1, UInt64.ofNat_add]
      rfl

/-- Entries are known by their positions and the records there. -/
theorem entries_unique {f : Contents} {entries entries' : List QueueEntry}
    (hpositions : entries.map (·.position) = entries'.map (·.position))
    (found : ∀ entry ∈ entries, entryIn f entry.position = some entry.tx)
    (found' : ∀ entry ∈ entries', entryIn f entry.position = some entry.tx) : entries = entries' := by
  induction entries generalizing entries' with
  | nil => exact (List.map_eq_nil_iff.1 hpositions.symm).symm
  | cons entry rest ih =>
    cases entries' with
    | nil => cases hpositions
    | cons entry' rest' =>
      obtain ⟨hfirst, hrest⟩ := List.cons.inj hpositions
      have hposition : entry.position = entry'.position := hfirst
      have htx : some entry.tx = some entry'.tx := by
        rw [← found entry List.mem_cons_self, ← found' entry' List.mem_cons_self, hposition]
      obtain ⟨position, tx⟩ := entry
      obtain ⟨position', tx'⟩ := entry'
      cases hposition
      cases htx
      rw [ih hrest (fun entry hentry => found entry (List.mem_cons_of_mem _ hentry))
        fun entry hentry => found' entry (List.mem_cons_of_mem _ hentry)]

theorem readEntry_of_found {f : Contents} {position : UInt64} {tx : Transaction}
    (h : entryIn f position = some tx) : (readEntry position).eval f = .ok ⟨position, tx⟩ f := by
  obtain ⟨record, hrecord, hdecode⟩ := Option.bind_eq_some_iff.1 h
  rw [readEntry, eval_look_bind, hrecord]
  change ((orFail (.entryCorrupt position) (Entry.decode record)) >>= fun tx =>
    pure (⟨position, tx⟩ : QueueEntry)).eval f = _
  rw [hdecode]
  rfl

theorem readFrom_of_found {f : Contents} {start : UInt64} {entries : List QueueEntry}
    (hpositions : entries.map (·.position) = positions start entries.length)
    (found : ∀ entry ∈ entries, entryIn f entry.position = some entry.tx) :
    (readFrom start entries.length).eval f = .ok entries f := by
  induction entries generalizing start with
  | nil => rfl
  | cons entry rest ih =>
    obtain ⟨rfl, hrest⟩ := List.cons.inj hpositions
    have hfirst := readEntry_of_found (found entry List.mem_cons_self)
    have hbehind := ih hrest fun entry hentry => found entry (List.mem_cons_of_mem _ hentry)
    rw [List.length_cons, readFrom, eval_bind, bind_of_ok hfirst, eval_bind, bind_of_ok hbehind]
    rfl

/-- Entries that are stored one after another can be read, if they fit in one list. -/
theorem load_of_found {f : Contents} {r : QueueRange} (entries : List QueueEntry)
    (hlength : entries.length = r.stop.toNat - r.start.toNat)
    (hpositions : entries.map (·.position) = positions r.start entries.length)
    (found : ∀ entry ∈ entries, entryIn f entry.position = some entry.tx) :
    (load r).eval f = match Room.make entryRoom entries.length with
      | .ok () => .ok entries f
      | .error fault => .error fault f := by
  rw [load, eval_bind, ← hlength]
  cases Room.make entryRoom entries.length with
  | ok _ => exact readFrom_of_found hpositions found
  | error fault => rfl

end Queue

/-! ## The list and the count -/

/-- All that was ever put in a queue, and how much of it was taken off. -/
structure Fifo where
  appended : List Transaction := []
  popped : Nat := 0
  deriving DecidableEq

namespace Fifo

def range (q : Fifo) : QueueRange := ⟨UInt64.ofNat q.popped, UInt64.ofNat q.appended.length⟩

/-- Each transaction at the position that it was given. -/
def entries (q : Fifo) : List QueueEntry := q.appended.zipIdx.map fun (tx, i) => ⟨UInt64.ofNat i, tx⟩

def slice (q : Fifo) (first count : Nat) : List QueueEntry := (q.entries.drop first).take count

def append (q : Fifo) (txs : List Transaction) : Fifo := { q with appended := q.appended ++ txs }

/-- Takes off as many as wait and are asked for, the oldest first. They have to fit in one list. -/
def popFront (most : UInt64) : EStateM Fault Fifo (List QueueEntry) := fun q =>
  let front := q.slice q.popped most.toNat
  match Room.make Queue.entryRoom front.length with
  | .ok () => .ok front { q with popped := q.popped + front.length }
  | .error fault => .error fault q

/-- A step of the queue, or a write elsewhere in the store. -/
inductive Action where
  | append (txs : List Transaction)
  | popFront (most : UInt64)
  /-- Sets a value, or deletes the record. -/
  | put (key : Bytes) (value : Option Bytes)
  deriving DecidableEq

inductive Answer where
  | range (r : QueueRange)
  | entries (entries : List QueueEntry)
  | done
  deriving DecidableEq

namespace Action

def perform : Action → Program Answer
  | append txs => do return .range (← Queue.append txs)
  | popFront most => do return .entries (← Queue.popFront most)
  | put key value => .put key value (return .done)

def step : Action → EStateM Fault Fifo Answer
  | append txs => do
    modify (·.append txs)
    return .range (← get).range
  | popFront most => do return .entries (← Fifo.popFront most)
  | put _ _ => return .done

def performAll : List Action → Program (List Answer)
  | [] => return []
  | action :: rest => do
    let answer ← action.perform
    let answers ← performAll rest
    return answer :: answers

def stepAll : List Action → EStateM Fault Fifo (List Answer)
  | [] => return []
  | action :: rest => do
    let answer ← action.step
    let answers ← stepAll rest
    return answer :: answers

/-- The transactions that an action puts in the queue. -/
def added : Action → List Transaction
  | append txs => txs
  | _ => []

end Action

/-! ## Slices -/

open Queue

variable {q : Fifo}

theorem length_slice (first count : Nat) :
    (q.slice first count).length = min count (q.appended.length - first) := by
  simp [slice, entries]

theorem getElem_slice {first count i : Nat} (h : i < (q.slice first count).length)
    (h' : first + i < q.appended.length) :
    (q.slice first count)[i] = ⟨UInt64.ofNat (first + i), q.appended[first + i]⟩ := by
  simp [slice, entries]

theorem map_position_slice (first count : Nat) :
    (q.slice first count).map (·.position) = positions (UInt64.ofNat first) (q.slice first count).length := by
  refine List.ext_getElem (by simp) fun i h h' => ?_
  have hi := h
  rw [List.length_map, length_slice] at hi
  rw [getElem_positions, List.getElem_map, getElem_slice _ (by omega), UInt64.ofNat_add]

theorem mem_slice {first count : Nat} {entry : QueueEntry} (h : entry ∈ q.slice first count) :
    ∃ (i : Nat) (hi : i < q.appended.length), first ≤ i ∧ entry = ⟨UInt64.ofNat i, q.appended[i]⟩ := by
  obtain ⟨i, hi, rfl⟩ := List.mem_iff_getElem.1 h
  have hlength := hi
  rw [length_slice] at hlength
  exact ⟨first + i, by omega, Nat.le_add_right _ _, getElem_slice hi (by omega)⟩

/-! ## What is stored -/

/-- The keys of the pointers and of the entries in front of the reserved position. -/
def Owns (key : Bytes) : Prop := key = Key.queue.bytes ∨ ∃ p < reserved, key = (Key.entry p).bytes

/-- The records of a store stand for the list and the count. -/
structure Held (f : Contents) (q : Fifo) : Prop where
  range : rangeIn f = .ok q.range
  ordered : q.popped ≤ q.appended.length
  below : q.appended.length ≤ reserved.toNat
  sized : ∀ tx ∈ q.appended, tx.data.length < UInt64.size
  stored : ∀ (i : Nat) (h : i < q.appended.length), q.popped ≤ i →
    f (Key.entry (UInt64.ofNat i)).bytes = some (Entry.encode q.appended[i])
  absent : ∀ p < reserved, p.toNat < q.popped ∨ q.appended.length ≤ p.toNat →
    f (Key.entry p).bytes = none

theorem toNat_ofNat_of_le {n : Nat} (h : n ≤ reserved.toNat) : (UInt64.ofNat n).toNat = n := by
  have hreserved : reserved.toNat = 0x3fffffffffffff00 := rfl
  rw [UInt64.toNat_ofNat']
  omega

theorem ofNat_lt_reserved {n : Nat} (h : n < reserved.toNat) : UInt64.ofNat n < reserved := by
  rw [UInt64.lt_iff_toNat_lt, toNat_ofNat_of_le (Nat.le_of_lt h)]
  exact h

theorem entry_ne_queue {p : UInt64} (h : p < reserved) : (Key.entry p).bytes ≠ Key.queue.bytes := by
  intro hkey
  rw [Key.entry_eq_queue.1 hkey] at h
  exact UInt64.lt_irrefl _ h

namespace Held

variable {f f' : Contents} (h : Held f q)

include h

theorem toNat_start : q.range.start.toNat = q.popped :=
  toNat_ofNat_of_le (h.ordered.trans h.below)

theorem toNat_stop : q.range.stop.toNat = q.appended.length :=
  toNat_ofNat_of_le h.below

theorem found {first count : Nat} (hfirst : q.popped ≤ first) {entry : QueueEntry}
    (hentry : entry ∈ q.slice first count) : entryIn f entry.position = some entry.tx := by
  obtain ⟨i, hi, hle, rfl⟩ := mem_slice hentry
  rw [entryIn, h.stored i hi (hfirst.trans hle)]
  simpa using Entry.decode_encode q.appended[i] [] (h.sized _ (List.getElem_mem hi))

/-- Live positions can be loaded, if their entries fit in one list. -/
theorem load_slice {first count : Nat} {last : UInt64} (hpopped : q.popped ≤ first)
    (hfirst : first ≤ q.appended.length) (hlast : last.toNat = first + (q.slice first count).length) :
    (load ⟨UInt64.ofNat first, last⟩).eval f = match Room.make entryRoom (q.slice first count).length with
      | .ok () => .ok (q.slice first count) f
      | .error fault => .error fault f := by
  refine load_of_found (q.slice first count) ?_ (map_position_slice _ _) fun entry => h.found hpopped
  dsimp only
  rw [hlast, toNat_ofNat_of_le (hfirst.trans h.below)]
  omega

/-- A write elsewhere touches none of the records. -/
theorem put {key : Bytes} (hkey : ¬Owns key) (value : Option Bytes) : Held (f.put key value) q where
  range := by
    have hsame : f.put key value Key.queue.bytes = f Key.queue.bytes :=
      Contents.put_other _ _ fun hsame => hkey (.inl hsame)
    rw [rangeIn, hsame]
    exact h.range
  ordered := h.ordered
  below := h.below
  sized := h.sized
  stored i hi hpopped := by
    have hp : UInt64.ofNat i < reserved := ofNat_lt_reserved (hi.trans_le h.below)
    rw [Contents.put_other _ _ fun hsame => hkey (.inr ⟨_, hp, hsame⟩)]
    exact h.stored i hi hpopped
  absent p hp hdead := by
    rw [Contents.put_other _ _ fun hsame => hkey (.inr ⟨p, hp, hsame⟩)]
    exact h.absent p hp hdead

theorem popped {entries : List QueueEntry} (hpop : Popped f q.range entries f') :
    Held f' { q with popped := q.popped + entries.length } := by
  have hstart := h.toNat_start
  have hstop := h.toNat_stop
  have hfits := hpop.fits
  have hbelow := h.below
  -- an entry that is not among those taken is as it was
  have hkept {p : UInt64} (hp : p < reserved)
      (hout : p.toNat < q.popped ∨ q.popped + entries.length ≤ p.toNat) :
      f' (Key.entry p).bytes = f (Key.entry p).bytes := by
    refine hpop.others _ (entry_ne_queue hp) fun entry hentry hsame => ?_
    have htaken := hpop.mem_iff.1 ⟨entry, hentry, (Key.entry_bytes_inj hsame).symm⟩
    omega
  refine ⟨?_, by dsimp only; omega, hbelow, h.sized, fun i hi hle => ?_, fun p hp hdead => ?_⟩
  · rw [hpop.next, Fifo.range, Fifo.range, UInt64.ofNat_add]
  · dsimp only at hi hle
    have hp : UInt64.ofNat i < reserved := ofNat_lt_reserved (hi.trans_le hbelow)
    rw [hkept hp (.inr (by rw [toNat_ofNat_of_le (by omega)]; exact hle))]
    exact h.stored i hi (by omega)
  · by_cases htaken : ∃ entry ∈ entries, entry.position = p
    · obtain ⟨entry, hentry, rfl⟩ := htaken
      exact hpop.gone entry hentry
    · rw [hpop.mem_iff] at htaken
      dsimp only at hdead
      rw [hkept hp (by omega)]
      exact h.absent p hp (by omega)

theorem appended {txs : List Transaction} (happend : Appended f q.range txs f')
    (below : q.appended.length + txs.length ≤ reserved.toNat)
    (sized : ∀ tx ∈ txs, tx.data.length < UInt64.size) : Held f' (q.append txs) := by
  have hstop := h.toNat_stop
  have hordered := h.ordered
  have hkept {p : UInt64} (hp : p < reserved)
      (hout : p.toNat < q.appended.length ∨ q.appended.length + txs.length ≤ p.toNat) :
      f' (Key.entry p).bytes = f (Key.entry p).bytes := by
    refine happend.others _ (entry_ne_queue hp) fun p' hp' hsame => ?_
    have hrange := (mem_positions (Nat.le_of_lt happend.fits)).1 hp'
    rw [← Key.entry_bytes_inj hsame] at hrange
    omega
  have hlength : (q.append txs).appended.length = q.appended.length + txs.length := List.length_append
  refine ⟨?_, hordered.trans (hlength ▸ Nat.le_add_right _ _), hlength ▸ below,
    fun tx htx => ?_, fun i hi hle => ?_, fun p hp hdead => ?_⟩
  · rw [happend.next, Fifo.range, Fifo.range, hlength, UInt64.ofNat_add]
    rfl
  · exact (List.mem_append.1 htx).elim (h.sized tx) (sized tx)
  · rw [hlength] at hi
    have hp : UInt64.ofNat i < reserved := ofNat_lt_reserved (by omega)
    have hi' : (UInt64.ofNat i).toNat = i := toNat_ofNat_of_le (by omega)
    by_cases hold : i < q.appended.length
    · rw [hkept hp (.inl (by omega)), h.stored i hold hle]
      simp [Fifo.append, List.getElem_append_left hold]
    · obtain ⟨k, rfl⟩ := Nat.exists_eq_add_of_le (Nat.le_of_not_lt hold)
      have hk : k < txs.length := by omega
      have hplace : (UInt64.ofNat (q.appended.length + k), txs[k]) ∈ placed q.range.stop txs := by
        refine List.mem_iff_getElem.2 ⟨k, by simpa [placed] using hk, ?_⟩
        simp only [placed, List.getElem_zip, getElem_positions, UInt64.ofNat_add]
        rfl
      rw [happend.stored _ hplace fun hreserved => entry_ne_queue hp (Key.entry_eq_queue.2 hreserved)]
      simp [Fifo.append]
  · change p.toNat < q.popped ∨ (q.append txs).appended.length ≤ p.toNat at hdead
    rw [hlength] at hdead
    rw [hkept hp (by omega)]
    exact h.absent p hp (by omega)

end Held

/-! ## Steps -/

section

variable {f : Contents} (h : Held f q)

include h

theorem popFront_matches (most : UInt64) :
    Matches Eq Held ((Queue.popFront most).eval f) (Fifo.popFront most q) := by
  have hordered := h.ordered
  have hstart := h.toNat_start
  have hstop := h.toNat_stop
  cases hends : (Queue.popFront most).eval f with
  | ok entries f' =>
    obtain ⟨r, hpop, hlength⟩ := popFront_ok hends
    obtain rfl : q.range = r := Except.ok.inj (h.range.symm.trans hpop.range)
    have hroom := (Room.make_eq_ok_iff _ _).2 (length_of_popFront hends)
    have hentries : entries = q.slice q.popped most.toNat := by
      refine entries_unique ?_ hpop.found fun entry hentry => h.found (Nat.le_refl _) hentry
      rw [hpop.consecutive, map_position_slice, length_slice, hlength, hstart, hstop, Nat.min_comm]
      rfl
    rw [hentries] at hroom
    simp only [Fifo.popFront, hroom]
    refine .ok hentries ?_
    rw [← hentries]
    exact h.popped hpop
  | error fault f' =>
    obtain hrange | ⟨r, _, hread, hsized⟩ := eval_bind_stops.1 hends
    · cases h.range.symm.trans (range_stops.1 hrange).1
    obtain ⟨hrange, rfl⟩ := range_ok.1 hread
    obtain rfl : q.range = r := Except.ok.inj (h.range.symm.trans hrange)
    obtain hsize | ⟨size, _, hcount, hloaded⟩ := eval_bind_stops.1 hsized
    · have hbad := (eval_ofExcept_stops.1 hsize).1
      rw [QueueRange.size, if_pos (by rw [UInt64.le_iff_toNat_le]; omega)] at hbad
      cases hbad
    obtain ⟨hsize, rfl⟩ := eval_ofExcept_ok.1 hcount
    obtain hload | ⟨entries, _, -, hdeleting⟩ := eval_bind_stops.1 hloaded
    · obtain ⟨-, hcount⟩ := size_ok hsize
      have hwide := q.range.stop.toNat_lt
      have hlast : (q.range.start + min size most).toNat = q.popped + min size.toNat most.toNat := by
        rw [UInt64.toNat_add, UInt64.toNat_min]
        omega
      have hslice : q.popped + min size.toNat most.toNat
          = q.popped + (q.slice q.popped most.toNat).length := by
        rw [length_slice]
        omega
      have heval := (h.load_slice (Nat.le_refl _) hordered (hlast.trans hslice)).symm.trans hload
      rw [Fifo.popFront]
      revert heval
      cases Room.make entryRoom (q.slice q.popped most.toNat).length with
      | ok _ =>
        intro heval
        cases heval
      | error fault' =>
        rintro ⟨⟩
        exact .error
    obtain hdelete | ⟨_, _, -, hset⟩ := eval_bind_stops.1 hdeleting
    · obtain ⟨_, _, _, _, -, -, hentry⟩ := eval_forM_stops hdelete
      exact absurd hentry eval_delete_stops
    obtain hwrite | ⟨_, _, -, hdone⟩ := eval_bind_stops.1 hset
    · exact absurd hwrite eval_write_stops
    · exact absurd hdone eval_pure_stops

theorem append_returns (txs : List Transaction) (below : q.appended.length + txs.length ≤ reserved.toNat)
    (sized : ∀ tx ∈ txs, tx.data.length < UInt64.size) :
    ∃ f', (Queue.append txs).eval f = .ok (q.append txs).range f' ∧ Held f' (q.append txs) := by
  cases hends : (Queue.append txs).eval f with
  | ok r' f' =>
    obtain ⟨r, happend, rfl⟩ := append_ok hends
    obtain rfl : q.range = r := Except.ok.inj (h.range.symm.trans happend.range)
    have hnext := h.appended happend below sized
    obtain hrange := Except.ok.inj (happend.next.symm.trans hnext.range)
    exact ⟨f', by rw [hrange], hnext⟩
  | error fault f' =>
    obtain ⟨-, hbad⟩ | ⟨r, hrange, hfull, -⟩ := append_stops hends
    · cases h.range.symm.trans hbad
    obtain rfl : q.range = r := Except.ok.inj (h.range.symm.trans hrange)
    have hreserved : reserved.toNat = 0x3fffffffffffff00 := rfl
    have hsize : UInt64.size = 2 ^ 64 := rfl
    rw [h.toNat_stop] at hfull
    omega

/-- An action does to the records what it does to the list and the count. -/
theorem perform_matches {action : Action} (below : q.appended.length + action.added.length ≤ reserved.toNat)
    (sized : ∀ tx ∈ action.added, tx.data.length < UInt64.size)
    (elsewhere : ∀ key value, action = .put key value → ¬Owns key) :
    Matches Eq Held (action.perform.eval f) (action.step q) := by
  cases action with
  | append txs =>
    obtain ⟨f', hrun, hheld⟩ := append_returns h txs below sized
    rw [Action.perform, eval_bind, bind_of_ok hrun]
    exact .ok rfl hheld
  | popFront most =>
    rw [Action.perform, Action.step, eval_bind]
    refine (popFront_matches h most).bind ?_
    rintro entries _ f' q' - rfl hheld
    exact .ok rfl hheld
  | put key value => exact .ok rfl (h.put (elsewhere key value rfl) value)

end

theorem appended_of_step {q' : Fifo} {action : Action} {answer : Answer} (h : action.step q = .ok answer q') :
    q'.appended = q.appended ++ action.added := by
  cases action with
  | append txs =>
    cases h
    rfl
  | popFront most =>
    obtain ⟨entries, q₁, hpop, hdone⟩ := bind_ok.1 h
    obtain ⟨rfl, rfl⟩ := pure_ok.1 hdone
    rw [Fifo.popFront] at hpop
    split at hpop
    · cases hpop
      exact (List.append_nil _).symm
    · cases hpop
  | put key value =>
    cases h
    exact (List.append_nil _).symm

/-! ## Runs -/

theorem performAll_matches {f : Contents} (h : Held f q) {actions : List Action}
    (below : q.appended.length + (actions.flatMap Action.added).length ≤ reserved.toNat)
    (sized : ∀ tx ∈ actions.flatMap Action.added, tx.data.length < UInt64.size)
    (elsewhere : ∀ key value, .put key value ∈ actions → ¬Owns key) :
    Matches Eq Held ((Action.performAll actions).eval f) (Action.stepAll actions q) := by
  induction actions generalizing f q with
  | nil => exact .ok rfl h
  | cons action rest ih =>
    rw [List.flatMap_cons] at below sized
    rw [List.length_append] at below
    rw [Action.performAll, Action.stepAll, eval_bind]
    refine (perform_matches h (by omega) (fun tx htx => sized tx (List.mem_append_left _ htx)) ?_).bind ?_
    · rintro key value rfl
      exact elsewhere key value List.mem_cons_self
    rintro answer _ f' q' hstep rfl hheld
    have happended := congrArg List.length (appended_of_step hstep)
    rw [List.length_append] at happended
    rw [eval_bind]
    refine (ih hheld (by omega) (fun tx htx => sized tx (List.mem_append_right _ htx)) ?_).bind ?_
    · exact fun key value hmem => elsewhere key value (List.mem_cons_of_mem _ hmem)
    rintro answers _ f'' q'' - rfl hheld'
    exact .ok rfl hheld'

/-- A list that is short enough can be taken off whole. -/
theorem stepAll_returns {actions : List Action}
    (room : entryRoom * (q.appended.length + (actions.flatMap Action.added).length) ≤ Room.most) :
    ∃ answers q', Action.stepAll actions q = .ok answers q' := by
  induction actions generalizing q with
  | nil => exact ⟨[], q, rfl⟩
  | cons action rest ih =>
    rw [List.flatMap_cons, List.length_append] at room
    have hfirst : ∃ answer q', action.step q = .ok answer q' := by
      cases action with
      | append txs => exact ⟨_, _, rfl⟩
      | put key value => exact ⟨_, _, rfl⟩
      | popFront most =>
        have hroom : Room.make entryRoom (q.slice q.popped most.toNat).length = .ok () := by
          rw [Room.make_eq_ok_iff]
          refine (Nat.mul_le_mul_left entryRoom ?_).trans room
          rw [length_slice]
          omega
        have hpop : Fifo.popFront most q = .ok (q.slice q.popped most.toNat)
            { q with popped := q.popped + (q.slice q.popped most.toNat).length } := by
          simp only [Fifo.popFront, hroom]
        exact ⟨_, _, bind_of_ok hpop _⟩
    obtain ⟨answer, q', hstep⟩ := hfirst
    have happended := congrArg List.length (appended_of_step hstep)
    rw [List.length_append] at happended
    obtain ⟨answers, q'', hrest⟩ := ih (q := q') (by rw [happended, Nat.add_assoc]; exact room)
    refine ⟨answer :: answers, q'', ?_⟩
    rw [Action.stepAll, bind_of_ok hstep, bind_of_ok hrest]
    rfl

/-- The store shows the list and the count: the pointers hold where the live positions start and
stop, loading any of these finds what taking them off would give, and in front of the reserved
position there are no other entries. -/
structure Shows (f : Contents) (q : Fifo) : Prop where
  ordered : q.popped ≤ q.appended.length
  range : Queue.range.eval f = .ok q.range f
  load : ∀ first last, q.popped ≤ first → first ≤ last → last ≤ q.appended.length →
    Room.make entryRoom (last - first) = .ok () →
    (Queue.load ⟨UInt64.ofNat first, UInt64.ofNat last⟩).eval f = .ok (q.slice first (last - first)) f
  present : ∀ p < reserved, (f (Key.entry p).bytes).isSome ↔
    q.popped ≤ p.toNat ∧ p.toNat < q.appended.length

theorem Held.shows {f : Contents} (h : Held f q) : Shows f q where
  ordered := h.ordered
  range := range_ok.2 ⟨h.range, rfl⟩
  load first last hpopped hle hlast hroom := by
    have hlength : (q.slice first (last - first)).length = last - first := by
      rw [length_slice]
      omega
    have hstop : (UInt64.ofNat last).toNat = first + (q.slice first (last - first)).length := by
      rw [toNat_ofNat_of_le (hlast.trans h.below), hlength]
      omega
    rw [h.load_slice hpopped (hle.trans hlast) hstop, hlength, hroom]
  present p hp := by
    have hlt := UInt64.lt_iff_toNat_lt.1 hp
    constructor
    · intro hpresent
      by_contra hdead
      rw [h.absent p hp (by omega)] at hpresent
      cases hpresent
    · rintro ⟨hpopped, hstop⟩
      have hstored := h.stored p.toNat hstop hpopped
      rw [UInt64.ofNat_toNat] at hstored
      rw [hstored]
      rfl

/-- On a store without queue records, whatever is appended, taken off and written elsewhere, the
queue answers what the list and the count answer, and the store shows them. -/
theorem queue_matches {v : View} {actions : List Action}
    (blank : ∀ key, Owns key → v.value key = none)
    (elsewhere : ∀ key value, .put key value ∈ actions → ¬Owns key)
    (below : (actions.flatMap Action.added).length ≤ reserved.toNat)
    (sized : ∀ tx ∈ actions.flatMap Action.added, tx.data.length < UInt64.size) :
    Matches Eq (fun w q => Shows w.contents q) ((Action.performAll actions).run v)
        (Action.stepAll actions {}) ∧
      (entryRoom * (actions.flatMap Action.added).length ≤ Room.most →
        ∃ answers w, (Action.performAll actions).run v = .ok answers w) := by
  have hstart : Held v.contents {} := by
    refine ⟨?_, Nat.le_refl _, Nat.zero_le _, by simp, by simp, fun p hp _ => blank _ (.inr ⟨p, hp, rfl⟩)⟩
    have hnone : v.contents Key.queue.bytes = none := blank _ (.inl rfl)
    rw [rangeIn, hnone]
    rfl
  have hmatches := matches_run (performAll_matches hstart (by simpa using below) sized elsewhere)
  constructor
  · generalize (Action.performAll actions).run v = outcome, Action.stepAll actions {} = outcome' at hmatches ⊢
    cases hmatches with
    | ok ha hr => exact .ok ha hr.shows
    | error => exact .error
  · intro room
    obtain ⟨answers, q, hstep⟩ := stepAll_returns (q := {}) (by simpa using room)
    rw [hstep] at hmatches
    generalize (Action.performAll actions).run v = outcome at hmatches ⊢
    cases hmatches with
    | ok ha hr => exact ⟨_, _, rfl⟩

/-- A transaction that creates a contract, and one with every field of its own. -/
def sampleTxs : List Transaction :=
  [{ sender := 1, destination := none, nonce := 0, value := 0, gasPrice := 0, gasLimit := 0, data := [],
     height := 0 },
   { sender := 2, destination := some 3, nonce := 4, value := BitVec.allOnes 256, gasPrice := 5,
     gasLimit := UInt64.top, data := [6, 7, 8], height := 9 }]

def sampleActions : List Action :=
  [.append sampleTxs, .put [1] (some [2]), .popFront 1, .append sampleTxs, .popFront 2, .popFront 5]

theorem sampleActions_matched : ∃ w q,
    (Action.performAll sampleActions).run {} = .ok
      [.range ⟨0, 2⟩, .done, .entries [⟨0, sampleTxs[0]⟩], .range ⟨1, 4⟩,
        .entries [⟨1, sampleTxs[1]⟩, ⟨2, sampleTxs[0]⟩], .entries [⟨3, sampleTxs[1]⟩]] w ∧
      Shows w.contents q ∧ q.popped = 4 := by
  have elsewhere : ∀ key value, Action.put key value ∈ sampleActions → ¬Owns key := by
    intro key value hmem howns
    obtain ⟨rfl, -⟩ : key = [1] ∧ value = some [2] := by simpa [sampleActions] using hmem
    rcases howns with hkey | ⟨p, -, hkey⟩
    · exact absurd hkey (by decide)
    · have hlength := congrArg List.length hkey
      simp [Key.bytes] at hlength
  have hmatches := (queue_matches (v := {}) (fun key _ => by
    simp [View.value, View.valueIn]) elsewhere (by decide +kernel) (by decide +kernel)).1
  have hstep : Action.stepAll sampleActions {} = .ok
      [.range ⟨0, 2⟩, .done, .entries [⟨0, sampleTxs[0]⟩], .range ⟨1, 4⟩,
        .entries [⟨1, sampleTxs[1]⟩, ⟨2, sampleTxs[0]⟩], .entries [⟨3, sampleTxs[1]⟩]]
      ⟨sampleTxs ++ sampleTxs, 4⟩ := by
    rfl
  rw [hstep] at hmatches
  generalize (Action.performAll sampleActions).run {} = outcome at hmatches
  cases hmatches with
  | ok ha hr =>
    subst ha
    exact ⟨_, _, rfl, hr, rfl⟩

end Fifo

end RoundLedger
