import RoundLedger.Proofs.Records
import RoundLedger.Proofs.Stops

/-!
# Accesses of the records

Read and written through their types, the records of a store behave as independent maps. An access of the store
answers what the map of its kind holds and changes that map only, at its own place, and so does a run of
accesses (`independent`).
-/

namespace RoundLedger

open Step Program

/-! ## Accesses -/

/-- A typed read or write of the state, or a step of the queue. -/
inductive Access
  | account (address : Address)
  | setAccount (address : Address) (account : Account)
  | deleteAccount (address : Address)
  | code (address : Address)
  | setCode (address : Address) (code : Code)
  | deleteCode (address : Address)
  | storage (sequence : UInt64) (slot : Digest)
  | setStorage (sequence : UInt64) (slot : Digest) (value : Bytes)
  | counter (first : UInt8)
  | setCounter (first : UInt8) (count : UInt64)
  | range
  | load (r : QueueRange)
  | append (txs : List Transaction)
  | popFront (most : UInt64)
  deriving DecidableEq

namespace Access

abbrev Answer : Access → Type
  | account _ => Option Account
  | code _ => Option Code
  | storage _ _ => Option Bytes
  | counter _ => UInt64
  | range => QueueRange
  | load _ => List QueueEntry
  | append _ => QueueRange
  | popFront _ => List QueueEntry
  | setAccount _ _ | deleteAccount _ | setCode _ _ | deleteCode _ | setStorage _ _ _
  | setCounter _ _ => Unit

/-- The access of the store. -/
def perform : (a : Access) → Program a.Answer
  | account address => State.account address
  | setAccount address value => State.setAccount address value
  | deleteAccount address => State.deleteAccount address
  | code address => State.code address
  | setCode address value => State.setCode address value
  | deleteCode address => State.deleteCode address
  | storage sequence slot => State.storage sequence slot
  | setStorage sequence slot value => State.setStorage sequence slot value
  | counter first => State.counter first
  | setCounter first count => State.setCounter first count
  | range => Queue.range
  | load r => Queue.load r
  | append txs => Queue.append txs
  | popFront most => Queue.popFront most

/-- Answers what is read off the maps and leaves them alone. -/
def answer {α : Type} (read : Records → Except Fault α) : EStateM Fault Records α := fun m =>
  match read m with
  | .ok a => .ok a m
  | .error fault => .error fault m

def update {α : Type} (change : Records → Except Fault (α × Records)) : EStateM Fault Records α :=
  fun m =>
    match change m with
    | .ok (a, m') => .ok a m'
    | .error fault => .error fault m

section

variable {α : Type} {change : Records → Except Fault (α × Records)} {m m' : Records}

theorem update_ok {a : α} (h : change m = .ok (a, m')) : update change m = .ok a m' := by
  rw [update, h]

theorem update_error {fault : Fault} (h : change m = .error fault) : update change m = .error fault m := by
  rw [update, h]

end

/-- The access of the maps. -/
def step : (a : Access) → EStateM Fault Records a.Answer
  | account address => answer fun m => m.account address
  | setAccount address value => modify fun m => m.setAccount address (some value)
  | deleteAccount address => modify fun m => m.setAccount address none
  | code address => answer fun m => m.code address
  | setCode address value => modify fun m => m.setCode address (some value)
  | deleteCode address => modify fun m => m.setCode address none
  | storage sequence slot => answer fun m => .ok (m.slot sequence slot)
  | setStorage sequence slot value => modify fun m => m.setSlot sequence slot (State.slotValue value)
  | counter first => answer fun m => m.counter first
  | setCounter first count => modify fun m => m.setCounter first count
  | range => answer fun m => m.range
  | load r => answer fun m => m.load r
  | append txs => update fun m => m.append txs
  | popFront most => update fun m => m.popFront most

/-- The positions of the queue that an access reads or writes. -/
def positions (m : Records) : Access → List UInt64
  | load r => Queue.live r
  | append txs =>
    match m.range with
    | .ok r => Queue.positions r.stop txs.length
    | .error _ => []
  | popFront most =>
    match m.range with
    | .ok r => Queue.live { r with stop := r.start + min (r.stop - r.start) most }
    | .error _ => []
  | _ => []

theorem positions_append {m : Records} {r : QueueRange} {txs : List Transaction} (h : m.range = .ok r) :
    (append txs).positions m = Queue.positions r.stop txs.length := by
  rw [positions, h]

theorem positions_popFront {m : Records} {r : QueueRange} {most : UInt64} (h : m.range = .ok r) :
    (popFront most).positions m = Queue.live { r with stop := r.start + min (r.stop - r.start) most } := by
  rw [positions, h]

def appended : Access → List Transaction
  | append txs => txs
  | _ => []

/-- The access keeps off the reserved position, and appends no more data than can be addressed. -/
def Spares (a : Access) (m : Records) : Prop :=
  Queue.reserved ∉ a.positions m ∧ ∀ tx ∈ a.appended, tx.data.length < UInt64.size

instance (a : Access) (m : Records) : Decidable (a.Spares m) := instDecidableAnd

/-- All accesses of a sequence do, one after the other. -/
def sparesAll : List Access → Records → Bool
  | [], _ => true
  | a :: rest, m => a.Spares m &&
    match a.step m with
    | .ok _ m' => sparesAll rest m'
    | .error _ _ => true

end Access

/-! ### Runs -/

section

variable {α : Type} {f f' : Contents} {p : Program α}

theorem Access.matches_answer (read : Records → Except Fault α)
    (h : p.eval f = (ofExcept (read (recordsIn f))).eval f) :
    Matches Eq (fun g m => recordsIn g = m) (p.eval f) (answer read (recordsIn f)) := by
  rw [h, answer]
  cases read (recordsIn f) with
  | ok a => exact .ok rfl rfl
  | error fault => exact .error

/-- The entries of a range are read as the maps hold them. -/
theorem Queue.readFrom_eval {position : UInt64} {count : Nat}
    (spared : reserved ∉ positions position count) :
    (readFrom position count).eval f
      = (ofExcept ((positions position count).mapM (recordsIn f).entry)).eval f := by
  induction count generalizing position with
  | zero => rfl
  | succ count ih =>
    rw [positions, List.mem_cons, not_or] at spared
    have hentry : (recordsIn f).entry position
        = readRecord position (f (Key.entry position).bytes) := if_neg (Ne.symm spared.1)
    have hfirst := readEntry_eval f position
    rw [← hentry] at hfirst
    rw [readFrom, eval_bind, positions, List.mapM_cons]
    cases hread : (recordsIn f).entry position with
    | error fault =>
      rw [hread] at hfirst
      exact bind_error hfirst _
    | ok entry =>
      rw [hread] at hfirst
      have hrest := ih spared.2
      rw [bind_of_ok hfirst, eval_bind]
      cases hbehind : (positions (position + 1) count).mapM (recordsIn f).entry with
      | error fault =>
        rw [hbehind] at hrest
        exact bind_error hrest _
      | ok rest =>
        rw [hbehind] at hrest
        exact bind_of_ok hrest _

theorem Queue.load_eval {r : QueueRange} (spared : reserved ∉ live r) :
    (load r).eval f = (ofExcept ((recordsIn f).load r)).eval f := by
  unfold load Records.load
  rw [eval_bind]
  cases Room.make entryRoom (r.stop.toNat - r.start.toNat) with
  | error fault => rfl
  | ok _ => exact readFrom_eval spared

end

section

variable {f f' : Contents}

/-- What touches the queue only leaves the maps of the state. -/
theorem recordsIn_of_state (h : ∀ k : Key, k.isState = true → f' k.bytes = f k.bytes) :
    recordsIn f' = { recordsIn f with range := (recordsIn f').range, entry := (recordsIn f').entry } := by
  have haccount (address : Address) : f'.byKey (.account address) = f.byKey (.account address) := h _ rfl
  have hcode (address : Address) : f'.byKey (.code address) = f.byKey (.code address) := h _ rfl
  have hslot (sequence : UInt64) (place : Digest) :
    f'.byKey (.slot sequence place) = f.byKey (.slot sequence place) := h _ rfl
  have hcounter (first : UInt8) : f'.byKey (.counter first) = f.byKey (.counter first) := h _ rfl
  simp [recordsIn, Records.under, haccount, hcode, hslot, hcounter]

namespace Queue

theorem Appended.state {r : QueueRange} {txs : List Transaction} (h : Appended f r txs f') (k : Key)
    (hk : k.isState = true) : f' k.bytes = f k.bytes := by
  have hqueue := Key.not_isQueue.1 (Key.not_isQueue_of_isState hk)
  exact h.others _ hqueue.1 fun p _ => hqueue.2 p

theorem Popped.state {r : QueueRange} {entries : List QueueEntry} (h : Popped f r entries f') (k : Key)
    (hk : k.isState = true) : f' k.bytes = f k.bytes := by
  have hqueue := Key.not_isQueue.1 (Key.not_isQueue_of_isState hk)
  exact h.others _ hqueue.1 fun entry _ => hqueue.2 entry.position

/-- Positions run out with one fault only. -/
theorem fault_of_store {stop : UInt64} {txs : List Transaction} {fault : Fault}
    (h : (store stop txs).eval f = .error fault f') : fault = .sumTooLarge := by
  induction txs generalizing f stop with
  | nil => exact absurd h eval_pure_stops
  | cons tx rest ih =>
    rw [store] at h
    obtain hwrite | ⟨_, _, -, hadded⟩ := eval_bind_stops.1 h
    · exact absurd hwrite eval_write_stops
    obtain hlast | ⟨next, _, -, hrest⟩ := eval_bind_stops.1 hadded
    · exact (eval_orFail_stops.1 hlast).2.1.symm
    · exact ih hrest

variable {r : QueueRange} {txs : List Transaction}

theorem fault_of_append (hrange : rangeIn f = .ok r) {fault : Fault}
    (h : (append txs).eval f = .error fault f') : fault = .sumTooLarge := by
  obtain hread | ⟨_, _, -, hstore⟩ := eval_bind_stops.1 h
  · cases hrange.symm.trans (range_stops.1 hread).1
  obtain hstore | ⟨_, _, -, hset⟩ := eval_bind_stops.1 hstore
  · exact fault_of_store hstore
  obtain hwrite | ⟨_, _, -, hdone⟩ := eval_bind_stops.1 hset
  · exact absurd hwrite eval_write_stops
  · exact absurd hdone eval_pure_stops

theorem Appended.entry (h : Appended f r txs f') (spared : reserved ∉ positions r.stop txs.length)
    (sized : ∀ tx ∈ txs, tx.data.length < UInt64.size) (position : UInt64) :
    (recordsIn f').entry position
      = match (placed r.stop txs).lookup position with
        | some tx => .ok ⟨position, tx⟩
        | none => (recordsIn f).entry position := by
  have hplaced {p : UInt64} {tx : Transaction} (hmem : (p, tx) ∈ placed r.stop txs) :
      p ∈ positions r.stop txs.length := by
    rw [← map_fst_placed]
    exact List.mem_map_of_mem hmem
  cases hlookup : (placed r.stop txs).lookup position with
  | some tx =>
    obtain ⟨front, rest, hsplit, -⟩ := List.lookup_eq_some_iff.1 hlookup
    have hmem : (position, tx) ∈ placed r.stop txs :=
      hsplit ▸ List.mem_append_right _ List.mem_cons_self
    have hreserved : position ≠ reserved := fun hsame => spared (hsame ▸ hplaced hmem)
    have hrecord : f'.byKey (.entry position) = some (Entry.encode tx) := h.stored (position, tx) hmem hreserved
    have hzip : (position, tx) ∈ (positions r.stop txs.length).zip txs := hmem
    have hread := readRecord_encode (sized tx (List.of_mem_zip hzip).2) position
    simp [recordsIn, Records.under, hreserved, hrecord, hread]
  | none =>
    have hapart : position ∉ positions r.stop txs.length := by
      rw [← map_fst_placed, List.mem_map]
      rintro ⟨place, hplace, rfl⟩
      simpa using List.lookup_eq_none_iff.1 hlookup place hplace
    by_cases hreserved : position = reserved
    · simp [recordsIn, Records.under, hreserved]
    · have hrecord : f'.byKey (.entry position) = f.byKey (.entry position) := by
        refine h.others _ (fun hkey => hreserved (Key.entry_eq_queue.1 hkey)) fun p hp hkey => ?_
        exact hapart (Key.entry_bytes_inj hkey ▸ hp)
      simp [recordsIn, Records.under, hreserved, hrecord]

theorem append_matches (spares : (Access.append txs).Spares (recordsIn f)) :
    Matches Eq (fun g m => recordsIn g = m) ((append txs).eval f)
      (Access.update (·.append txs) (recordsIn f)) := by
  obtain ⟨spared, sized⟩ := spares
  cases hfound : rangeIn f with
  | error fault =>
    have hrange : (recordsIn f).range = .error fault := hfound
    have hread := range_eval f
    rw [hfound] at hread
    rw [append, eval_bind, bind_error hread, Access.update_error (Records.append_error hrange)]
    exact .error
  | ok r =>
    have hrange : (recordsIn f).range = .ok r := hfound
    rw [Access.positions_append hrange] at spared
    cases hends : (append txs).eval f with
    | ok r' f' =>
      obtain ⟨r'', appended, rfl⟩ := append_ok hends
      obtain rfl : r = r'' := Except.ok.inj (hfound.symm.trans appended.range)
      rw [Access.update_ok (Records.append_ok hrange appended.fits)]
      have hnext : (recordsIn f').range = .ok ⟨r.start, r.stop + UInt64.ofNat txs.length⟩ := appended.next
      have hentry := funext (appended.entry spared sized)
      refine .ok rfl ?_
      rw [recordsIn_of_state appended.state, hnext, hentry]
      rfl
    | error fault f' =>
      obtain ⟨-, hbad⟩ | ⟨r', hr', hfull, -⟩ := append_stops hends
      · cases hfound.symm.trans hbad
      obtain rfl : r = r' := Except.ok.inj (hfound.symm.trans hr')
      rw [fault_of_append hfound hends, Access.update_error (Records.append_full hrange hfull)]
      exact .error

theorem Popped.entry {entries : List QueueEntry} {next : UInt64} (h : Popped f r entries f')
    (hlive : entries.map (·.position) = live { r with stop := next })
    (spared : reserved ∉ live { r with stop := next }) (position : UInt64) :
    (recordsIn f').entry position
      = if position ∈ live { r with stop := next } then .error (.entryMissing position)
        else (recordsIn f).entry position := by
  split
  next hpopped =>
    have hreserved : position ≠ reserved := fun hsame => spared (hsame ▸ hpopped)
    rw [← hlive, List.mem_map] at hpopped
    obtain ⟨entry, hentry, rfl⟩ := hpopped
    have hrecord : f'.byKey (.entry entry.position) = none := h.gone entry hentry
    simp [recordsIn, Records.under, hreserved, hrecord, readRecord]
  next hkept =>
    by_cases hreserved : position = reserved
    · simp [recordsIn, Records.under, hreserved]
    · have hrecord : f'.byKey (.entry position) = f.byKey (.entry position) := by
        refine h.others _ (fun hkey => hreserved (Key.entry_eq_queue.1 hkey)) fun entry hentry hkey => ?_
        rw [← hlive, Key.entry_bytes_inj hkey] at hkept
        exact hkept (List.mem_map_of_mem hentry)
      simp [recordsIn, Records.under, hreserved, hrecord]

theorem popFront_matches {most : UInt64} (spares : (Access.popFront most).Spares (recordsIn f)) :
    Matches Eq (fun g m => recordsIn g = m) ((popFront most).eval f)
      (Access.update (·.popFront most) (recordsIn f)) := by
  have hspared {r : QueueRange} {size : UInt64} (hrange : rangeIn f = .ok r) (hsize : r.size = .ok size) :
      reserved ∉ live { r with stop := r.start + min size most } := by
    have hspared := spares.1
    rw [Access.positions_popFront hrange] at hspared
    unfold QueueRange.size at hsize
    split at hsize
    · cases hsize
      exact hspared
    · cases hsize
  cases hends : (popFront most).eval f with
  | ok entries f' =>
    obtain ⟨r, _, hread, hsized⟩ := eval_bind_ok.1 hends
    obtain ⟨hrange, rfl⟩ := range_ok.1 hread
    obtain ⟨size, _, hcount, hloaded⟩ := eval_bind_ok.1 hsized
    obtain ⟨hsize, rfl⟩ := eval_ofExcept_ok.1 hcount
    obtain ⟨entries', _, hload, hdeleting⟩ := eval_bind_ok.1 hloaded
    have hlive := (load_ok hload).1
    rw [load_eval (hspared hrange hsize)] at hload
    obtain ⟨hfound, rfl⟩ := eval_ofExcept_ok.1 hload
    obtain ⟨_, g, -, hset⟩ := eval_bind_ok.1 hdeleting
    obtain ⟨_, _, hwrite, hdone⟩ := eval_bind_ok.1 hset
    cases hwrite
    obtain ⟨rfl, rfl⟩ := eval_pure_ok.1 hdone
    obtain ⟨r', popped, -⟩ := popFront_ok hends
    obtain rfl : r = r' := Except.ok.inj (hrange.symm.trans popped.range)
    have hnext := rangeIn_put g { r with start := r.start + min size most }
    have hentry := funext (popped.entry hlive (hspared hrange hsize))
    rw [Access.update_ok (Records.popFront_ok hrange hsize hfound)]
    refine .ok rfl ?_
    rw [recordsIn_of_state popped.state, hentry]
    exact Records.ext rfl rfl rfl rfl hnext rfl
  | error fault f' =>
    obtain hrange | ⟨r, _, hread, hsized⟩ := eval_bind_stops.1 hends
    · rw [Access.update_error (Records.popFront_error (range_stops.1 hrange).1)]
      exact .error
    obtain ⟨hrange, rfl⟩ := range_ok.1 hread
    obtain hsize | ⟨size, _, hcount, hloaded⟩ := eval_bind_stops.1 hsized
    · rw [Access.update_error (Records.popFront_unsized hrange (eval_ofExcept_stops.1 hsize).1)]
      exact .error
    obtain ⟨hsize, rfl⟩ := eval_ofExcept_ok.1 hcount
    obtain hload | ⟨entries, _, -, hdeleting⟩ := eval_bind_stops.1 hloaded
    · rw [load_eval (hspared hrange hsize)] at hload
      rw [Access.update_error (Records.popFront_unread hrange hsize (eval_ofExcept_stops.1 hload).1)]
      exact .error
    obtain hdelete | ⟨_, _, -, hset⟩ := eval_bind_stops.1 hdeleting
    · obtain ⟨_, _, _, _, -, -, hentry⟩ := eval_forM_stops hdelete
      exact absurd hentry eval_delete_stops
    obtain hwrite | ⟨_, _, -, hdone⟩ := eval_bind_stops.1 hset
    · exact absurd hwrite eval_write_stops
    · exact absurd hdone eval_pure_stops

end Queue

/-- An access of the store answers what the maps answer, and leaves what they leave. -/
theorem Access.perform_matches (a : Access) (spares : a.Spares (recordsIn f)) :
    Matches Eq (fun g m => recordsIn g = m) (a.perform.eval f) (a.step (recordsIn f)) := by
  cases a with
  | account address => exact matches_answer (·.account address) (State.account_eval f address)
  | code address => exact matches_answer (·.code address) (State.code_eval f address)
  | storage sequence slot => exact .ok rfl rfl
  | counter first => exact matches_answer (·.counter first) (State.counter_eval f first)
  | range => exact matches_answer (·.range) (Queue.range_eval f)
  | load r => exact matches_answer (·.load r) (Queue.load_eval spares.1)
  | append txs => exact Queue.append_matches spares
  | popFront most => exact Queue.popFront_matches spares
  | setAccount address account => exact .ok rfl (recordsIn_put_account f address (by simp))
  | deleteAccount address => exact .ok rfl (recordsIn_put_account f address rfl)
  | setCode address code => exact .ok rfl (recordsIn_put_code f address (by simp))
  | deleteCode address => exact .ok rfl (recordsIn_put_code f address rfl)
  | setCounter first count => exact .ok rfl (recordsIn_put_counter f first count)
  | setStorage sequence slot value =>
    change Matches _ _ ((State.setStorage sequence slot value).eval f)
      (.ok () ((recordsIn f).setSlot sequence slot (State.slotValue value)))
    unfold State.setStorage State.slotValue
    split
    · exact .ok rfl (recordsIn_put_slot f sequence slot none)
    · exact .ok rfl (recordsIn_put_slot f sequence slot (some value))

/-- Accesses in a row, each with its answer. -/
def Access.performAll : List Access → Program (List ((a : Access) × a.Answer))
  | [] => return []
  | a :: rest => do
    let answer ← a.perform
    let answers ← performAll rest
    return ⟨a, answer⟩ :: answers

def Access.stepAll : List Access → EStateM Fault Records (List ((a : Access) × a.Answer))
  | [] => return []
  | a :: rest => do
    let answer ← a.step
    let answers ← stepAll rest
    return ⟨a, answer⟩ :: answers

theorem Access.performAll_matches {accesses : List Access} (spares : sparesAll accesses (recordsIn f) = true) :
    Matches Eq (fun g m => recordsIn g = m) ((performAll accesses).eval f)
      (stepAll accesses (recordsIn f)) := by
  induction accesses generalizing f with
  | nil => exact .ok rfl rfl
  | cons a rest ih =>
    rw [sparesAll, Bool.and_eq_true, decide_eq_true_eq] at spares
    obtain ⟨hfirst, hrest⟩ := spares
    rw [performAll, stepAll, eval_bind]
    refine (a.perform_matches hfirst).bind ?_
    rintro answer _ g m hstep rfl rfl
    rw [hstep] at hrest
    rw [eval_bind]
    refine (ih hrest).bind ?_
    rintro answers _ h m - rfl rfl
    exact .ok rfl rfl

end

/-- Whatever is accessed in a row, at whatever depth of overlays, each kind of record behaves as a map of its
own, and behind the keys of the state the entries are in the order of their positions. -/
theorem Records.independent {v : View} {accesses : List Access}
    (spares : Access.sparesAll accesses (recordsIn v.contents) = true) :
    Matches Eq (fun w m => recordsIn w.contents = m) ((Access.performAll accesses).run v)
        (Access.stepAll accesses (recordsIn v.contents)) ∧
      (∀ k k' : Key, k ≠ k' → (k.bytes = k'.bytes ↔
        k = .queue ∧ k' = .entry Queue.reserved ∨ k = .entry Queue.reserved ∧ k' = .queue)) ∧
      (∀ p : UInt64, p.toNat < 2 ^ 62 → ((Key.entry p).bytes = Key.queue.bytes ↔ p = Queue.reserved)) ∧
      (∀ p q : UInt64, q.toNat < 2 ^ 62 → p < q →
        compare (Key.entry p).bytes (Key.entry q).bytes = .lt) ∧
      ∀ (k : Key) (p : UInt64), k.isState = true → p.toNat < 2 ^ 62 →
        compare k.bytes (Key.entry p).bytes = .lt := by
  refine ⟨?_, fun k k' hne => ?_, fun p _ => Key.entry_eq_queue, fun p q => Key.compare_entry,
    fun k p hk => Key.compare_state_entry hk⟩
  · have hmatches := Access.performAll_matches spares
    rw [eval_contents] at hmatches
    cases hrun : (Access.performAll accesses).run v with
    | ok answers w =>
      rw [hrun] at hmatches
      generalize Access.stepAll accesses (recordsIn v.contents) = outcome at hmatches
      cases hmatches with
      | ok ha hr => exact .ok ha hr
    | error fault w =>
      rw [hrun] at hmatches
      generalize Access.stepAll accesses (recordsIn v.contents) = outcome at hmatches
      cases hmatches with
      | error => exact .error
  · rw [Key.bytes_eq_iff]
    exact or_iff_right hne

namespace Records

/-- An account and a slot are written, two transactions are appended and one is taken off. -/
def sampleAccesses : List Access :=
  let tx : Transaction := { sender := 1, destination := none, nonce := 0, value := 0, gasPrice := 0,
                            gasLimit := 0, data := [1, 2], height := 0 }
  [.setAccount 1 { balance := 5 }, .setStorage 1 0 [7], .append [tx, tx], .setStorage 1 0 [],
    .popFront 1, .account 1, .storage 1 0, .range]

/-- What accesses answered about slots and pointers. -/
def sampleAnswers (answers : List ((a : Access) × a.Answer)) : List (Option Bytes ⊕ QueueRange) :=
  answers.filterMap fun
    | ⟨.storage _ _, value⟩ => some (.inl value)
    | ⟨.range, r⟩ => some (.inr r)
    | _ => none

theorem sampleAccesses_independent : ∃ answers w,
    (Access.performAll sampleAccesses).run {} = .ok answers w ∧
      sampleAnswers answers = [.inl none, .inr ⟨1, 2⟩] := by
  have spares : Access.sparesAll sampleAccesses (recordsIn ({} : View).contents) = true := by
    decide +kernel
  have hends : endsWith (Access.stepAll sampleAccesses (recordsIn ({} : View).contents))
      (fun answers _ => sampleAnswers answers = [.inl none, .inr ⟨1, 2⟩]) = true := by
    decide +kernel
  obtain ⟨answers, m, hstep, hanswers⟩ := endsWith_iff.1 hends
  have hmatches := (independent spares).1
  rw [hstep] at hmatches
  generalize hrun : (Access.performAll sampleAccesses).run {} = outcome at hmatches
  cases hmatches with
  | ok ha _ =>
    subst ha
    exact ⟨_, _, rfl, of_decide_eq_true hanswers⟩

end Records

end RoundLedger
