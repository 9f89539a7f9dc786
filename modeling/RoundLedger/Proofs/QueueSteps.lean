import Mathlib.Data.List.Basic
import RoundLedger.Proofs.Footprint
import RoundLedger.Proofs.Keys

/-!
# The queue on contents

What taking off the front (`popFront_ok`) and putting at the end (`append_ok`) do to the records of
the queue. Whatever is put at the reserved position is lost: the pointers are written over it.
-/

namespace RoundLedger

/-! ## Stored entries -/

namespace Entry

theorem length_of_take {size : Nat} {bytes front rest : Bytes}
    (h : take size bytes = some (front, rest)) :
    front.length = size ∧ front.length + rest.length = bytes.length := by
  unfold take at h
  split at h
  · cases h
    simp only [List.length_take, List.length_drop]
    omega
  · cases h

theorem length_of_readBlock {bytes block rest : Bytes} (h : readBlock bytes = some (block, rest)) :
    block.length < UInt64.size ∧ 8 + block.length ≤ bytes.length := by
  obtain ⟨⟨digits, behind⟩, hdigits, hblock⟩ := Option.bind_eq_some_iff.1 h
  obtain ⟨height, hbehind⟩ := length_of_take hdigits
  obtain ⟨hsize, hrest⟩ := length_of_take hblock
  have hlt := BigEndian.decode_lt digits.reverse
  rw [List.length_reverse, height] at hlt
  refine ⟨?_, by omega⟩
  rw [hsize]
  exact hlt

theorem length_of_readFixed {size : Nat} {bytes block rest : Bytes}
    (h : readFixed size bytes = some (block, rest)) : 8 + size ≤ bytes.length := by
  obtain ⟨⟨block', rest'⟩, hblock, hsize⟩ := Option.bind_eq_some_iff.1 h
  have hlength := (length_of_readBlock hblock).2
  dsimp only at hsize
  split at hsize
  · omega
  · cases hsize

/-- A record as short as that of the pointers holds no transaction. -/
theorem decode_of_short {record : Bytes} (h : record.length < 28) : decode record = none := by
  cases hdecode : decode record with
  | none => rfl
  | some tx =>
    obtain ⟨⟨sender, rest⟩, hsender, -⟩ := Option.bind_eq_some_iff.1 hdecode
    have hlength := length_of_readFixed hsender
    omega

theorem length_data_of_decode {record : Bytes} {tx : Transaction} (h : decode record = some tx) :
    tx.data.length < UInt64.size := by
  simp only [decode, Option.bind_eq_bind, Option.bind_eq_some_iff] at h
  obtain ⟨_, -, _, -, _, -, _, -, _, -, _, -, ⟨data, rest⟩, hdata, _, -, htx⟩ := h
  cases htx
  exact (length_of_readBlock hdata).1

end Entry

namespace Queue

open Step Program

/-! ## Positions -/

def positions (start : UInt64) : Nat → List UInt64
  | 0 => []
  | count + 1 => start :: positions (start + 1) count

@[simp] theorem length_positions (start : UInt64) (count : Nat) :
    (positions start count).length = count := by
  induction count generalizing start with
  | zero => rfl
  | succ count ih => simp [positions, ih]

theorem positions_add (start : UInt64) (m n : Nat) :
    positions start (m + n) = positions start m ++ positions (start + UInt64.ofNat m) n := by
  induction m generalizing start with
  | zero => simp [positions]
  | succ m ih =>
    have hnext : start + 1 + UInt64.ofNat m = start + UInt64.ofNat (m + 1) := by
      rw [UInt64.ofNat_add, UInt64.add_assoc, UInt64.add_comm 1]
      rfl
    rw [Nat.succ_add, positions, positions, ih, hnext, List.cons_append]

theorem mem_positions {start p : UInt64} {count : Nat} (h : start.toNat + count ≤ UInt64.size) :
    p ∈ positions start count ↔ start.toNat ≤ p.toNat ∧ p.toNat < start.toNat + count := by
  induction count generalizing start with
  | zero => simp [positions]
  | succ count ih =>
    have hstart := start.toNat_lt
    have hp := p.toNat_lt
    have hnext : (start + 1).toNat = (start.toNat + 1) % 2 ^ 64 := by rw [UInt64.toNat_add]; rfl
    have hsize : UInt64.size = 2 ^ 64 := rfl
    rw [positions, List.mem_cons, ← UInt64.toNat_inj]
    -- The position behind the last one of all is zero, but then no position is left to name.
    by_cases hlast : count = 0
    · subst hlast
      simp only [positions, List.not_mem_nil, or_false]
      omega
    · rw [ih (by omega)]
      omega

theorem positions_ascending {start : UInt64} {count : Nat} (h : start.toNat + count ≤ UInt64.size) :
    (positions start count).Pairwise (· < ·) := by
  induction count generalizing start with
  | zero => exact .nil
  | succ count ih =>
    have hstart := start.toNat_lt
    have hnext : (start + 1).toNat = (start.toNat + 1) % 2 ^ 64 := by rw [UInt64.toNat_add]; rfl
    have hsize : UInt64.size = 2 ^ 64 := rfl
    by_cases hlast : count = 0
    · subst hlast
      simp [positions]
    · have hfits : (start + 1).toNat + count ≤ UInt64.size := by omega
      refine .cons (fun p hp => ?_) (ih hfits)
      have hrange := (mem_positions hfits).1 hp
      rw [UInt64.lt_iff_toNat_lt]
      omega

/-! ## What is stored -/

def rangeIn (f : Contents) : Except Fault QueueRange :=
  match f Key.queue.bytes with
  | none => .ok {}
  | some record => QueueRange.decode record

def entryIn (f : Contents) (position : UInt64) : Option Transaction :=
  (f (Key.entry position).bytes).bind Entry.decode

theorem range_ok {f f' : Contents} {r : QueueRange} :
    range.eval f = .ok r f' ↔ rangeIn f = .ok r ∧ f = f' := by
  unfold range rangeIn
  cases hrecord : f Key.queue.bytes with
  | none => simp [hrecord]
  | some record => simp [hrecord]

theorem rangeIn_congr {f g : Contents} (h : ∀ key, Key.IsQueue key → f key = g key) :
    rangeIn f = rangeIn g := by
  rw [rangeIn, rangeIn, h _ Key.isQueue_queue]

theorem entryIn_congr {f g : Contents} (h : ∀ key, Key.IsQueue key → f key = g key)
    (position : UInt64) : entryIn f position = entryIn g position := by
  rw [entryIn, entryIn, h _ (Key.isQueue_entry position)]

/-- There is never an entry at the reserved position: the pointers are there. -/
theorem entryIn_reserved {f : Contents} {r : QueueRange} (h : rangeIn f = .ok r) :
    entryIn f reserved = none := by
  have hkey : (Key.entry reserved).bytes = Key.queue.bytes := Key.entry_eq_queue.2 rfl
  rw [entryIn, hkey]
  unfold rangeIn QueueRange.decode at h
  cases hrecord : f Key.queue.bytes with
  | none => rfl
  | some record =>
    rw [hrecord] at h
    dsimp only at h
    split at h
    · exact Entry.decode_of_short (by omega)
    · cases h

def live (r : QueueRange) : List UInt64 := positions r.start (r.stop.toNat - r.start.toNat)

/-! ## Off the front -/

theorem readEntry_ok {f f' : Contents} {position : UInt64} {entry : QueueEntry}
    (h : (readEntry position).eval f = .ok entry f') :
    entry.position = position ∧ entryIn f position = some entry.tx ∧ f' = f := by
  obtain ⟨_, _, ⟨⟩, hrecorded⟩ := eval_bind_ok.1 h
  obtain ⟨record, _, hlook, hdecoded⟩ := eval_bind_ok.1 hrecorded
  obtain ⟨hrecord, rfl⟩ := eval_orFail_ok.1 hlook
  obtain ⟨tx, _, hread, hdone⟩ := eval_bind_ok.1 hdecoded
  obtain ⟨hdecode, rfl⟩ := eval_orFail_ok.1 hread
  obtain ⟨rfl, rfl⟩ := eval_pure_ok.1 hdone
  refine ⟨rfl, ?_, rfl⟩
  rw [entryIn, hrecord]
  exact hdecode

theorem readFrom_ok {f f' : Contents} {position : UInt64} {count : Nat} {entries : List QueueEntry}
    (h : (readFrom position count).eval f = .ok entries f') :
    entries.map (·.position) = positions position count ∧
      (∀ entry ∈ entries, entryIn f entry.position = some entry.tx) ∧ f' = f := by
  induction count generalizing position entries f' with
  | zero =>
    obtain ⟨rfl, rfl⟩ := eval_pure_ok.1 h
    exact ⟨rfl, by simp, rfl⟩
  | succ count ih =>
    rw [readFrom] at h
    obtain ⟨entry, _, hentry, hbehind⟩ := eval_bind_ok.1 h
    obtain ⟨hposition, hfound, rfl⟩ := readEntry_ok hentry
    obtain ⟨rest, _, hrest, hdone⟩ := eval_bind_ok.1 hbehind
    obtain ⟨hpositions, hall, rfl⟩ := ih hrest
    obtain ⟨rfl, rfl⟩ := eval_pure_ok.1 hdone
    refine ⟨by simp [positions, hposition, hpositions], ?_, rfl⟩
    rintro other (_ | ⟨_, hother⟩)
    · rw [hposition]
      exact hfound
    · exact hall other hother

theorem load_ok {f f' : Contents} {r : QueueRange} {entries : List QueueEntry}
    (h : (load r).eval f = .ok entries f') :
    entries.map (·.position) = live r ∧
      (∀ entry ∈ entries, entryIn f entry.position = some entry.tx) ∧ f' = f := by
  obtain ⟨_, _, hroom, h⟩ := eval_bind_ok.1 h
  obtain ⟨-, rfl⟩ := eval_ofExcept_ok.1 hroom
  exact readFrom_ok h

/-- What is under the keys of the given entries once they are deleted, and under all others. -/
theorem deleteAll_ok {f f' : Contents} {entries : List QueueEntry} {a : PUnit}
    (h : (entries.forM fun entry => delete (Key.entry entry.position).bytes).eval f = .ok a f')
    (key : Bytes) :
    (∀ entry ∈ entries, key = (Key.entry entry.position).bytes → f' key = none) ∧
      ((∀ entry ∈ entries, key ≠ (Key.entry entry.position).bytes) → f' key = f key) := by
  induction entries generalizing f with
  | nil =>
    obtain ⟨-, rfl⟩ := eval_pure_ok.1 h
    exact ⟨by simp, fun _ => rfl⟩
  | cons entry rest ih =>
    obtain ⟨_, _, ⟨⟩, hrest⟩ := eval_bind_ok.1 h
    obtain ⟨hgone, hkept⟩ := ih hrest
    constructor
    · rintro other (_ | ⟨_, hother⟩) rfl
      · by_cases hagain : ∃ other ∈ rest,
            (Key.entry entry.position).bytes = (Key.entry other.position).bytes
        · obtain ⟨other, hother, hsame⟩ := hagain
          exact hgone other hother hsame
        · rw [hkept fun other hother hsame => hagain ⟨other, hother, hsame⟩, Contents.put_same]
      · exact hgone other hother rfl
    · intro hne
      rw [hkept fun other hother => hne other (List.mem_cons_of_mem _ hother)]
      exact Contents.put_other _ _ (hne entry List.mem_cons_self).symm

/-- Entries were taken off the front: they were stored one after another from the start on, and
nothing but their records and the pointers has changed. -/
structure Popped (f : Contents) (r : QueueRange) (entries : List QueueEntry) (f' : Contents) :
    Prop where
  range : rangeIn f = .ok r
  fits : r.start.toNat + entries.length ≤ r.stop.toNat
  next : rangeIn f' = .ok ⟨r.start + UInt64.ofNat entries.length, r.stop⟩
  consecutive : entries.map (·.position) = positions r.start entries.length
  found : ∀ entry ∈ entries, entryIn f entry.position = some entry.tx
  gone : ∀ entry ∈ entries, f' (Key.entry entry.position).bytes = none
  others : ∀ key, key ≠ Key.queue.bytes →
    (∀ entry ∈ entries, key ≠ (Key.entry entry.position).bytes) → f' key = f key

theorem rangeIn_put (f : Contents) (r : QueueRange) :
    rangeIn (f.put Key.queue.bytes (some r.encode)) = .ok r := by
  rw [rangeIn, Contents.put_same]
  exact QueueRange.decode_encode r

theorem size_ok {r : QueueRange} {size : UInt64} (h : r.size = .ok size) :
    r.start.toNat ≤ r.stop.toNat ∧ size.toNat = r.stop.toNat - r.start.toNat := by
  unfold QueueRange.size at h
  split at h
  next hordered =>
    cases h
    exact ⟨UInt64.le_iff_toNat_le.1 hordered, UInt64.toNat_sub_of_le _ _ hordered⟩
  next => cases h

theorem front_of_live {start size most : UInt64} {entries : List QueueEntry}
    (fits : start.toNat + size.toNat < UInt64.size)
    (h : entries.map (·.position) = live ⟨start, start + min size most⟩) :
    entries.length = min size.toNat most.toNat ∧
      entries.map (·.position) = positions start entries.length ∧
      start + min size most = start + UInt64.ofNat entries.length := by
  have hwide : UInt64.size = 2 ^ 64 := rfl
  have hlast : (start + min size most).toNat = start.toNat + min size.toNat most.toNat := by
    rw [UInt64.toNat_add, UInt64.toNat_min]
    omega
  have hcount : (start + min size most).toNat - start.toNat = min size.toNat most.toNat := by
    rw [hlast]
    omega
  rw [live] at h
  dsimp only at h
  rw [hcount] at h
  have hlength : entries.length = min size.toNat most.toNat := by
    have hlengths := congrArg List.length h
    rwa [List.length_map, length_positions] at hlengths
  refine ⟨hlength, by rw [h, hlength], ?_⟩
  rw [← UInt64.toNat_inj, hlast, UInt64.toNat_add_ofNat (by omega), hlength]

theorem popFront_ok {f f' : Contents} {most : UInt64} {entries : List QueueEntry}
    (h : (popFront most).eval f = .ok entries f') :
    ∃ r, Popped f r entries f' ∧ entries.length = min (r.stop.toNat - r.start.toNat) most.toNat := by
  obtain ⟨r, _, hread, hsized⟩ := eval_bind_ok.1 h
  obtain ⟨hrange, rfl⟩ := range_ok.1 hread
  obtain ⟨size, _, hcount, hloaded⟩ := eval_bind_ok.1 hsized
  obtain ⟨hsize, rfl⟩ := eval_ofExcept_ok.1 hcount
  obtain ⟨entries', _, hload, hdeleting⟩ := eval_bind_ok.1 hloaded
  obtain ⟨hpositions, hfound, rfl⟩ := load_ok hload
  obtain ⟨_, g, hdelete, hset⟩ := eval_bind_ok.1 hdeleting
  obtain ⟨_, _, hwrite, hdone⟩ := eval_bind_ok.1 hset
  cases hwrite
  obtain ⟨rfl, rfl⟩ := eval_pure_ok.1 hdone
  have hdeleted := deleteAll_ok hdelete
  have hstop := r.stop.toNat_lt
  have hwide : UInt64.size = 2 ^ 64 := rfl
  obtain ⟨hordered, hsize⟩ := size_ok hsize
  obtain ⟨hlength, hconsecutive, hnext⟩ := front_of_live (by omega) hpositions
  rw [hsize] at hlength
  refine ⟨r, ⟨hrange, by omega, ?_, hconsecutive, hfound, ?_, ?_⟩, hlength⟩
  · rw [rangeIn_put, hnext]
  · intro entry hentry
    have hkey : Key.queue.bytes ≠ (Key.entry entry.position).bytes := by
      intro hkey
      have hreserved := Key.entry_eq_queue.1 hkey.symm
      have hnone := entryIn_reserved hrange
      rw [← hreserved, hfound entry hentry] at hnone
      cases hnone
    rw [Contents.put_other _ _ hkey]
    exact (hdeleted _).1 entry hentry rfl
  · intro key hkey hne
    rw [Contents.put_other _ _ hkey.symm]
    exact (hdeleted key).2 hne

/-! ## At the end -/

def placed (stop : UInt64) (txs : List Transaction) : List (UInt64 × Transaction) :=
  (positions stop txs.length).zip txs

theorem placed_cons (stop : UInt64) (tx : Transaction) (rest : List Transaction) :
    placed stop (tx :: rest) = (stop, tx) :: placed (stop + 1) rest := rfl

theorem store_ok {f f' : Contents} {stop stop' : UInt64} {txs : List Transaction}
    (h : (store stop txs).eval f = .ok stop' f') :
    stop'.toNat = stop.toNat + txs.length ∧
      (∀ place ∈ placed stop txs, f' (Key.entry place.1).bytes = some (Entry.encode place.2)) ∧
      ∀ key, (∀ p ∈ positions stop txs.length, key ≠ (Key.entry p).bytes) → f' key = f key := by
  induction txs generalizing f stop with
  | nil =>
    obtain ⟨rfl, rfl⟩ := eval_pure_ok.1 h
    exact ⟨rfl, by simp [placed], fun _ _ => rfl⟩
  | cons tx rest ih =>
    rw [store] at h
    obtain ⟨_, _, hwrite, hadded⟩ := eval_bind_ok.1 h
    cases hwrite
    obtain ⟨next, _, hnext, hrest⟩ := eval_bind_ok.1 hadded
    obtain ⟨hnext, rfl⟩ := eval_orFail_ok.1 hnext
    unfold UInt64.add? at hnext
    split at hnext
    next hfits =>
      cases hnext
      obtain ⟨hstop, hstored, hothers⟩ := ih hrest
      have hone : (stop + 1).toNat = stop.toNat + 1 := UInt64.toNat_add_ofNat hfits
      have hwide := stop'.toNat_lt
      have hsize : UInt64.size = 2 ^ 64 := rfl
      rw [hone] at hstop
      refine ⟨by rw [hstop, List.length_cons]; omega, ?_, ?_⟩
      · rw [placed_cons]
        rintro place (_ | ⟨_, hplace⟩)
        · -- The first record is not written over: the others lie at higher positions.
          rw [hothers, Contents.put_same]
          intro p hp hkey
          have hmem := (mem_positions (by omega)).1 hp
          have hsame : stop = p := Key.entry_bytes_inj hkey
          rw [← hsame] at hmem
          omega
        · exact hstored place hplace
      · intro key hne
        rw [hothers key fun p hp => hne p (List.mem_cons_of_mem _ hp)]
        exact Contents.put_other _ _ (hne stop List.mem_cons_self).symm
    next => cases hnext

/-- Transactions were put at the end: each is stored at a position of its own, save at the reserved
one, and nothing but their records and the pointers has changed. -/
structure Appended (f : Contents) (r : QueueRange) (txs : List Transaction) (f' : Contents) :
    Prop where
  range : rangeIn f = .ok r
  fits : r.stop.toNat + txs.length < UInt64.size
  next : rangeIn f' = .ok ⟨r.start, r.stop + UInt64.ofNat txs.length⟩
  stored : ∀ place ∈ placed r.stop txs, place.1 ≠ reserved →
    f' (Key.entry place.1).bytes = some (Entry.encode place.2)
  others : ∀ key, key ≠ Key.queue.bytes →
    (∀ p ∈ positions r.stop txs.length, key ≠ (Key.entry p).bytes) → f' key = f key

theorem append_ok {f f' : Contents} {txs : List Transaction} {r' : QueueRange}
    (h : (append txs).eval f = .ok r' f') :
    ∃ r, Appended f r txs f' ∧ r' = ⟨r.start, r.stop + UInt64.ofNat txs.length⟩ := by
  obtain ⟨r, _, hread, hstored⟩ := eval_bind_ok.1 h
  obtain ⟨hrange, rfl⟩ := range_ok.1 hread
  obtain ⟨stop, g, hstore, hset⟩ := eval_bind_ok.1 hstored
  obtain ⟨_, _, hwrite, hdone⟩ := eval_bind_ok.1 hset
  cases hwrite
  obtain ⟨rfl, rfl⟩ := eval_pure_ok.1 hdone
  obtain ⟨hstop, hentries, hothers⟩ := store_ok hstore
  have hwide := stop.toNat_lt
  have hsize : UInt64.size = 2 ^ 64 := rfl
  have hnext : stop = r.stop + UInt64.ofNat txs.length := by
    rw [← UInt64.toNat_inj, UInt64.toNat_add_ofNat (by omega), hstop]
  refine ⟨r, ⟨hrange, by omega, ?_, ?_, ?_⟩, by rw [← hnext]⟩
  · rw [rangeIn_put, hnext]
  · intro place hplace hreserved
    have hkey : Key.queue.bytes ≠ (Key.entry place.1).bytes :=
      fun hkey => hreserved (Key.entry_eq_queue.1 hkey.symm)
    rw [Contents.put_other _ _ hkey]
    exact hentries place hplace
  · intro key hkey hne
    rw [Contents.put_other _ _ hkey.symm]
    exact hothers key hne

end Queue

end RoundLedger
