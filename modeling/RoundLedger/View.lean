import RoundLedger.Bytes
import Std.Data.ExtTreeMap
import Std.Data.ExtTreeSet

/-!
# Stores, overlays and views

A store maps keys to values. An overlay lies over a store or over another overlay: writes
stay in it, and every key that had to be looked up below it is noted. A view is a store with
the overlays open over it. What it holds is said by `View.value`: a write changes one value
(`value_put`), and writes put into a view hide what was there before (`value_apply`).
-/

namespace RoundLedger

abbrev Store := Std.ExtTreeMap Bytes Bytes compare

abbrev KeySet := Std.ExtTreeSet Bytes compare

/-- Values to be written, or `none` to be deleted. -/
abbrev Writes := Std.ExtTreeMap Bytes (Option Bytes) compare

namespace Store

def put (s : Store) (key : Bytes) : Option Bytes → Store
  | some value => s.insert key value
  | none => s.erase key

theorem getElem?_put (s : Store) (key other : Bytes) (value : Option Bytes) :
    (s.put key value)[other]? = if key = other then value else s[other]? := by
  cases value <;>
    simp [put, Std.ExtTreeMap.getElem?_insert, Std.ExtTreeMap.getElem?_erase]

end Store

/-! ## Overlays -/

/-- What was touched above a store: the keys looked up below and the buffered writes. -/
structure Overlay where
  reads : KeySet := ∅
  writes : Writes := ∅

namespace Overlay

def write (o : Overlay) (key : Bytes) (value : Option Bytes) : Overlay :=
  { o with writes := o.writes.insert key value }

def noteRead (o : Overlay) (key : Bytes) : Overlay := { o with reads := o.reads.insert key }

/-- Whether a key that was read or written is among the given ones. -/
def conflictsWith (o : Overlay) (written : KeySet) : Bool :=
  o.reads.toList.any written.contains || o.writes.keys.any written.contains

end Overlay

/-! ## Views -/

structure View where
  base : Store := ∅
  /-- The open overlays, the innermost first. -/
  overlays : List Overlay := []

namespace View

/-- Looks a key up, from the innermost overlay down to the store. Every overlay passed on the
way notes the key. -/
def lookUp (base : Store) (key : Bytes) : List Overlay → Option Bytes × List Overlay
  | [] => (base[key]?, [])
  | o :: outer =>
    match o.writes[key]? with
    | some value => (value, o :: outer)
    | none =>
      let (value, outer) := lookUp base key outer
      (value, o.noteRead key :: outer)

/-- The value of a key, and the view with the look-up noted. -/
def get (v : View) (key : Bytes) : Option Bytes × View :=
  let (value, overlays) := lookUp v.base key v.overlays
  (value, { v with overlays })

/-- Writes or deletes a record in the innermost overlay, or in the store when none is open. -/
def put (v : View) (key : Bytes) (value : Option Bytes) : View :=
  match v.overlays with
  | [] => { v with base := v.base.put key value }
  | o :: outer => { v with overlays := o.write key value :: outer }

def opened (v : View) : View := { v with overlays := {} :: v.overlays }

/-- Takes the innermost overlay off without writing it. -/
def taken (v : View) : Option (Overlay × View) :=
  match v.overlays with
  | [] => none
  | o :: outer => some (o, { v with overlays := outer })

/-- Puts buffered writes into the view, in the order of their keys. -/
def apply (v : View) (o : Overlay) : View :=
  o.writes.foldl (fun v key value => v.put key value) v

/-- Closes the innermost overlay, writing it one level down or dropping it. -/
def closed (v : View) (commit : Bool) : View :=
  match v.taken with
  | none => v
  | some (o, v) => if commit then v.apply o else v

/-- Empties the innermost overlay and leaves it open. -/
def cleared (v : View) : View :=
  match v.overlays with
  | [] => v
  | _ :: outer => { v with overlays := {} :: outer }

def pending (v : View) : Nat := (v.overlays.head?.map (·.writes.size)).getD 0

/-! ## Values -/

/-- The value that a look-up finds, whatever it notes on the way. -/
def valueIn (base : Store) (key : Bytes) : List Overlay → Option Bytes
  | [] => base[key]?
  | o :: outer => (o.writes[key]?).getD (valueIn base key outer)

theorem lookUp_fst (base : Store) (key : Bytes) (overlays : List Overlay) :
    (lookUp base key overlays).1 = valueIn base key overlays := by
  induction overlays with
  | nil => rfl
  | cons o outer ih =>
    rw [lookUp, valueIn]
    cases h : o.writes[key]? with
    | none => simp [ih]
    | some value => rfl

/-- Looking up changes no value. -/
theorem valueIn_lookUp (base : Store) (key other : Bytes) (overlays : List Overlay) :
    valueIn base other (lookUp base key overlays).2 = valueIn base other overlays := by
  induction overlays with
  | nil => rfl
  | cons o outer ih =>
    rw [lookUp]
    cases h : o.writes[key]? with
    | none => simp [valueIn, ih, Overlay.noteRead]
    | some value => rfl

def value (v : View) (key : Bytes) : Option Bytes := valueIn v.base key v.overlays

theorem get_fst (v : View) (key : Bytes) : (v.get key).1 = v.value key := lookUp_fst ..

@[simp] theorem value_get (v : View) (key other : Bytes) :
    (v.get key).2.value other = v.value other := valueIn_lookUp ..

/-- A write changes the value of its key and of no other. -/
theorem value_put (v : View) (key other : Bytes) (value : Option Bytes) :
    (v.put key value).value other = if key = other then value else v.value other := by
  obtain ⟨base, overlays⟩ := v
  cases overlays with
  | nil => exact Store.getElem?_put base key other value
  | cons o outer =>
    simp only [View.value, put, valueIn, Overlay.write, Std.ExtTreeMap.getElem?_insert,
      Std.LawfulEqCmp.compare_eq_iff_eq]
    split <;> simp

theorem value_foldl_of_notMem (changes : List (Bytes × Option Bytes)) (v : View) (key : Bytes)
    (h : ∀ change ∈ changes, change.1 ≠ key) :
    (changes.foldl (fun v change => v.put change.1 change.2) v).value key = v.value key := by
  induction changes generalizing v with
  | nil => rfl
  | cons change rest ih =>
    rw [List.foldl_cons, ih _ fun c hc => h c (List.mem_cons_of_mem _ hc), value_put,
      if_neg (h change List.mem_cons_self)]

theorem value_foldl_of_mem (changes : List (Bytes × Option Bytes)) (v : View) (key : Bytes)
    (value : Option Bytes) (distinct : changes.Pairwise fun a b => a.1 ≠ b.1)
    (h : (key, value) ∈ changes) :
    (changes.foldl (fun v change => v.put change.1 change.2) v).value key = value := by
  induction changes generalizing v with
  | nil => cases h
  | cons change rest ih =>
    rw [List.pairwise_cons] at distinct
    rw [List.foldl_cons]
    rcases List.mem_cons.1 h with rfl | h
    · rw [value_foldl_of_notMem _ _ _ fun c hc => (distinct.1 c hc).symm, value_put, if_pos rfl]
    · exact ih _ distinct.2 h

/-- Buffered writes that are put into a view hide what was there before. -/
theorem value_apply (v : View) (o : Overlay) (key : Bytes) :
    (v.apply o).value key = (o.writes[key]?).getD (v.value key) := by
  rw [apply, Std.ExtTreeMap.foldl_eq_foldl_toList]
  cases h : o.writes[key]? with
  | none =>
    rw [value_foldl_of_notMem, Option.getD_none]
    rintro ⟨other, value⟩ hmem rfl
    rw [Std.ExtTreeMap.mem_toList_iff_getElem?_eq_some] at hmem
    rw [h] at hmem
    cases hmem
  | some value =>
    rw [value_foldl_of_mem _ _ _ value, Option.getD_some]
    · exact Std.ExtTreeMap.distinct_keys_toList.imp fun h heq => h (Std.LawfulEqCmp.compare_eq_iff_eq.2 heq)
    · exact Std.ExtTreeMap.mem_toList_iff_getElem?_eq_some.2 h

@[simp] theorem value_opened (v : View) (key : Bytes) : v.opened.value key = v.value key := by
  simp [opened, value, valueIn]

theorem value_taken {v outer : View} {o : Overlay} (h : v.taken = some (o, outer)) (key : Bytes) :
    v.value key = (o.writes[key]?).getD (outer.value key) := by
  obtain ⟨base, overlays⟩ := v
  cases overlays with
  | nil => cases h
  | cons inner rest =>
    cases h
    rfl

end View

end RoundLedger
