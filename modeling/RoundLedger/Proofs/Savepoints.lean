import RoundLedger.Proofs.Agreement

/-!
# Overlays as savepoints

Opening an overlay sets a savepoint, dropping it goes back there, writing it one level down
removes the savepoint. Whatever is done at the innermost level, a view shows what one map with
savepoints holds, and what lies below an open overlay stays as it is.
-/

namespace RoundLedger

namespace Savepoints

/-! ## Actions on a view and on one map -/

inductive Action where
  | get (key : Bytes)
  /-- Sets a value, or deletes the record. -/
  | put (key : Bytes) (value : Option Bytes)
  | opened
  | closed (commit : Bool)
  deriving DecidableEq, Repr

/-- What a map held at a savepoint, and the keys set or deleted since. -/
structure Mark where
  held : Contents
  touched : List Bytes := []

/-- One map that all actions go straight to, with its savepoints, the latest first. -/
structure Marked where
  now : Contents
  marks : List Mark := []

namespace Marked

def put (m : Marked) (key : Bytes) (value : Option Bytes) : Marked where
  now := m.now.put key value
  marks := match m.marks with
    | [] => []
    | mark :: marks => { mark with touched := key :: mark.touched } :: marks

def opened (m : Marked) : Marked := { m with marks := ⟨m.now, []⟩ :: m.marks }

/-- Removes the latest savepoint, so that its changes count for the one before, or goes back to it. -/
def closed (m : Marked) (commit : Bool) : Marked :=
  match m.marks with
  | [] => m
  | mark :: marks =>
    if commit then
      { m with marks := match marks with
          | [] => []
          | below :: marks => { below with touched := mark.touched ++ below.touched } :: marks }
    else { now := mark.held, marks }

end Marked

namespace Action

/-- An action on a view, and the value found if it looks one up. -/
def onView (v : View) : Action → List (Option Bytes) × View
  | get key => ([(v.get key).1], (v.get key).2)
  | put key value => ([], v.put key value)
  | opened => ([], v.opened)
  | closed commit => ([], v.closed commit)

def onMap (m : Marked) : Action → List (Option Bytes) × Marked
  | get key => ([m.now key], m)
  | put key value => ([], m.put key value)
  | opened => ([], m.opened)
  | closed commit => ([], m.closed commit)

/-- Actions one after the other, with all values found on the way. -/
def runAll {σ : Type} (step : σ → Action → List (Option Bytes) × σ) :
    List Action → σ → List (Option Bytes) × σ
  | [], s => ([], s)
  | action :: rest, s =>
    let (found, s) := step s action
    let (more, s) := runAll step rest s
    (found ++ more, s)

/-- Whether an overlay stays open that has `above` others open over it. -/
def stayOpen : Nat → List Action → Bool
  | _, [] => true
  | above, opened :: rest => stayOpen (above + 1) rest
  | 0, closed _ :: _ => false
  | above + 1, closed _ :: rest => stayOpen above rest
  | above, _ :: rest => stayOpen above rest

end Action

/-! ## Writes put one level down -/

theorem mem_write {o : Overlay} {key other : Bytes} {value : Option Bytes} :
    other ∈ (o.write key value).writes ↔ key = other ∨ other ∈ o.writes := by
  simp [Overlay.write, Std.ExtTreeMap.mem_insert]

theorem apply_eq_foldl (v : View) (o : Overlay) :
    v.apply o = o.writes.toList.foldl (fun v change => v.put change.1 change.2) v :=
  Std.ExtTreeMap.foldl_eq_foldl_toList

theorem foldl_put_over (base : Store) (outer : List Overlay) (changes : List (Bytes × Option Bytes))
    (p : Overlay) : ∃ p' : Overlay,
      changes.foldl (fun v change => v.put change.1 change.2) (⟨base, p :: outer⟩ : View)
        = ⟨base, p' :: outer⟩ ∧
      ∀ key, key ∈ p'.writes ↔ key ∈ changes.map Prod.fst ∨ key ∈ p.writes := by
  induction changes generalizing p with
  | nil => exact ⟨p, rfl, by simp⟩
  | cons change rest ih =>
    obtain ⟨p', hfold, hkeys⟩ := ih (p.write change.1 change.2)
    refine ⟨p', hfold, fun key => ?_⟩
    rw [hkeys, mem_write, List.map_cons, List.mem_cons, eq_comm (a := key), or_assoc, or_left_comm]

/-- Put into an overlay, they join its writes. What lies below it stays. -/
theorem apply_over (base : Store) (p : Overlay) (outer : List Overlay) (o : Overlay) :
    ∃ p' : Overlay, (⟨base, p :: outer⟩ : View).apply o = ⟨base, p' :: outer⟩ ∧
      ∀ key, key ∈ p'.writes ↔ key ∈ o.writes ∨ key ∈ p.writes := by
  obtain ⟨p', hfold, hkeys⟩ := foldl_put_over base outer o.writes.toList p
  refine ⟨p', (apply_eq_foldl _ _).trans hfold, fun key => ?_⟩
  rw [hkeys, Std.ExtTreeMap.map_fst_toList_eq_keys, Std.ExtTreeMap.mem_keys]

/-! ## What a view shows -/

/-- A view shows the one map, and without its innermost overlay it shows the map as it was at
the latest savepoint. The overlay writes the keys touched since then. -/
inductive Shows : View → Marked → Prop
  | store {base now} : (⟨base, []⟩ : View).contents = now → Shows ⟨base, []⟩ ⟨now, []⟩
  | layer {base o outer now held touched marks} : (⟨base, o :: outer⟩ : View).contents = now →
      (∀ key, key ∈ o.writes ↔ key ∈ touched) → Shows ⟨base, outer⟩ ⟨held, marks⟩ →
      Shows ⟨base, o :: outer⟩ ⟨now, ⟨held, touched⟩ :: marks⟩

namespace Shows

variable {v : View} {m : Marked}

theorem contents (h : Shows v m) : v.contents = m.now := by
  cases h with
  | store hnow => exact hnow
  | layer hnow _ _ => exact hnow

/-- A look-up notes keys; neither values nor writes change. -/
theorem get (h : Shows v m) (key : Bytes) : Shows (v.get key).2 m := by
  induction h with
  | store hnow => exact .store hnow
  | @layer base o outer now held touched marks hnow htouched houter ih =>
    rw [View.get, View.lookUp]
    cases o.writes[key]? with
    | some value => exact .layer hnow htouched houter
    | none =>
      refine .layer ?_ htouched ih
      rw [← hnow]
      funext other
      simp only [View.contents, View.value, View.valueIn, View.valueIn_lookUp, Overlay.writes_noteRead]

theorem put (h : Shows v m) (key : Bytes) (value : Option Bytes) : Shows (v.put key value) (m.put key value) := by
  have hput := v.contents_put key value
  rw [h.contents] at hput
  cases h with
  | store _ => exact .store hput
  | layer _ htouched houter =>
    refine .layer hput (fun other => ?_) houter
    rw [mem_write, htouched, List.mem_cons, eq_comm]

theorem opened (h : Shows v m) : Shows v.opened m.opened := by
  refine .layer ?_ (fun key => by simp) h
  rw [← h.contents]
  exact funext v.value_opened

/-- Writes that go one level down show as before, and their keys are touched there. -/
theorem applied {base : Store} {o : Overlay} {outer : List Overlay}
    (h : Shows ⟨base, o :: outer⟩ m) : Shows ((⟨base, outer⟩ : View).apply o) (m.closed true) := by
  have happlied : ((⟨base, outer⟩ : View).apply o).contents = m.now :=
    (View.contents_applied _ _).trans h.contents
  cases h with
  | layer _ htouched houter =>
    cases houter with
    | store _ =>
      have hidle := View.overlays_apply (v := ⟨base, []⟩) rfl o
      generalize (⟨base, []⟩ : View).apply o = w at happlied hidle ⊢
      obtain ⟨base', overlays⟩ := w
      cases hidle
      exact .store happlied
    | layer _ hbelow hrest =>
      obtain ⟨p', hover, hkeys⟩ := apply_over _ _ _ o
      rw [hover] at happlied ⊢
      refine .layer happlied (fun key => ?_) hrest
      rw [hkeys, htouched, hbelow, List.mem_append]

theorem closed (h : Shows v m) (commit : Bool) : Shows (v.closed commit) (m.closed commit) := by
  obtain ⟨base, overlays⟩ := v
  cases overlays with
  | nil =>
    cases h with
    | store hnow => exact .store hnow
  | cons o outer =>
    cases commit with
    | true => exact h.applied
    | false =>
      cases h with
      | layer _ _ houter => exact houter

theorem onView (h : Shows v m) (action : Action) :
    (action.onView v).1 = (action.onMap m).1 ∧ Shows (action.onView v).2 (action.onMap m).2 := by
  cases action with
  | get key =>
    refine ⟨?_, h.get key⟩
    rw [Action.onView, Action.onMap, View.get_fst, ← h.contents]
    rfl
  | put key value => exact ⟨rfl, h.put key value⟩
  | opened => exact ⟨rfl, h.opened⟩
  | closed commit => exact ⟨rfl, h.closed commit⟩

theorem runAll (h : Shows v m) (actions : List Action) :
    (Action.runAll Action.onView actions v).1 = (Action.runAll Action.onMap actions m).1 ∧
      Shows (Action.runAll Action.onView actions v).2 (Action.runAll Action.onMap actions m).2 := by
  induction actions generalizing v m with
  | nil => exact ⟨rfl, h⟩
  | cons action rest ih =>
    obtain ⟨hfound, hstep⟩ := h.onView action
    obtain ⟨hmore, hrest⟩ := ih hstep
    refine ⟨?_, hrest⟩
    simp only [Action.runAll, hfound, hmore]

end Shows

/-! ## What lies below an open overlay -/

/-- A view with overlays open over another one, which is as it was but for the look-ups it noted. -/
def Covers (v w : View) (count : Nat) : Prop :=
  w.base = v.base ∧ w.overlays.length = count + v.overlays.length ∧
    (w.overlays.drop count).map Overlay.writes = v.overlays.map Overlay.writes

theorem writes_lookUp (base : Store) (key : Bytes) (overlays : List Overlay) :
    (View.lookUp base key overlays).2.map Overlay.writes = overlays.map Overlay.writes := by
  induction overlays with
  | nil => rfl
  | cons o outer ih =>
    rw [View.lookUp]
    cases o.writes[key]? with
    | some value => rfl
    | none => simp [ih]

namespace Covers

variable {v w : View} {count : Nat}

theorem opened (h : Covers v w count) : Covers v w.opened (count + 1) := by
  obtain ⟨hbase, hlength, hwrites⟩ := h
  refine ⟨hbase, ?_, hwrites⟩
  simp only [View.opened, List.length_cons]
  omega

theorem get (h : Covers v w count) (key : Bytes) : Covers v (w.get key).2 count := by
  obtain ⟨hbase, hlength, hwrites⟩ := h
  have hsame := writes_lookUp w.base key w.overlays
  refine ⟨hbase, ?_, ?_⟩
  · have hlook := congrArg List.length hsame
    rw [List.length_map, List.length_map] at hlook
    exact hlook.trans hlength
  · rw [← hwrites, List.map_drop, List.map_drop]
    exact congrArg _ hsame

theorem put (h : Covers v w (count + 1)) (key : Bytes) (value : Option Bytes) :
    Covers v (w.put key value) (count + 1) := by
  obtain ⟨base, overlays⟩ := w
  obtain ⟨hbase, hlength, hwrites⟩ := h
  cases overlays with
  | nil =>
    rw [List.length_nil] at hlength
    omega
  | cons o outer => exact ⟨hbase, hlength, hwrites⟩

/-- With another overlay between, closing the innermost one leaves what lies below as it is. -/
theorem closed (h : Covers v w (count + 2)) (commit : Bool) : Covers v (w.closed commit) (count + 1) := by
  obtain ⟨base, overlays⟩ := w
  obtain ⟨hbase, hlength, hwrites⟩ := h
  rcases overlays with - | ⟨o, - | ⟨p, outer⟩⟩
  · rw [List.length_nil] at hlength
    omega
  · rw [List.length_singleton] at hlength
    omega
  · obtain ⟨p', hclosed⟩ : ∃ p',
        (⟨base, o :: p :: outer⟩ : View).closed commit = ⟨base, p' :: outer⟩ := by
      cases commit with
      | false => exact ⟨p, rfl⟩
      | true =>
        obtain ⟨p', hover, -⟩ := apply_over base p outer o
        exact ⟨p', hover⟩
    rw [hclosed]
    refine ⟨hbase, ?_, hwrites⟩
    simp only [List.length_cons] at hlength ⊢
    omega

/-- While an overlay stays open, so does what lies below it. -/
theorem runAll (h : Covers v w (count + 1)) {actions : List Action}
    (stay : Action.stayOpen count actions = true) :
    ∃ count', Covers v (Action.runAll Action.onView actions w).2 (count' + 1) := by
  induction actions generalizing w count with
  | nil => exact ⟨count, h⟩
  | cons action rest ih =>
    cases action with
    | get key => exact ih (h.get key) stay
    | put key value => exact ih (h.put key value) stay
    | opened => exact ih h.opened stay
    | closed commit =>
      cases count with
      | zero => cases stay
      | succ count => exact ih (h.closed commit) stay

end Covers

/-! ## The main result -/

open RoundLedger.Savepoints.Action (runAll onView onMap stayOpen)

/-- A view finds what one map with savepoints finds, and shows what that map holds. What lies
below an overlay stays as it is while the overlay is open. Taken off and applied, an overlay
leaves what closing it with a commit leaves, and is recorded with the keys touched in it. -/
theorem runAll_eq_marked (base : Store) (actions : List Action) :
    let (found, v) := runAll onView actions { base }
    let (expected, m) := runAll onMap actions { now := fun key => base[key]? }
    found = expected ∧ v.contents = m.now ∧
      (∀ during, stayOpen 0 during = true →
        ∃ count, Covers v (runAll onView during v.opened).2 (count + 1)) ∧
      ∀ o outer, v.taken = some (o, outer) → ∃ held touched marks,
        m.marks = ⟨held, touched⟩ :: marks ∧
        v.closed false = outer ∧ outer.contents = held ∧
        v.closed true = outer.apply o ∧ (outer.apply o).contents = m.now ∧
        ∀ (p : Rounds.Progress) position result key,
          key ∈ (p.commit position result o).written ↔ key ∈ p.written ∨ key ∈ touched := by
  have hstart : Shows { base } { now := fun key => base[key]? } := .store rfl
  obtain ⟨hfound, hshows⟩ := hstart.runAll actions
  dsimp only
  generalize runAll onView actions { base } = ran at hfound hshows ⊢
  generalize runAll onMap actions { now := fun key => base[key]? } = marked at hfound hshows ⊢
  obtain ⟨found, v⟩ := ran
  obtain ⟨expected, m⟩ := marked
  refine ⟨hfound, hshows.contents, fun during stay => ?_, fun o outer htaken => ?_⟩
  · have hcovers : Covers v v.opened 1 := ⟨rfl, Nat.add_comm _ _, rfl⟩
    exact hcovers.runAll stay
  · cases hshows with
    | store _ => cases htaken
    | layer hnow htouched houter =>
      cases htaken
      refine ⟨_, _, _, rfl, rfl, houter.contents, rfl, ?_, fun p position result key => ?_⟩
      · exact (View.contents_applied _ _).trans hnow
      · rw [← htouched]
        exact Overlay.mem_foldl_insert o p.written key

/-- A deletion in an overlay that stays open, a write in a second one that is kept, and one in a
third that is dropped. -/
def sampleActions : List Action :=
  [.opened, .put [1] none, .opened, .put [2] (some [5]), .get [1], .closed true, .opened,
    .put [1] (some [9]), .get [1], .closed false, .get [1], .get [2]]

def sampleBase : Store := (∅ : Store).insert [1] [7]

theorem sampleActions_marked :
    (runAll onView sampleActions { base := sampleBase }).1 = [none, some [9], none, some [5]] ∧
      (∃ count, Covers (runAll onView sampleActions { base := sampleBase }).2
        (runAll onView [.opened, .put [1] none, .closed true]
          (runAll onView sampleActions { base := sampleBase }).2.opened).2 (count + 1)) ∧
      ∃ o outer, (runAll onView sampleActions { base := sampleBase }).2.taken = some (o, outer) ∧
        outer.contents [1] = some [7] ∧ (outer.apply o).contents [1] = none ∧
        ∀ (p : Rounds.Progress) position result key,
          key ∈ (p.commit position result o).written ↔ key ∈ p.written ∨ key ∈ [[2], [1]] := by
  obtain ⟨hfound, -, hcovers, hover⟩ := runAll_eq_marked sampleBase sampleActions
  have hopen : (runAll onView sampleActions { base := sampleBase }).2.taken.isSome = true := by
    decide +kernel
  obtain ⟨⟨o, outer⟩, htaken⟩ := Option.isSome_iff_exists.1 hopen
  obtain ⟨held, touched, marks, hmarks, -, houter, -, happlied, hwritten⟩ := hover o outer htaken
  cases hmarks
  refine ⟨hfound, hcovers _ rfl, o, outer, htaken, ?_, ?_, hwritten⟩
  · rw [houter]
    decide +kernel
  · rw [happlied]
    decide +kernel

end Savepoints

end RoundLedger
