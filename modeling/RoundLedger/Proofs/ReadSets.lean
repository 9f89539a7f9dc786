import RoundLedger.Proofs.Contents

/-!
# Read sets

A computation on an overlay may open further overlays over it, reach all that are open, and drop them or write them
one level down. It depends on what lies below its own overlay only at the keys that this overlay notes as read: over
any other base that agrees on them it answers the same and leaves the same reads and writes.
-/

namespace RoundLedger

/-! ## Computations with overlays -/

namespace View

/-- The view without its innermost overlays. -/
def beneath (v : View) (level : Nat) : View := { v with overlays := v.overlays.drop level }

/-- The view with the innermost overlays of another one over it. -/
def covered (v : View) (level : Nat) (other : View) : View :=
  { v with overlays := other.overlays.take level ++ v.overlays }

/-- Looks a key up from an outer overlay on. -/
def getAt (v : View) (level : Nat) (key : Bytes) : Option Bytes × View :=
  let (value, w) := (v.beneath level).get key
  (value, w.covered level v)

/-- Writes or deletes a record in an outer overlay. -/
def putAt (v : View) (level : Nat) (key : Bytes) (value : Option Bytes) : View :=
  ((v.beneath level).put key value).covered level v

end View

/-- A computation on an overlay that has so many others open over it. An access names how many of them it passes by.
Every step may depend on the values found before, and in the end all other overlays are closed. -/
inductive Nested (α : Type) : Nat → Type where
  | done (result : α) : Nested α 0
  | get {depth : Nat} (level : Fin (depth + 1)) (key : Bytes) (next : Option Bytes → Nested α depth) :
      Nested α depth
  /-- Writes a value, or deletes the record. -/
  | put {depth : Nat} (level : Fin (depth + 1)) (key : Bytes) (value : Option Bytes) (next : Nested α depth) :
      Nested α depth
  | opened {depth : Nat} (next : Nested α (depth + 1)) : Nested α depth
  | closed {depth : Nat} (commit : Bool) (next : Nested α depth) : Nested α (depth + 1)

def Nested.run {α : Type} : {depth : Nat} → Nested α depth → View → α × View
  | _, done a, v => (a, v)
  | _, get level key next, v =>
    let (value, v) := v.getAt level key
    (next value).run v
  | _, put level key value next, v => next.run (v.putAt level key value)
  | _, opened next, v => next.run v.opened
  | _, closed commit next, v => next.run (v.closed commit)

/-! ## Steps above the base -/

namespace View

theorem beneath_stack {level : Nat} {inner : List Overlay} (hlevel : level ≤ inner.length) (base : Store)
    (rest : List Overlay) : beneath ⟨base, inner ++ rest⟩ level = ⟨base, inner.drop level ++ rest⟩ := by
  rw [beneath, List.drop_append_of_le_length hlevel]

theorem covered_stack {level : Nat} {inner : List Overlay} (hlevel : level ≤ inner.length) (v : View) (base : Store)
    (rest : List Overlay) : v.covered level ⟨base, inner ++ rest⟩ = ⟨v.base, inner.take level ++ v.overlays⟩ := by
  rw [covered, List.take_append_of_le_length hlevel]

theorem length_take_append {level : Nat} {inner inner' : List Overlay} (hlevel : level ≤ inner.length)
    (hinner : inner'.length = (inner.drop level).length) : (inner.take level ++ inner').length = inner.length := by
  rw [List.length_append, hinner, List.length_take, List.length_drop]
  omega

/-- A look-up ends at one of the overlays, or the last of them notes the key. What lies below has no part in which of
both it is. -/
theorem lookUp_stack (key : Bytes) (inner : List Overlay) (own : Overlay) :
    (∃ value inner', inner'.length = inner.length ∧ ∀ base outer,
      lookUp base key (inner ++ own :: outer) = (value, inner' ++ own :: outer)) ∨
    ∃ inner', inner'.length = inner.length ∧ ∀ base outer,
      lookUp base key (inner ++ own :: outer)
        = (valueIn base key outer, inner' ++ own.noteRead key :: (lookUp base key outer).2) := by
  induction inner with
  | nil =>
    cases hown : own.writes[key]? with
    | some value => exact .inl ⟨value, [], rfl, fun base outer => by simp [lookUp, hown]⟩
    | none => exact .inr ⟨[], rfl, fun base outer => by simp [lookUp, hown, lookUp_fst]⟩
  | cons top inner ih =>
    cases htop : top.writes[key]? with
    | some value => exact .inl ⟨value, top :: inner, rfl, fun base outer => by simp [lookUp, htop]⟩
    | none =>
      obtain ⟨value, inner', hlength, hfound⟩ | ⟨inner', hlength, hpassed⟩ := ih
      · exact .inl ⟨value, top.noteRead key :: inner', by simp [hlength], fun base outer => by
          simp [lookUp, htop, hfound]⟩
      · exact .inr ⟨top.noteRead key :: inner', by simp [hlength], fun base outer => by
          simp [lookUp, htop, hpassed]⟩

theorem getAt_stack {level : Nat} {inner : List Overlay} (hlevel : level ≤ inner.length) (key : Bytes)
    (own : Overlay) :
    (∃ value inner', inner'.length = inner.length ∧ ∀ base outer,
      getAt ⟨base, inner ++ own :: outer⟩ level key = (value, ⟨base, inner' ++ own :: outer⟩)) ∨
    ∃ inner', inner'.length = inner.length ∧ ∀ base outer,
      getAt ⟨base, inner ++ own :: outer⟩ level key
        = (valueIn base key outer, ⟨base, inner' ++ own.noteRead key :: (lookUp base key outer).2⟩) := by
  obtain ⟨value, inner', hlength, hfound⟩ | ⟨inner', hlength, hpassed⟩ := lookUp_stack key (inner.drop level) own
  · refine .inl ⟨value, inner.take level ++ inner', length_take_append hlevel hlength, fun base outer => ?_⟩
    simp only [getAt, get, beneath_stack hlevel, hfound, covered_stack hlevel, List.append_assoc]
  · refine .inr ⟨inner.take level ++ inner', length_take_append hlevel hlength, fun base outer => ?_⟩
    simp only [getAt, get, beneath_stack hlevel, hpassed, covered_stack hlevel, List.append_assoc]

/-- A step changes overlays down to the given one and no further, notes nothing in it, and does not depend on what
lies below. -/
def Above (step : View → View) (inner : List Overlay) (own : Overlay) (depth : Nat) : Prop :=
  ∃ inner' own', inner'.length = depth ∧ own'.reads = own.reads ∧ ∀ base outer,
    step ⟨base, inner ++ own :: outer⟩ = ⟨base, inner' ++ own' :: outer⟩

theorem put_above (key : Bytes) (value : Option Bytes) (inner : List Overlay) (own : Overlay) :
    Above (put · key value) inner own inner.length := by
  cases inner with
  | nil => exact ⟨[], own.write key value, rfl, rfl, fun _ _ => rfl⟩
  | cons top rest => exact ⟨top.write key value :: rest, own, rfl, rfl, fun _ _ => rfl⟩

theorem putAt_above {level : Nat} {inner : List Overlay} (hlevel : level ≤ inner.length) (key : Bytes)
    (value : Option Bytes) (own : Overlay) : Above (putAt · level key value) inner own inner.length := by
  obtain ⟨inner', own', hlength, hreads, hput⟩ := put_above key value (inner.drop level) own
  refine ⟨inner.take level ++ inner', own', length_take_append hlevel hlength, hreads, fun base outer => ?_⟩
  simp only [putAt, beneath_stack hlevel, hput, covered_stack hlevel, List.append_assoc]

theorem apply_above (o : Overlay) (inner : List Overlay) (own : Overlay) :
    Above (apply · o) inner own inner.length := by
  simp only [Above, apply, Std.ExtTreeMap.foldl_eq_foldl_toList]
  induction o.writes.toList generalizing inner own with
  | nil => exact ⟨inner, own, rfl, rfl, fun _ _ => rfl⟩
  | cons change rest ih =>
    obtain ⟨inner₁, own₁, hlength₁, hreads₁, hput⟩ := put_above change.1 change.2 inner own
    obtain ⟨inner₂, own₂, hlength₂, hreads₂, hrest⟩ := ih inner₁ own₁
    refine ⟨inner₂, own₂, hlength₂.trans hlength₁, hreads₂.trans hreads₁, fun base outer => ?_⟩
    rw [List.foldl_cons]
    exact (congrArg (rest.foldl _) (hput base outer)).trans (hrest base outer)

theorem closed_above (commit : Bool) (top : Overlay) (inner : List Overlay) (own : Overlay) :
    Above (closed · commit) (top :: inner) own inner.length := by
  cases commit with
  | false => exact ⟨inner, own, rfl, rfl, fun _ _ => rfl⟩
  | true => exact apply_above top inner own

end View

/-! ## Runs -/

namespace Nested

open View

variable {α : Type}

/-- What a computation comes to from the given overlays on, over this base and over each that agrees with it where
the own overlay notes a read in the end. -/
def Settles {depth : Nat} (p : Nested α depth) (inner : List Overlay) (own : Overlay) (base : Store)
    (outer : List Overlay) : Prop :=
  ∃ a own' outer', p.run ⟨base, inner ++ own :: outer⟩ = (a, ⟨base, own' :: outer'⟩) ∧
    (∀ key ∈ own.reads, key ∈ own'.reads) ∧
    ∀ base₁ outer₁, (∀ key ∈ own'.reads, valueIn base₁ key outer₁ = valueIn base key outer) →
      ∃ outer₁', p.run ⟨base₁, inner ++ own :: outer₁⟩ = (a, ⟨base₁, own' :: outer₁'⟩)

/-- A step above the base goes before the rest of a computation. -/
theorem Settles.step {depth depth' : Nat} {p : Nested α depth} {next : Nested α depth'} {inner : List Overlay}
    {own : Overlay} {base : Store} {outer : List Overlay} (step : View → View)
    (hrun : ∀ v, p.run v = next.run (step v)) (hstep : Above step inner own depth')
    (ih : ∀ inner own, inner.length = depth' → next.Settles inner own base outer) : p.Settles inner own base outer := by
  obtain ⟨inner', own', hlength, hreads, hstep⟩ := hstep
  obtain ⟨a, own'', outer', hnext, hmono, hcongr⟩ := ih inner' own' hlength
  refine ⟨a, own'', outer', by rw [hrun, hstep, hnext], by rwa [hreads] at hmono, fun base₁ outer₁ agree => ?_⟩
  rw [hrun, hstep]
  exact hcongr base₁ outer₁ agree

theorem settles {depth : Nat} (p : Nested α depth) {inner : List Overlay} (hdepth : inner.length = depth)
    (own : Overlay) (base : Store) (outer : List Overlay) : p.Settles inner own base outer := by
  induction p generalizing inner own outer with
  | done a =>
    obtain rfl := List.eq_nil_of_length_eq_zero hdepth
    exact ⟨a, own, outer, rfl, fun _ hkey => hkey, fun _ outer₁ _ => ⟨outer₁, rfl⟩⟩
  | get level key next ih =>
    have hlevel : level.val ≤ inner.length := by omega
    obtain ⟨value, inner', hlength, hfound⟩ | ⟨inner', hlength, hpassed⟩ := getAt_stack hlevel key own
    · obtain ⟨a, own', outer', hnext, hmono, hcongr⟩ := ih value (hlength.trans hdepth) own outer
      refine ⟨a, own', outer', by rw [run, hfound]; exact hnext, hmono, fun base₁ outer₁ agree => ?_⟩
      rw [run, hfound]
      exact hcongr base₁ outer₁ agree
    · -- the value comes from the base, so the key is among those the bases agree on
      obtain ⟨a, own', outer', hnext, hmono, hcongr⟩ :=
        ih (valueIn base key outer) (hlength.trans hdepth) (own.noteRead key) (lookUp base key outer).2
      simp only [valueIn_lookUp] at hcongr
      have hkey : key ∈ own'.reads := hmono key (by simp [Overlay.noteRead])
      refine ⟨a, own', outer', by rw [run, hpassed]; exact hnext, fun other hother => hmono other ?_,
        fun base₁ outer₁ agree => ?_⟩
      · simp [Overlay.noteRead, hother]
      · obtain ⟨outer₁', hrun⟩ := hcongr base₁ (lookUp base₁ key outer₁).2 fun other hother => by
          rw [valueIn_lookUp, agree other hother]
        refine ⟨outer₁', ?_⟩
        rw [run, hpassed, agree key hkey]
        exact hrun
  | put level key value next ih =>
    have hlevel : level.val ≤ inner.length := by omega
    subst hdepth
    refine .step (putAt · level key value) (fun _ => rfl) (putAt_above hlevel key value own) ?_
    exact fun inner' own' hlength => ih hlength own' outer
  | opened next ih =>
    refine .step View.opened (fun _ => rfl) ⟨{} :: inner, own, congrArg Nat.succ hdepth, rfl, fun _ _ => rfl⟩ ?_
    exact fun inner' own' hlength => ih hlength own' outer
  | closed commit next ih =>
    obtain ⟨top, rest, rfl⟩ := List.exists_cons_of_length_eq_add_one hdepth
    obtain rfl := Nat.succ.inj hdepth
    refine .step (View.closed · commit) (fun _ => rfl) (closed_above commit top rest own) ?_
    exact fun inner' own' hlength => ih hlength own' outer

/-- A computation on a new overlay over any view comes to an end with this overlay as the innermost one. Over every
view that agrees on the keys which it has noted as read, it gives the same answer and leaves the same overlay. -/
theorem reads_sound (p : Nested α 0) (v : View) : ∃ a v' o below,
    p.run v.opened = (a, v') ∧ v'.taken = some (o, below) ∧
      ∀ w : View, (∀ key ∈ o.reads, w.value key = v.value key) → ∃ w' below',
        p.run w.opened = (a, w') ∧ w'.taken = some (o, below') := by
  obtain ⟨a, o, outer, hrun, -, hcongr⟩ := p.settles (rfl : ([] : List Overlay).length = 0) {} v.base v.overlays
  refine ⟨a, _, o, ⟨v.base, outer⟩, hrun, rfl, fun w agree => ?_⟩
  obtain ⟨outer', hrun'⟩ := hcongr w.base w.overlays agree
  exact ⟨_, ⟨w.base, outer'⟩, hrun', rfl⟩

/-- Copies a value by way of a second overlay, and keeps the copy when a third key has a value. -/
def copyOver : Nested (Option Bytes) 0 :=
  .get 0 [1] fun value => .opened (.put 0 [2] value (.get 1 [3] fun guard =>
    .closed guard.isSome (.get 0 [2] .done)))

def copyBase : View := { base := ((∅ : Store).insert [1] [7]).insert [3] [8] }

theorem copyOver_sound : ∃ o w' below', o.reads.toList = [[1], [3]] ∧
    copyOver.run (copyBase.put [4] (some [9])).opened = (some [7], w') ∧ w'.taken = some (o, below') := by
  obtain ⟨a, v', o, below, hrun, htaken, hcongr⟩ := copyOver.reads_sound copyBase
  have htest : (let (a, v) := copyOver.run copyBase.opened
      a == some [7] && (v.taken.map fun (o, _) => o.reads.toList) == some [[1], [3]]) = true := by decide +kernel
  rw [hrun] at htest
  simp only [Bool.and_eq_true, beq_iff_eq, htaken, Option.map_some, Option.some.injEq] at htest
  obtain ⟨rfl, hreads⟩ := htest
  obtain ⟨w', below', hrun', htaken'⟩ := hcongr (copyBase.put [4] (some [9])) fun key hkey => by
    rw [value_put, if_neg]
    rintro rfl
    rw [← Std.ExtTreeSet.mem_toList, hreads] at hkey
    revert hkey
    decide
  exact ⟨o, w', below', hreads, hrun', htaken'⟩

end Nested

end RoundLedger
