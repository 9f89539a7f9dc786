import RoundLedger.Proofs.Contents

/-!
# Footprints

A program on an overlay of its own leaves what lies below alone. What it comes to depends only
on the keys that the overlay notes as read (`above_congr`), and what it leaves shows in the
overlay's writes (`eval_atop`). A program that avoids some keys notes none of them.
-/

namespace RoundLedger

namespace Overlay

/-- What an overlay shows over given contents. -/
def atop (o : Overlay) (f : Contents) : Contents := fun key => (o.writes[key]?).getD (f key)

@[simp] theorem atop_empty (f : Contents) : ({} : Overlay).atop f = f := by
  funext key
  simp [atop]

@[simp] theorem atop_noteRead (o : Overlay) (key : Bytes) (f : Contents) :
    (o.noteRead key).atop f = o.atop f := rfl

@[simp] theorem writes_noteRead (o : Overlay) (key : Bytes) : (o.noteRead key).writes = o.writes := rfl

theorem atop_write (o : Overlay) (key : Bytes) (value : Option Bytes) (f : Contents) :
    (o.write key value).atop f = (o.atop f).put key value := by
  funext other
  simp only [atop, write, Contents.put, Std.ExtTreeMap.getElem?_insert,
    Std.LawfulEqCmp.compare_eq_iff_eq]
  split <;> simp

theorem mem_noteRead {o : Overlay} {key other : Bytes} :
    other ∈ (o.noteRead key).reads ↔ key = other ∨ other ∈ o.reads := by
  simp [noteRead, Std.ExtTreeSet.mem_insert]

/-- An overlay that does not conflict read and wrote other keys than the given ones. -/
theorem not_conflictsWith {o : Overlay} {written : KeySet} :
    o.conflictsWith written = false ↔
      (∀ key ∈ o.reads, key ∉ written) ∧ ∀ key ∈ o.writes, key ∉ written := by
  simp [conflictsWith, Std.ExtTreeSet.mem_toList, Std.ExtTreeMap.mem_keys]

/-- Where an overlay did not write, the contents below show. -/
theorem atop_of_notMem {o : Overlay} {key : Bytes} (h : key ∉ o.writes) (f : Contents) :
    o.atop f key = f key := by
  simp [atop, Std.ExtTreeMap.getElem?_eq_none h]

/-- The keys of the writes, added to others one by one. -/
theorem mem_foldl_insert (o : Overlay) (written : KeySet) (key : Bytes) :
    key ∈ o.writes.foldl (fun keys key _ => keys.insert key) written ↔
      key ∈ written ∨ key ∈ o.writes := by
  have general (keys : List Bytes) (written : KeySet) :
      key ∈ keys.foldl (fun set key => set.insert key) written ↔ key ∈ written ∨ key ∈ keys := by
    induction keys generalizing written with
    | nil => simp
    | cons next rest ih =>
      rw [List.foldl_cons, ih, Std.ExtTreeSet.mem_insert, List.mem_cons]
      simp only [Std.LawfulEqCmp.compare_eq_iff_eq]
      grind
  have hkeys : o.writes.foldl (fun keys key _ => keys.insert key) written
      = o.writes.keys.foldl (fun set key => set.insert key) written :=
    Std.ExtTreeMap.foldl_eq_foldl_keys
  rw [hkeys, general, Std.ExtTreeMap.mem_keys]

end Overlay

theorem View.contents_applied (v : View) (o : Overlay) : (v.apply o).contents = o.atop v.contents :=
  funext fun key => View.value_apply v o key

namespace Program

open Step

variable {α β : Type}

/-! ## Running on an overlay -/

/-- Runs a program on an overlay. What lies below is looked at and never changed. -/
def above (below : Contents) : Program α → EStateM Fault Overlay α
  | done a => pure a
  | fail fault => throw fault
  | get key next => fun o =>
    match o.writes[key]? with
    | some value => (next value).above below o
    | none => (next (below key)).above below (o.noteRead key)
  | put key value next => fun o => next.above below (o.write key value)

theorem above_get_some {f : Contents} {key : Bytes} {next : Option Bytes → Program α} {o : Overlay}
    {value : Option Bytes} (h : o.writes[key]? = some value) :
    (get key next).above f o = (next value).above f o := by
  simp [above, h]

theorem above_get_none {f : Contents} {key : Bytes} {next : Option Bytes → Program α} {o : Overlay}
    (h : o.writes[key]? = none) :
    (get key next).above f o = (next (f key)).above f (o.noteRead key) := by
  simp [above, h]

/-- A program does on an overlay what it does on the contents that the overlay shows. -/
theorem eval_atop (p : Program α) (f : Contents) (o : Overlay) :
    p.eval (o.atop f) = match p.above f o with
      | .ok a o => .ok a (o.atop f)
      | .error fault o => .error fault (o.atop f) := by
  induction p generalizing o with
  | done a => rfl
  | fail fault => rfl
  | get key next ih =>
    change (next (o.atop f key)).eval (o.atop f) = _
    cases hkey : o.writes[key]? with
    | some value =>
      have hvalue : o.atop f key = value := by simp [Overlay.atop, hkey]
      rw [above_get_some hkey, hvalue]
      exact ih value o
    | none =>
      have hvalue : o.atop f key = f key := by simp [Overlay.atop, hkey]
      rw [above_get_none hkey, hvalue]
      exact ih (f key) (o.noteRead key)
  | put key value next ih =>
    change next.eval ((o.atop f).put key value) = _
    rw [← Overlay.atop_write]
    exact ih (o.write key value)

theorem eval_of_above {p : Program α} {f : Contents} {o o' : Overlay} {a : α}
    (h : p.above f o = .ok a o') : p.eval (o.atop f) = .ok a (o'.atop f) := by
  rw [eval_atop, h]

/-- The look-ups of a program on the innermost overlay of a view may be noted further out, where
they change no value. -/
theorem run_above (p : Program α) (base : Store) (o : Overlay) (outer : List Overlay) :
    ∃ outer', (∀ key, View.valueIn base key outer' = View.valueIn base key outer) ∧
      p.run ⟨base, o :: outer⟩ = match p.above (fun key => View.valueIn base key outer) o with
        | .ok a o => .ok a ⟨base, o :: outer'⟩
        | .error fault o => .error fault ⟨base, o :: outer'⟩ := by
  induction p generalizing o outer with
  | done a => exact ⟨outer, fun _ => rfl, rfl⟩
  | fail fault => exact ⟨outer, fun _ => rfl, rfl⟩
  | get key next ih =>
    rw [run_get]
    cases hkey : o.writes[key]? with
    | some value =>
      have hget : (View.get ⟨base, o :: outer⟩ key).2 = ⟨base, o :: outer⟩ := by
        simp [View.get, View.lookUp, hkey]
      have hvalue : View.value ⟨base, o :: outer⟩ key = value := by
        simp [View.value, View.valueIn, hkey]
      rw [hget, hvalue, above_get_some hkey]
      exact ih value o outer
    | none =>
      have hget : (View.get ⟨base, o :: outer⟩ key).2
          = ⟨base, o.noteRead key :: (View.lookUp base key outer).2⟩ := by
        simp [View.get, View.lookUp, hkey]
      have hvalue : View.value ⟨base, o :: outer⟩ key = View.valueIn base key outer := by
        simp [View.value, View.valueIn, hkey]
      obtain ⟨outer', hsame, hrun⟩ :=
        ih (View.valueIn base key outer) (o.noteRead key) (View.lookUp base key outer).2
      simp only [View.valueIn_lookUp] at hsame hrun
      rw [hget, hvalue, above_get_none hkey]
      exact ⟨outer', hsame, hrun⟩
  | put key value next ih => exact ih (o.write key value) outer

/-- A program on a view with a new overlay looks at the contents of the view. -/
theorem run_opened (p : Program α) (v : View) :
    ∃ outer, (⟨v.base, outer⟩ : View).contents = v.contents ∧
      p.run v.opened = match p.above v.contents {} with
        | .ok a o => .ok a ⟨v.base, o :: outer⟩
        | .error fault o => .error fault ⟨v.base, o :: outer⟩ := by
  obtain ⟨outer, hsame, hrun⟩ := run_above p v.base {} v.overlays
  exact ⟨outer, funext hsame, hrun⟩

/-! ## Reads -/

theorem reads_subset {p : Program α} {f : Contents} {o o' : Overlay} {a : α}
    (h : p.above f o = .ok a o') {key : Bytes} (hkey : key ∈ o.reads) : key ∈ o'.reads := by
  induction p generalizing o with
  | done b =>
    obtain ⟨-, rfl⟩ := pure_ok.1 h
    exact hkey
  | fail fault => exact absurd h throw_ok
  | get other next ih =>
    cases hother : o.writes[other]? with
    | some value =>
      rw [above_get_some hother] at h
      exact ih _ h hkey
    | none =>
      rw [above_get_none hother] at h
      exact ih _ h (Overlay.mem_noteRead.2 (.inr hkey))
  | put other value next ih => exact ih h hkey

/-- What a program comes to depends on what lies below only at the keys noted as read. -/
theorem above_congr {p : Program α} {f g : Contents} {o o' : Overlay} {a : α}
    (h : p.above f o = .ok a o') (agree : ∀ key ∈ o'.reads, f key = g key) :
    p.above g o = .ok a o' := by
  induction p generalizing o with
  | done b => exact h
  | fail fault => exact h
  | get key next ih =>
    cases hkey : o.writes[key]? with
    | some value =>
      rw [above_get_some hkey] at h ⊢
      exact ih _ h
    | none =>
      rw [above_get_none hkey] at h ⊢
      have hread : key ∈ o'.reads := reads_subset h (Overlay.mem_noteRead.2 (.inl rfl))
      rw [← agree key hread]
      exact ih _ h
  | put key value next ih => exact ih h

/-! ## Keys that are avoided -/

/-- On the given contents the program touches none of the keys. -/
def AvoidsOn (keys : Bytes → Prop) : Program α → Contents → Prop
  | done _, _ => True
  | fail _, _ => True
  | get key next, f => ¬ keys key ∧ (next (f key)).AvoidsOn keys f
  | put key value next, f => ¬ keys key ∧ next.AvoidsOn keys (f.put key value)

/-- The program touches none of the keys, whatever it finds. -/
def Avoids (keys : Bytes → Prop) (p : Program α) : Prop := ∀ f, p.AvoidsOn keys f

variable {keys : Bytes → Prop}

theorem AvoidsOn.bind {p : Program α} {g : α → Program β} {f : Contents} (h : p.AvoidsOn keys f)
    (next : ∀ a f', p.eval f = .ok a f' → (g a).AvoidsOn keys f') : (p >>= g).AvoidsOn keys f := by
  change (p.bind g).AvoidsOn keys f
  induction p generalizing f with
  | done a => exact next a f rfl
  | fail fault => trivial
  | get key _ ih => exact ⟨h.1, ih (f key) h.2 next⟩
  | put key value _ ih => exact ⟨h.1, ih h.2 next⟩

theorem Avoids.bind {p : Program α} {g : α → Program β} (h : p.Avoids keys)
    (next : ∀ a, (g a).Avoids keys) : (p >>= g).Avoids keys :=
  fun f => (h f).bind fun a f' _ => next a f'

theorem avoids_pure (a : α) : (pure a : Program α).Avoids keys := fun _ => trivial

theorem avoids_fail (fault : Fault) : (fail fault : Program α).Avoids keys := fun _ => trivial

theorem avoids_look {key : Bytes} (h : ¬ keys key) : (look key).Avoids keys := fun _ => ⟨h, trivial⟩

theorem avoids_write {key : Bytes} (value : Bytes) (h : ¬ keys key) : (write key value).Avoids keys :=
  fun _ => ⟨h, trivial⟩

theorem avoids_delete {key : Bytes} (h : ¬ keys key) : (delete key).Avoids keys :=
  fun _ => ⟨h, trivial⟩

theorem avoids_ofExcept (x : Except Fault α) : (ofExcept x).Avoids keys := by
  cases x <;> exact fun _ => trivial

theorem avoids_orFail (fault : Fault) (x : Option α) : (orFail fault x).Avoids keys := by
  cases x <;> exact fun _ => trivial

theorem avoids_forM {ι : Type} {items : List ι} {p : ι → Program PUnit}
    (h : ∀ item ∈ items, (p item).Avoids keys) : (items.forM p).Avoids keys := by
  induction items with
  | nil => exact avoids_pure _
  | cons item rest ih =>
    exact (h item List.mem_cons_self).bind fun _ =>
      ih fun other hother => h other (List.mem_cons_of_mem _ hother)

/-- Keys that are avoided keep their values. -/
theorem eval_avoids {p : Program α} {f f' : Contents} {a : α} (h : p.eval f = .ok a f')
    (avoids : p.AvoidsOn keys f) {key : Bytes} (hkey : keys key) : f' key = f key := by
  induction p generalizing f with
  | done b =>
    obtain ⟨-, rfl⟩ := pure_ok.1 h
    rfl
  | fail fault => exact absurd h throw_ok
  | get other next ih => exact ih (f other) h avoids.2
  | put other value next ih =>
    have hne : other ≠ key := by
      rintro rfl
      exact avoids.1 hkey
    rw [ih h avoids.2, Contents.put_other _ _ hne]

/-- Keys that are avoided are neither noted as read nor written. -/
theorem above_avoids {p : Program α} {f : Contents} {o o' : Overlay} {a : α}
    (h : p.above f o = .ok a o') (avoids : p.AvoidsOn keys (o.atop f)) {key : Bytes}
    (hkey : keys key) : (key ∈ o'.reads ↔ key ∈ o.reads) ∧ (key ∈ o'.writes ↔ key ∈ o.writes) := by
  induction p generalizing o with
  | done b =>
    obtain ⟨-, rfl⟩ := pure_ok.1 h
    exact ⟨.rfl, .rfl⟩
  | fail fault => exact absurd h throw_ok
  | get other next ih =>
    have hne : other ≠ key := by
      rintro rfl
      exact avoids.1 hkey
    cases hother : o.writes[other]? with
    | some value =>
      rw [above_get_some hother] at h
      refine ih value h ?_
      simpa [Overlay.atop, hother] using avoids.2
    | none =>
      rw [above_get_none hother] at h
      have hnext := ih (f other) h (by simpa [Overlay.atop, hother] using avoids.2)
      simpa [Overlay.mem_noteRead, hne] using hnext
  | put other value next ih =>
    have hne : other ≠ key := by
      rintro rfl
      exact avoids.1 hkey
    have hnext := ih h (by rw [Overlay.atop_write]; exact avoids.2)
    simpa [Overlay.write, Std.ExtTreeMap.mem_insert, hne] using hnext

end Program

end RoundLedger
