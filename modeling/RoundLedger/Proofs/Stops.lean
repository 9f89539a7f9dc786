import RoundLedger.Proofs.Agreement
import RoundLedger.Proofs.Serial

/-!
# Steps that stop with a fault

A step that stopped did so in its first part, or behind it in its second. What is in the store then is what
was committed before: an overlay that is still open does not count.
-/

namespace RoundLedger

namespace Step

variable {ε σ τ α β : Type}

@[simp] theorem pure_stops {a : α} {e : ε} {s t : σ} :
    ¬ (pure a : EStateM ε σ α) s = .error e t := by
  rintro ⟨⟩

@[simp] theorem throw_stops {e e' : ε} {s t : σ} :
    (throw e : EStateM ε σ α) s = .error e' t ↔ e = e' ∧ s = t := by
  change EStateM.Result.error e s = .error e' t ↔ _
  rw [EStateM.Result.error.injEq]

@[simp] theorem modify_stops {f : σ → σ} {e : ε} {s t : σ} :
    ¬ (modify f : EStateM ε σ PUnit) s = .error e t := by
  rintro ⟨⟩

theorem bind_stops {x : EStateM ε σ α} {f : α → EStateM ε σ β} {s u : σ} {e : ε} :
    (x >>= f) s = .error e u ↔ x s = .error e u ∨ ∃ a t, x s = .ok a t ∧ f a t = .error e u := by
  change EStateM.bind x f s = _ ↔ _
  unfold EStateM.bind
  cases x s with
  | ok a t =>
    constructor
    · exact fun h => .inr ⟨a, t, rfl, h⟩
    · rintro (⟨⟨⟩⟩ | ⟨_, _, ⟨⟩, h⟩)
      exact h
  | error e t => simp

theorem zoom_stops {part : σ → τ} {restore : σ → τ → σ} {step : EStateM ε τ α} {s u : σ} {e : ε} :
    zoom part restore step s = .error e u ↔ ∃ t, step (part s) = .error e t ∧ restore s t = u := by
  unfold zoom
  cases step (part s) with
  | ok a t => simp
  | error e t =>
    constructor
    · rintro ⟨⟩
      exact ⟨t, rfl, rfl⟩
    · rintro ⟨_, ⟨⟩, rfl⟩
      rfl

theorem access_stops {p : Program α} {n m : Node} {fault : Fault} :
    Session.access p n = .error fault m ↔
      ∃ v, p.run n.view = .error fault v ∧ { n with view := v } = m :=
  zoom_stops

@[simp] theorem meter_stops {f : Meters → Meters} {fault : Fault} {n m : Node} :
    ¬ Session.meter f n = .error fault m := modify_stops

/-- A loop that stopped did so at one of its items, behind the items in front of it. -/
theorem foldlM_stops {step : β → α → EStateM ε σ β} {items : List α} {b : β} {s u : σ} {e : ε}
    (h : items.foldlM step b s = .error e u) :
    ∃ done item rest c t, items = done ++ item :: rest ∧ done.foldlM step b s = .ok c t ∧
      step c item t = .error e u := by
  induction items generalizing b s with
  | nil => exact absurd h pure_stops
  | cons item rest ih =>
    rw [List.foldlM_cons, bind_stops] at h
    obtain hitem | ⟨c, t, hitem, hrest⟩ := h
    · exact ⟨[], item, rest, b, s, rfl, rfl, hitem⟩
    · obtain ⟨done, other, rest', c', t', rfl, hdone, hstop⟩ := ih hrest
      refine ⟨item :: done, other, rest', c', t', rfl, ?_, hstop⟩
      rw [List.foldlM_cons, bind_of_ok hitem, hdone]

/-- Whether a step stops with a fault, in a state that passes the test. -/
def stopsWith (result : EStateM.Result ε σ α) (test : ε → σ → Bool) : Bool :=
  match result with
  | .ok _ _ => false
  | .error e s => test e s

theorem stopsWith_iff {result : EStateM.Result ε σ α} {test : ε → σ → Bool} :
    stopsWith result test = true ↔ ∃ e s, result = .error e s ∧ test e s = true := by
  cases result with
  | ok a s => simp [stopsWith]
  | error e s =>
    constructor
    · exact fun h => ⟨e, s, rfl, h⟩
    · rintro ⟨_, _, ⟨⟩, h⟩
      exact h

/-! ## Steps with the same faults -/

/-- Two steps both end well, with related answers in related states, or both stop with the same fault. -/
inductive Matches (A : α → β → Prop) (R : σ → τ → Prop) :
    EStateM.Result ε σ α → EStateM.Result ε τ β → Prop
  | ok {a b s t} : A a b → R s t → Matches A R (.ok a s) (.ok b t)
  | error {e s t} : Matches A R (.error e s) (.error e t)

variable {γ δ : Type} {A : α → β → Prop} {B : γ → δ → Prop} {R R' : σ → τ → Prop}

theorem Matches.bind {x : EStateM ε σ α} {y : EStateM ε τ β} {f : α → EStateM ε σ γ}
    {g : β → EStateM ε τ δ} {s : σ} {t : τ} (h : Matches A R (x s) (y t))
    (next : ∀ a b s' t', y t = .ok b t' → A a b → R s' t' → Matches B R' (f a s') (g b t')) :
    Matches B R' ((x >>= f) s) ((y >>= g) t) := by
  generalize hx : x s = outcome, hy : y t = outcome' at h
  cases h with
  | ok ha hr =>
    rw [bind_of_ok hx, bind_of_ok hy]
    exact next _ _ _ _ hy ha hr
  | error =>
    rw [bind_error hx, bind_error hy]
    exact .error

end Step

open Step

/-! ## Programs -/

namespace Program

variable {α β : Type}

theorem eval_bind_stops {p : Program α} {g : α → Program β} {f h : Contents} {fault : Fault} :
    (p >>= g).eval f = .error fault h ↔
      p.eval f = .error fault h ∨ ∃ a f', p.eval f = .ok a f' ∧ (g a).eval f' = .error fault h := by
  rw [eval_bind, bind_stops]

@[simp] theorem eval_pure_stops {a : α} {f h : Contents} {fault : Fault} :
    ¬ (pure a : Program α).eval f = .error fault h := pure_stops

@[simp] theorem eval_fail_stops {fault fault' : Fault} {f h : Contents} :
    (fail fault : Program α).eval f = .error fault' h ↔ fault = fault' ∧ f = h := throw_stops

@[simp] theorem eval_write_stops {key value : Bytes} {f h : Contents} {fault : Fault} :
    ¬ (write key value).eval f = .error fault h := by
  rintro ⟨⟩

@[simp] theorem eval_delete_stops {key : Bytes} {f h : Contents} {fault : Fault} :
    ¬ (delete key).eval f = .error fault h := by
  rintro ⟨⟩

@[simp] theorem eval_ofExcept_stops {x : Except Fault α} {f h : Contents} {fault : Fault} :
    (ofExcept x).eval f = .error fault h ↔ x = .error fault ∧ f = h := by
  cases x with
  | ok a => simp [ofExcept, eval]
  | error fault' => simp [ofExcept, eval]

@[simp] theorem eval_orFail_stops {x : Option α} {f h : Contents} {fault fault' : Fault} :
    (orFail fault x).eval f = .error fault' h ↔ x = none ∧ fault = fault' ∧ f = h := by
  cases x with
  | some a => simp [orFail, eval]
  | none => simp [orFail, eval]

/-- A loop of programs that stopped did so at one of its items. -/
theorem eval_forM_stops {ι : Type} {items : List ι} {p : ι → Program PUnit} {f h : Contents}
    {fault : Fault} (hstop : (items.forM p).eval f = .error fault h) :
    ∃ done item rest g, items = done ++ item :: rest ∧ (done.forM p).eval f = .ok ⟨⟩ g ∧
      (p item).eval g = .error fault h := by
  induction items generalizing f with
  | nil => exact absurd hstop eval_pure_stops
  | cons item rest ih =>
    obtain hitem | ⟨_, g, hitem, hrest⟩ := eval_bind_stops.1 hstop
    · exact ⟨[], item, rest, f, rfl, rfl, hitem⟩
    · obtain ⟨done, other, rest', g', rfl, hdone, hother⟩ := ih hrest
      exact ⟨item :: done, other, rest', g', rfl, eval_bind_ok.2 ⟨⟨⟩, g, hitem, hdone⟩, hother⟩

theorem eval_of_run_stops {p : Program α} {v w : View} {fault : Fault}
    (h : p.run v = .error fault w) : p.eval v.contents = .error fault w.contents := by
  rw [eval_contents, h]

/-- What a program matches on the contents of a view, it matches on the view. -/
theorem matches_run {τ : Type} {p : Program α} {A : α → β → Prop} {R : Contents → τ → Prop} {v : View}
    {y : EStateM.Result Fault τ β} (h : Matches A R (p.eval v.contents) y) :
    Matches A (fun w t => R w.contents t) (p.run v) y := by
  rw [eval_contents] at h
  cases hrun : p.run v with
  | ok a w =>
    rw [hrun] at h
    cases h with
    | ok ha hr => exact .ok ha hr
  | error fault w =>
    rw [hrun] at h
    cases h with
    | error => exact .error

theorem eval_of_above_stops {p : Program α} {f : Contents} {o o' : Overlay} {fault : Fault}
    (h : p.above f o = .error fault o') : p.eval (o.atop f) = .error fault (o'.atop f) := by
  rw [eval_atop, h]

theorem overlays_of_stop {p : Program α} {v w : View} {fault : Fault} (h : p.run v = .error fault w)
    (idle : v.overlays = []) : w.overlays = [] := by
  induction p generalizing v with
  | done a => cases h
  | fail fault' =>
    obtain ⟨-, rfl⟩ := throw_stops.1 h
    exact idle
  | get key next ih =>
    rw [run_get, View.get_of_idle idle] at h
    exact ih _ h idle
  | put key value next ih => exact ih h (View.overlays_put idle key value)

/-- Keys that are avoided keep their values also when the program stops. -/
theorem eval_avoids_stops {keys : Bytes → Prop} {p : Program α} {f f' : Contents} {fault : Fault}
    (h : p.eval f = .error fault f') (avoids : p.AvoidsOn keys f) {key : Bytes} (hkey : keys key) :
    f' key = f key := by
  induction p generalizing f with
  | done a => cases h
  | fail fault' =>
    obtain ⟨-, rfl⟩ := throw_stops.1 h
    rfl
  | get other next ih => exact ih (f other) h avoids.2
  | put other value next ih =>
    have hne : other ≠ key := by
      rintro rfl
      exact avoids.1 hkey
    rw [ih h avoids.2, Contents.put_other _ _ hne]

end Program

/-! ## What is committed -/

/-- What the store holds, without what lies in overlays. -/
def View.stored (v : View) : Contents := fun key => v.base[key]?

theorem View.contents_of_idle {v : View} (idle : v.overlays = []) : v.contents = v.stored := by
  funext key
  change View.valueIn v.base key v.overlays = _
  rw [idle]
  rfl

open Program

/-- A program that stopped on a node without overlays left what it had written. -/
theorem Session.access_stored {α : Type} {p : Program α} {n m : Node} {fault : Fault}
    (idle : n.view.overlays = []) (h : Session.access p n = .error fault m) :
    p.eval n.view.contents = .error fault m.view.stored := by
  obtain ⟨v, hrun, rfl⟩ := access_stops.1 h
  rw [← View.contents_of_idle (overlays_of_stop hrun idle)]
  exact eval_of_run_stops hrun

theorem Session.access_overlays {α : Type} {p : Program α} {n m : Node} {a : α}
    (idle : n.view.overlays = []) (h : Session.access p n = .ok a m) : m.view.overlays = [] := by
  obtain ⟨v, hrun, rfl⟩ := access_ok.1 h
  exact overlays_of_run hrun idle

theorem State.account_stops {address : Address} {f f' : Contents} {fault : Fault}
    (h : (State.account address).eval f = .error fault f') : f' = f := by
  unfold State.account at h
  rw [eval_look_bind] at h
  split at h
  · cases h
  · cases h
  · obtain hread | ⟨account, _, -, hdone⟩ := eval_bind_stops.1 h
    · exact (eval_ofExcept_stops.1 hread).2.symm
    · exact absurd hdone eval_pure_stops

/-! ## The queue -/

namespace Queue

theorem range_stops {f f' : Contents} {fault : Fault} :
    range.eval f = .error fault f' ↔ rangeIn f = .error fault ∧ f = f' := by
  unfold range rangeIn
  cases hrecord : f Key.queue.bytes with
  | none => simp [hrecord]
  | some record => simp [hrecord]

theorem readEntry_stops {f f' : Contents} {position : UInt64} {fault : Fault}
    (h : (readEntry position).eval f = .error fault f') : entryIn f position = none ∧ f' = f := by
  unfold readEntry at h
  rw [eval_look_bind] at h
  unfold entryIn
  obtain hmissing | ⟨record, f₁, hrecord, hread⟩ := eval_bind_stops.1 h
  · obtain ⟨hnone, -, rfl⟩ := eval_orFail_stops.1 hmissing
    rw [hnone]
    exact ⟨rfl, rfl⟩
  · obtain ⟨hfound, rfl⟩ := eval_orFail_ok.1 hrecord
    rw [hfound]
    obtain hcorrupt | ⟨tx, f₂, -, hdone⟩ := eval_bind_stops.1 hread
    · obtain ⟨hnone, -, rfl⟩ := eval_orFail_stops.1 hcorrupt
      exact ⟨hnone, rfl⟩
    · exact absurd hdone eval_pure_stops

theorem readFrom_stops {f f' : Contents} {position : UInt64} {count : Nat} {fault : Fault}
    (h : (readFrom position count).eval f = .error fault f') :
    (∃ p ∈ positions position count, entryIn f p = none) ∧ f' = f := by
  induction count generalizing position f' with
  | zero => exact absurd h eval_pure_stops
  | succ count ih =>
    rw [readFrom] at h
    obtain hfirst | ⟨entry, f₁, hfirst, hbehind⟩ := eval_bind_stops.1 h
    · obtain ⟨hnone, rfl⟩ := readEntry_stops hfirst
      exact ⟨⟨position, List.mem_cons_self, hnone⟩, rfl⟩
    · obtain ⟨-, -, rfl⟩ := readEntry_ok hfirst
      obtain hrest | ⟨rest, f₂, -, hdone⟩ := eval_bind_stops.1 hbehind
      · obtain ⟨⟨p, hp, hnone⟩, rfl⟩ := ih hrest
        exact ⟨⟨p, List.mem_cons_of_mem _ hp, hnone⟩, rfl⟩
      · exact absurd hdone eval_pure_stops

/-- Reading the live entries stops when there is no room for them, or at one that cannot be read. -/
theorem load_stops {f f' : Contents} {r : QueueRange} {fault : Fault}
    (h : (load r).eval f = .error fault f') :
    (Room.most < entryRoom * (r.stop.toNat - r.start.toNat) ∨
      ∃ p ∈ live r, entryIn f p = none) ∧ f' = f := by
  obtain hroom | ⟨_, f₁, hroom, hread⟩ := eval_bind_stops.1 h
  · obtain ⟨hfull, rfl⟩ := eval_ofExcept_stops.1 hroom
    refine ⟨.inl ?_, rfl⟩
    unfold Room.make at hfull
    split at hfull
    · cases hfull
    · omega
  · obtain ⟨-, rfl⟩ := eval_ofExcept_ok.1 hroom
    obtain ⟨hmissing, rfl⟩ := readFrom_stops hread
    exact ⟨.inr hmissing, rfl⟩

/-- Nothing is taken off unless all of it can be taken off. -/
theorem popFront_stops {f f' : Contents} {most : UInt64} {fault : Fault}
    (h : (popFront most).eval f = .error fault f') : f' = f := by
  obtain hrange | ⟨r, f₁, hrange, h₁⟩ := eval_bind_stops.1 h
  · exact (range_stops.1 hrange).2.symm
  obtain ⟨-, rfl⟩ := range_ok.1 hrange
  obtain hsize | ⟨size, f₂, hsize, h₂⟩ := eval_bind_stops.1 h₁
  · exact (eval_ofExcept_stops.1 hsize).2.symm
  obtain ⟨-, rfl⟩ := eval_ofExcept_ok.1 hsize
  obtain hload | ⟨entries, f₃, -, h₃⟩ := eval_bind_stops.1 h₂
  · exact (load_stops hload).2
  obtain hdelete | ⟨_, f₄, -, h₄⟩ := eval_bind_stops.1 h₃
  · obtain ⟨_, _, _, _, -, -, hentry⟩ := eval_forM_stops hdelete
    exact absurd hentry eval_delete_stops
  · obtain hset | ⟨_, f₅, -, hdone⟩ := eval_bind_stops.1 h₄
    · exact absurd hset eval_write_stops
    · exact absurd hdone eval_pure_stops

section Readable

variable {f : Contents} {r : QueueRange} (h : WellFormed f r)
  (room : entryRoom * (r.stop.toNat - r.start.toNat) ≤ Room.most)

include h room

/-- The entries of a well-formed queue can be read when there is room for all of them. -/
theorem WellFormed.load_returns {stop : UInt64} (hstop : stop ≤ r.stop) {f' : Contents} {fault : Fault} :
    (load ⟨r.start, stop⟩).eval f ≠ .error fault f' := by
  intro hload
  rw [UInt64.le_iff_toNat_le] at hstop
  obtain ⟨hfull | ⟨p, hp, hnone⟩, -⟩ := load_stops hload
  · have hless := Nat.mul_le_mul_left entryRoom
      (show stop.toNat - r.start.toNat ≤ r.stop.toNat - r.start.toNat by omega)
    dsimp only at hfull
    omega
  · have hlast := r.stop.toNat_lt
    have hfirst := r.start.toNat_lt
    have hwide : UInt64.size = 2 ^ 64 := rfl
    have hrange := (mem_positions (by dsimp only; omega)).1 hp
    dsimp only at hrange
    have hlive := h.live p (UInt64.le_iff_toNat_le.2 hrange.1) (UInt64.lt_iff_toNat_lt.2 (by omega))
    rw [hnone] at hlive
    cases hlive

theorem WellFormed.popFront_returns (most : UInt64) :
    ∃ entries f', (popFront most).eval f = .ok entries f' := by
  cases hends : (popFront most).eval f with
  | ok entries f' => exact ⟨entries, f', rfl⟩
  | error fault f' =>
    exfalso
    obtain hrange | ⟨r', f₁, hrange, h₁⟩ := eval_bind_stops.1 hends
    · cases h.range.symm.trans (range_stops.1 hrange).1
    obtain ⟨hread, rfl⟩ := range_ok.1 hrange
    obtain rfl : r = r' := Except.ok.inj (h.range.symm.trans hread)
    obtain hsize | ⟨size, f₂, hsize, h₂⟩ := eval_bind_stops.1 h₁
    · have hbad := (eval_ofExcept_stops.1 hsize).1
      rw [QueueRange.size, if_pos h.ordered] at hbad
      cases hbad
    obtain ⟨hcounted, rfl⟩ := eval_ofExcept_ok.1 hsize
    obtain ⟨hordered, hcount⟩ := size_ok hcounted
    have hlast : r.start + min size most ≤ r.stop := by
      have hwide := r.stop.toNat_lt
      rw [UInt64.le_iff_toNat_le, UInt64.toNat_add, UInt64.toNat_min]
      omega
    obtain hload | ⟨entries, f₃, -, h₃⟩ := eval_bind_stops.1 h₂
    · exact h.load_returns room hlast hload
    obtain hdelete | ⟨_, f₄, -, h₄⟩ := eval_bind_stops.1 h₃
    · obtain ⟨_, _, _, _, -, -, hentry⟩ := eval_forM_stops hdelete
      exact eval_delete_stops hentry
    · obtain hset | ⟨_, f₅, -, hdone⟩ := eval_bind_stops.1 h₄
      · exact eval_write_stops hset
      · exact eval_pure_stops hdone

end Readable

/-- There is room for the entries that are taken off. -/
theorem length_of_popFront {f f' : Contents} {most : UInt64} {entries : List QueueEntry}
    (h : (popFront most).eval f = .ok entries f') : entryRoom * entries.length ≤ Room.most := by
  obtain ⟨r, _, hread, hsized⟩ := eval_bind_ok.1 h
  obtain ⟨size, _, hcount, hloaded⟩ := eval_bind_ok.1 hsized
  obtain ⟨entries', _, hload, hdeleting⟩ := eval_bind_ok.1 hloaded
  obtain ⟨_, _, -, hset⟩ := eval_bind_ok.1 hdeleting
  obtain ⟨_, _, -, hdone⟩ := eval_bind_ok.1 hset
  obtain ⟨rfl, -⟩ := eval_pure_ok.1 hdone
  have hlength := congrArg List.length (load_ok hload).1
  obtain ⟨_, _, hroom, -⟩ := eval_bind_ok.1 hload
  have hfits := (Room.make_eq_ok_iff _ _).1 (eval_ofExcept_ok.1 hroom).1
  rw [List.length_map, live, length_positions] at hlength
  rwa [hlength]

/-- Storing stops behind the last position of all, and then it has written at the positions up to
there. -/
theorem store_stops {f f' : Contents} {stop : UInt64} {txs : List Transaction} {fault : Fault}
    (h : (store stop txs).eval f = .error fault f') :
    UInt64.size ≤ stop.toNat + txs.length ∧
      ∀ key, (∀ p, stop ≤ p → key ≠ (Key.entry p).bytes) → f' key = f key := by
  induction txs generalizing f stop with
  | nil => exact absurd h eval_pure_stops
  | cons tx rest ih =>
    rw [store] at h
    obtain hwrite | ⟨_, _, hwrite, hadded⟩ := eval_bind_stops.1 h
    · exact absurd hwrite eval_write_stops
    cases hwrite
    have hstop := stop.toNat_lt
    have hsize : UInt64.size = 2 ^ 64 := rfl
    have hfirst (key : Bytes) (hne : ∀ p, stop ≤ p → key ≠ (Key.entry p).bytes) :
        f.put (Key.entry stop).bytes (some (Entry.encode tx)) key = f key :=
      Contents.put_other _ _ (hne stop UInt64.le_rfl).symm
    obtain hlast | ⟨next, _, hnext, hrest⟩ := eval_bind_stops.1 hadded
    · obtain ⟨hlast, -, rfl⟩ := eval_orFail_stops.1 hlast
      refine ⟨?_, hfirst⟩
      unfold UInt64.add? at hlast
      split at hlast
      · cases hlast
      next hfull =>
        have hone : (1 : UInt64).toNat = 1 := rfl
        rw [List.length_cons]
        omega
    · obtain ⟨hnext, rfl⟩ := eval_orFail_ok.1 hnext
      unfold UInt64.add? at hnext
      split at hnext
      next hfits =>
        cases hnext
        obtain ⟨hfull, hothers⟩ := ih hrest
        have hone : (stop + 1).toNat = stop.toNat + 1 := UInt64.toNat_add_ofNat hfits
        rw [hone] at hfull
        refine ⟨by rw [List.length_cons]; omega, fun key hne => ?_⟩
        rw [← hfirst key hne]
        refine hothers key fun p hp => hne p ?_
        rw [UInt64.le_iff_toNat_le] at hp ⊢
        omega
      next => cases hnext

/-- Putting at the end stops when the positions run out. The pointers and the live entries are as they
were, unless the positions that were written reach over the reserved one. -/
theorem append_stops {f f' : Contents} {txs : List Transaction} {fault : Fault}
    (h : (append txs).eval f = .error fault f') :
    f' = f ∧ rangeIn f = .error fault ∨
      ∃ r, rangeIn f = .ok r ∧ UInt64.size ≤ r.stop.toNat + txs.length ∧
        ∀ key, (∀ p, r.stop ≤ p → key ≠ (Key.entry p).bytes) → f' key = f key := by
  obtain hrange | ⟨r, f₁, hrange, h₁⟩ := eval_bind_stops.1 h
  · obtain ⟨hbad, rfl⟩ := range_stops.1 hrange
    exact .inl ⟨rfl, hbad⟩
  obtain ⟨hfound, rfl⟩ := range_ok.1 hrange
  obtain hstore | ⟨stop, f₂, -, h₂⟩ := eval_bind_stops.1 h₁
  · exact .inr ⟨r, hfound, store_stops hstore⟩
  · obtain hset | ⟨_, f₃, -, hdone⟩ := eval_bind_stops.1 h₂
    · exact absurd hset eval_write_stops
    · exact absurd hdone eval_pure_stops

theorem sameState_of_append_stops {f f' : Contents} {txs : List Transaction} {fault : Fault}
    (h : (append txs).eval f = .error fault f') : f'.SameState f := by
  intro key hkey
  obtain ⟨rfl, -⟩ | ⟨r, -, -, hothers⟩ := append_stops h
  · rfl
  · exact hothers key fun p _ => (Key.not_isQueue.1 hkey).2 p

section

variable {f f' : Contents} {txs : List Transaction} {fault : Fault}
  (h : (append txs).eval f = .error fault f') (room : txs.length ≤ Room.most)

include h room

/-- So many positions run out only when the end has passed the reserved one. -/
theorem rangeIn_of_append_stops : rangeIn f' = rangeIn f := by
  obtain ⟨rfl, -⟩ | ⟨r, -, hfull, hothers⟩ := append_stops h
  · rfl
  have hsize : UInt64.size = 2 ^ 64 := rfl
  have hmost : Room.most = 2 ^ 63 - 1 := rfl
  have hreserved : reserved.toNat = 0x3fffffffffffff00 := rfl
  rw [rangeIn, rangeIn, hothers]
  intro p hp hkey
  rw [Key.entry_eq_queue.1 hkey.symm, UInt64.le_iff_toNat_le] at hp
  omega

/-- As long as no more is put at the end than can be addressed, what waits is as it was when the
positions run out. -/
theorem waiting_of_append_stops : waiting f' = waiting f := by
  have hrange' := rangeIn_of_append_stops h room
  obtain ⟨rfl, -⟩ | ⟨r, hrange, -, hothers⟩ := append_stops h
  · rfl
  rw [hrange] at hrange'
  rw [waiting_of_range hrange, waiting_of_range hrange']
  refine List.filterMap_congr fun position hposition => ?_
  have hstop := r.stop.toNat_lt
  have hsize : UInt64.size = 2 ^ 64 := rfl
  rw [entryIn, entryIn, hothers]
  intro p hp hkey
  rw [UInt64.le_iff_toNat_le, ← Key.entry_bytes_inj hkey] at hp
  by_cases hordered : r.start.toNat ≤ r.stop.toNat
  · have hlive := (mem_positions (by omega)).1 hposition
    omega
  · have hnone : r.stop.toNat - r.start.toNat = 0 := by omega
    rw [live, hnone, positions] at hposition
    cases hposition

end

end Queue

end RoundLedger
