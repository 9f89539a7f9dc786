import RoundLedger.Node

/-!
# Steps that end well

A step that ended well ended well in all its parts. A loop keeps what each of its rounds keeps.
-/

namespace RoundLedger.Step

variable {ε σ τ α β : Type}

@[simp] theorem pure_ok {a b : α} {s t : σ} :
    (pure a : EStateM ε σ α) s = .ok b t ↔ a = b ∧ s = t := by
  change EStateM.Result.ok a s = .ok b t ↔ _
  rw [EStateM.Result.ok.injEq]

@[simp] theorem throw_ok {e : ε} {b : α} {s t : σ} :
    ¬ (throw e : EStateM ε σ α) s = .ok b t := by
  rintro ⟨⟩

@[simp] theorem get_ok {a s t : σ} : (get : EStateM ε σ σ) s = .ok a t ↔ s = a ∧ s = t := by
  change EStateM.Result.ok s s = .ok a t ↔ _
  rw [EStateM.Result.ok.injEq]

@[simp] theorem modify_ok {f : σ → σ} {a : PUnit} {s t : σ} :
    (modify f : EStateM ε σ PUnit) s = .ok a t ↔ t = f s := by
  constructor
  · rintro ⟨⟩
    rfl
  · rintro rfl
    rfl

theorem bind_ok {x : EStateM ε σ α} {f : α → EStateM ε σ β} {s u : σ} {b : β} :
    (x >>= f) s = .ok b u ↔ ∃ a t, x s = .ok a t ∧ f a t = .ok b u := by
  change EStateM.bind x f s = _ ↔ _
  unfold EStateM.bind
  cases x s with
  | ok a t =>
    constructor
    · exact fun h => ⟨a, t, rfl, h⟩
    · rintro ⟨_, _, ⟨⟩, h⟩
      exact h
  | error e t => simp

theorem zoom_ok {part : σ → τ} {restore : σ → τ → σ} {step : EStateM ε τ α} {s u : σ} {a : α} :
    zoom part restore step s = .ok a u ↔ ∃ t, step (part s) = .ok a t ∧ restore s t = u := by
  unfold zoom
  cases step (part s) with
  | ok a t =>
    constructor
    · rintro ⟨⟩
      exact ⟨t, rfl, rfl⟩
    · rintro ⟨_, ⟨⟩, rfl⟩
      rfl
  | error e t => simp

theorem access_ok {p : Program α} {n m : Node} {a : α} :
    Session.access p n = .ok a m ↔ ∃ v, p.run n.view = .ok a v ∧ { n with view := v } = m :=
  zoom_ok

@[simp] theorem meter_ok {f : Meters → Meters} {a : Unit} {n m : Node} :
    Session.meter f n = .ok a m ↔ m = { n with meters := f n.meters } := by
  rw [Session.meter, modify_ok]

/-- Whether a step ends well, with an answer and a state that pass the test. -/
def endsWith (result : EStateM.Result ε σ α) (test : α → σ → Bool) : Bool :=
  match result with
  | .ok a s => test a s
  | .error _ _ => false

theorem endsWith_iff {result : EStateM.Result ε σ α} {test : α → σ → Bool} :
    endsWith result test = true ↔ ∃ a s, result = .ok a s ∧ test a s = true := by
  cases result with
  | ok a s =>
    constructor
    · exact fun h => ⟨a, s, rfl, h⟩
    · rintro ⟨_, _, ⟨⟩, h⟩
      exact h
  | error e s => simp [endsWith]

/-- What holds at the start of a loop and is kept by each round holds at its end. The items done
so far stand in front of the ones to come. -/
theorem foldlM_ok {step : β → α → EStateM ε σ β} {items : List α} {b b' : β} {s s' : σ}
    (motive : List α → β → σ → Prop) (h : items.foldlM step b s = .ok b' s')
    (start : motive [] b s)
    (next : ∀ done item rest c t c' t', items = done ++ item :: rest → motive done c t →
      step c item t = .ok c' t' → motive (done ++ [item]) c' t') :
    motive items b' s' := by
  suffices general : ∀ rest done c t, items = done ++ rest → motive done c t →
      rest.foldlM step c t = .ok b' s' → motive items b' s' from general items [] b s rfl start h
  intro rest
  induction rest with
  | nil =>
    intro done c t hitems hdone hloop
    rw [List.foldlM_nil, pure_ok] at hloop
    obtain ⟨rfl, rfl⟩ := hloop
    rwa [hitems, List.append_nil]
  | cons item rest ih =>
    intro done c t hitems hdone hloop
    rw [List.foldlM_cons, bind_ok] at hloop
    obtain ⟨c', t', hstep, hloop⟩ := hloop
    exact ih (done ++ [item]) c' t' (by simp [hitems])
      (next done item rest c t c' t' hitems hdone hstep) hloop

end RoundLedger.Step
