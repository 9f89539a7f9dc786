import RoundLedger.Proofs.Step

/-!
# Programs on contents

The contents of a store or a view are a function of the key. A program that runs on a view does
what it does on the contents of the view (`eval_contents`), however many overlays are open.
-/

namespace RoundLedger

/-- What a store holds under each key. -/
abbrev Contents := Bytes → Option Bytes

def Contents.put (f : Contents) (key : Bytes) (value : Option Bytes) : Contents :=
  fun other => if key = other then value else f other

@[simp] theorem Contents.put_same (f : Contents) (key : Bytes) (value : Option Bytes) :
    f.put key value key = value := if_pos rfl

theorem Contents.put_other (f : Contents) {key other : Bytes} (value : Option Bytes)
    (h : key ≠ other) : f.put key value other = f other := if_neg h

def View.contents (v : View) : Contents := v.value

namespace View

theorem contents_put (v : View) (key : Bytes) (value : Option Bytes) :
    (v.put key value).contents = v.contents.put key value :=
  funext fun other => value_put v key other value

theorem contents_get (v : View) (key : Bytes) : (v.get key).2.contents = v.contents :=
  funext fun other => value_get v key other

end View

namespace Program

open Step

/-! ## Running on contents -/

def eval {α : Type} : Program α → EStateM Fault Contents α
  | done a => pure a
  | fail fault => throw fault
  | get key next => fun f => (next (f key)).eval f
  | put key value next => fun f => next.eval (f.put key value)

theorem eval_bind {α β : Type} (p : Program α) (g : α → Program β) :
    (p >>= g).eval = p.eval >>= fun a => (g a).eval := by
  funext f
  change (p.bind g).eval f = EStateM.bind p.eval (fun a => (g a).eval) f
  induction p generalizing f with
  | done a => rfl
  | fail fault => rfl
  | get key next ih => exact ih (f key) f
  | put key value next ih => exact ih (f.put key value)

theorem eval_bind_ok {α β : Type} {p : Program α} {g : α → Program β} {f h : Contents} {b : β} :
    (p >>= g).eval f = .ok b h ↔ ∃ a f', p.eval f = .ok a f' ∧ (g a).eval f' = .ok b h := by
  rw [eval_bind, bind_ok]

@[simp] theorem eval_pure_ok {α : Type} {a b : α} {f h : Contents} :
    (pure a : Program α).eval f = .ok b h ↔ a = b ∧ f = h := pure_ok

@[simp] theorem eval_fail_ok {α : Type} {fault : Fault} {b : α} {f h : Contents} :
    ¬ (fail fault : Program α).eval f = .ok b h := throw_ok

@[simp] theorem eval_look_bind {α : Type} (key : Bytes) (g : Option Bytes → Program α)
    (f : Contents) : (look key >>= g).eval f = (g (f key)).eval f := rfl

@[simp] theorem eval_ofExcept_ok {α : Type} {x : Except Fault α} {a : α} {f h : Contents} :
    (ofExcept x).eval f = .ok a h ↔ x = .ok a ∧ f = h := by
  cases x with
  | ok b => simp [ofExcept, eval]
  | error fault => simp [ofExcept, eval]

@[simp] theorem eval_orFail_ok {α : Type} {fault : Fault} {x : Option α} {a : α} {f h : Contents} :
    (orFail fault x).eval f = .ok a h ↔ x = some a ∧ f = h := by
  cases x with
  | some b => simp [orFail, eval]
  | none => simp [orFail, eval]

/-! ## Views -/

theorem run_get {α : Type} (key : Bytes) (next : Option Bytes → Program α) (v : View) :
    (get key next).run v = (next (v.value key)).run (v.get key).2 := by
  rw [← View.get_fst]
  rfl

/-- A program does on a view what it does on the contents of the view. -/
theorem eval_contents {α : Type} (p : Program α) (v : View) :
    p.eval v.contents = match p.run v with
      | .ok a w => .ok a w.contents
      | .error fault w => .error fault w.contents := by
  induction p generalizing v with
  | done a => rfl
  | fail fault => rfl
  | get key next ih =>
    have step := ih (v.value key) (v.get key).2
    rw [View.contents_get] at step
    rw [run_get]
    exact step
  | put key value next ih =>
    have step := ih (v.put key value)
    rw [View.contents_put] at step
    exact step

theorem eval_of_run {α : Type} {p : Program α} {v w : View} {a : α} (h : p.run v = .ok a w) :
    p.eval v.contents = .ok a w.contents := by
  rw [eval_contents, h]

end Program

end RoundLedger
