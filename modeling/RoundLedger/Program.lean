import RoundLedger.Fault
import RoundLedger.View

/-!
# Programs over the store

Everything that touches the store is written as a tree of its accesses: each look-up goes on
with the value found. So what a program does depends on nothing but the values it looked up,
and it touches nothing but the keys it names.
-/

namespace RoundLedger

inductive Program (α : Type) where
  | done (result : α)
  | fail (fault : Fault)
  | get (key : Bytes) (next : Option Bytes → Program α)
  /-- Writes a value, or deletes the record. -/
  | put (key : Bytes) (value : Option Bytes) (next : Program α)

namespace Program

def bind {α β : Type} : Program α → (α → Program β) → Program β
  | done a, f => f a
  | fail fault, _ => fail fault
  | get key next, f => get key fun value => (next value).bind f
  | put key value next, f => put key value (next.bind f)

instance : Monad Program where
  pure := done
  bind := bind

theorem bind_done {α : Type} (p : Program α) : p.bind done = p := by
  induction p with
  | done a => rfl
  | fail fault => rfl
  | get key next ih => simp only [bind]; exact congrArg (get key) (funext ih)
  | put key value next ih => simp only [bind, ih]

theorem bind_assoc {α β γ : Type} (p : Program α) (f : α → Program β) (g : β → Program γ) :
    (p.bind f).bind g = p.bind fun a => (f a).bind g := by
  induction p with
  | done a => rfl
  | fail fault => rfl
  | get key next ih => simp only [bind]; exact congrArg (get key) (funext ih)
  | put key value next ih => simp only [bind, ih]

instance : LawfulMonad Program :=
  LawfulMonad.mk' Program bind_done (fun _ _ => rfl) bind_assoc

/-! ## Single accesses -/

def look (key : Bytes) : Program (Option Bytes) := get key done

def write (key value : Bytes) : Program Unit := put key (some value) (done ())

def delete (key : Bytes) : Program Unit := put key none (done ())

def ofExcept {α : Type} : Except Fault α → Program α
  | .ok a => done a
  | .error fault => fail fault

/-- The value, or the fault when there is none. -/
def orFail {α : Type} (fault : Fault) : Option α → Program α
  | some a => done a
  | none => fail fault

/-! ## Running -/

/-- Runs a program on a view. A fault leaves the view as it was reached. -/
def run {α : Type} : Program α → EStateM Fault View α
  | done a => pure a
  | fail fault => throw fault
  | get key next => fun v =>
    let (value, v) := v.get key
    run (next value) v
  | put key value next => fun v => run next (v.put key value)

end Program

end RoundLedger
