import RoundLedger.Proofs.Broken
import RoundLedger.Proofs.Engine

/-!
# Commands that stop

Where `prepare` and `execute` can stop with a fault, and what is in the store then. A command that starts
with no overlay open stops with none open, but for the overlay of the entry whose run stopped.
-/

namespace RoundLedger

open Step Program Queue

namespace Engine

/-- What is committed, as contents. -/
def stored (e : Engine) : Contents := e.desk.node.view.stored

variable {e e' : Engine} {fault : Fault}

theorem onNode_stops {α : Type} {step : RoundLedger.Session α} (h : onNode step e = .error fault e') :
    ∃ n, step e.desk.node = .error fault n ∧ e' = { e with desk := { e.desk with node := n } } := by
  unfold onNode onDesk at h
  obtain ⟨desk, hdesk, rfl⟩ := zoom_stops.1 h
  unfold Desk.onNode at hdesk
  obtain ⟨n, hnode, rfl⟩ := zoom_stops.1 hdesk
  exact ⟨n, hnode, rfl⟩

theorem access_stops {α : Type} {p : Program α} (h : access p e = .error fault e')
    (idle : e.desk.node.view.overlays = []) : p.eval e.contents = .error fault e'.stored := by
  obtain ⟨n, haccess, rfl⟩ := onNode_stops h
  exact Session.access_stored idle haccess

theorem access_overlays {α : Type} {p : Program α} {a : α} (h : access p e = .ok a e')
    (idle : e.desk.node.view.overlays = []) : e'.desk.node.view.overlays = [] := by
  obtain ⟨n, haccess, rfl⟩ := onNode_ok h
  exact Session.access_overlays idle haccess

theorem meter_stops {f : Meters → Meters} : ¬ meter f e = .error fault e' := by
  intro h
  obtain ⟨n, hmeter, -⟩ := onNode_stops h
  exact Step.meter_stops hmeter

theorem meter_overlays {f : Meters → Meters} {u : Unit} (h : meter f e = .ok u e')
    (idle : e.desk.node.view.overlays = []) : e'.desk.node.view.overlays = [] := by
  obtain ⟨n, hmeter, rfl⟩ := onNode_ok h
  obtain rfl := Step.meter_ok.1 hmeter
  exact idle

/-- An admission stops while it charges the senders, while it queues what they paid for, or at a queue that
ends before it starts. -/
inductive PrepareStops (minGasPrice : Word) (maxGasLimit : UInt64) (e : Engine) (fault : Fault) :
    Contents → Prop
  | charging {g} :
      (Admission.select e.collected minGasPrice maxGasLimit).eval e.contents = .error fault g →
      PrepareStops minGasPrice maxGasLimit e fault g
  | queueing {admission f g} :
      (Admission.select e.collected minGasPrice maxGasLimit).eval e.contents = .ok admission f →
      (append admission.admitted).eval f = .error fault g →
      PrepareStops minGasPrice maxGasLimit e fault g
  | sizing {admission f range g} :
      (Admission.select e.collected minGasPrice maxGasLimit).eval e.contents = .ok admission f →
      (append admission.admitted).eval f = .ok range g → range.size = .error fault →
      PrepareStops minGasPrice maxGasLimit e fault g

theorem prepare_stops {seed : UInt64} {minGasPrice : Word} {maxGasLimit : UInt64}
    (idle : e.desk.node.view.overlays = [])
    (h : prepare seed minGasPrice maxGasLimit e = .error fault e') :
    PrepareStops minGasPrice maxGasLimit e fault e'.stored := by
  unfold prepare at h
  obtain htake | ⟨collected, e₁, htake, h₁⟩ := bind_stops.1 h
  · cases htake
  cases htake
  obtain hstop | ⟨_, e₂, hmeter₂, h₂⟩ := bind_stops.1 h₁
  · exact absurd hstop meter_stops
  have idle₂ := meter_overlays hmeter₂ idle
  have hcontents₂ : e₂.contents = e.contents := (meter_ok hmeter₂).trans rfl
  obtain hstop | ⟨admission, e₃, hselect, h₃⟩ := bind_stops.1 h₂
  · exact .charging (hcontents₂ ▸ access_stops hstop idle₂)
  have idle₃ := access_overlays hselect idle₂
  have hselected := hcontents₂ ▸ access_ok hselect
  obtain hstop | ⟨_, e₄, hmeter₄, h₄⟩ := bind_stops.1 h₃
  · exact absurd hstop meter_stops
  have idle₄ := meter_overlays hmeter₄ idle₃
  have hcontents₄ := meter_ok hmeter₄
  obtain hstop | ⟨range, e₅, happend, h₅⟩ := bind_stops.1 h₄
  · exact .queueing hselected (hcontents₄ ▸ access_stops hstop idle₄)
  have idle₅ := access_overlays happend idle₄
  have happended := hcontents₄ ▸ access_ok happend
  obtain hstop | ⟨_, _, hget, h₆⟩ := bind_stops.1 h₅
  · cases hstop
  obtain ⟨rfl, rfl⟩ := get_ok.1 hget
  obtain hstop | ⟨_, e₇, hmeter₇, h₇⟩ := bind_stops.1 h₆
  · exact absurd hstop meter_stops
  have idle₇ := meter_overlays hmeter₇ idle₅
  have hcontents₇ := meter_ok hmeter₇
  obtain hstop | ⟨_, e₈, hmodify, h₈⟩ := bind_stops.1 h₇
  · exact absurd hstop modify_stops
  obtain rfl := modify_ok.1 hmodify
  obtain hstop | ⟨_, e₉, hmeter₉, h₉⟩ := bind_stops.1 h₈
  · exact absurd hstop meter_stops
  have idle₉ := meter_overlays hmeter₉ idle₇
  have hcontents₉ : e₉.contents = e₇.contents := (meter_ok hmeter₉).trans rfl
  obtain hstop | ⟨length, e₁₀, -, h₁₀⟩ := bind_stops.1 h₉
  · obtain ⟨hsize, hsame⟩ := eval_ofExcept_stops.1 (access_stops hstop idle₉)
    rw [hcontents₉, hcontents₇] at hsame
    exact .sizing hselected (hsame ▸ happended) hsize
  obtain hstop | ⟨_, e₁₁, -, hdone⟩ := bind_stops.1 h₁₀
  · exact absurd hstop meter_stops
  · cases hdone

/-- A block stops in its rounds, or behind them, where what they left is stored but for the fees of the
coinbase. -/
inductive ExecuteStops (dealer : UInt64 → Dealer) (block : Block) (e : Engine) (fault : Fault) :
    Contents → Prop
  | rounds {committed taken g} :
      Rounds.Stopped e.runner e.desk.node.hashes block e.pool.batch e.contents fault committed taken g →
      ExecuteStops dealer block e fault g
  | crediting {execution n g} :
      e.pool.execute e.runner block (dealer e.reorderSeed) e.desk.node = .ok execution n →
      (creditCoinbase block.coinbase (GasTotals.ofResults execution.results).fee).eval n.view.contents
        = .error fault g →
      ExecuteStops dealer block e fault g
  | sizing {execution n g} :
      e.pool.execute e.runner block (dealer e.reorderSeed) e.desk.node = .ok execution n →
      (creditCoinbase block.coinbase (GasTotals.ofResults execution.results).fee).eval n.view.contents
        = .ok () g →
      Queue.size.eval g = .error fault g → ExecuteStops dealer block e fault g

end Engine

namespace Rounds

theorem execute_overlays {r : Runner} {block : Block} {pool : Pool} {dealer : Dealer} {n n' : Node}
    {e : BlockExecution} (idle : n.view.overlays = []) (h : pool.execute r block dealer n = .ok e n') :
    n'.view.overlays = [] := by
  obtain ⟨entries, loaded, ran, haccess, hruns, rfl⟩ := execute_inv h
  have hidle := runRounds_overlays (Session.access_overlays idle haccess) hruns
  exact hidle

end Rounds

namespace Engine

variable {e e' : Engine} {fault : Fault}

theorem execute_stops {dealer : UInt64 → Dealer} {block : Block} (idle : e.desk.node.view.overlays = [])
    (h : execute dealer block e = .error fault e') :
    ExecuteStops dealer block e fault e'.stored := by
  unfold execute at h
  obtain hstop | ⟨_, _, hget, h₁⟩ := bind_stops.1 h
  · cases hstop
  obtain ⟨rfl, rfl⟩ := get_ok.1 hget
  obtain hstop | ⟨execution, e₁, hpool, h₂⟩ := bind_stops.1 h₁
  · obtain ⟨n, hpool, rfl⟩ := onNode_stops hstop
    obtain ⟨committed, taken, hstopped⟩ := Rounds.execute_stops idle hpool
    exact .rounds hstopped
  obtain ⟨n, hexecute, rfl⟩ := onNode_ok hpool
  have idle₁ := Rounds.execute_overlays idle hexecute
  obtain hstop | ⟨_, e₂, hcredit, h₃⟩ := bind_stops.1 h₂
  · exact .crediting hexecute (access_stops hstop idle₁)
  have idle₂ := access_overlays hcredit idle₁
  have hcredited := access_ok hcredit
  obtain hstop | ⟨_, e₃, hrecord, h₄⟩ := bind_stops.1 h₃
  · obtain ⟨_, hstop, -⟩ := onNode_stops hstop
    exact absurd hstop modify_stops
  obtain ⟨n₃, hinsert, rfl⟩ := onNode_ok hrecord
  obtain rfl := modify_ok.1 hinsert
  obtain hstop | ⟨_, e₄, hheight, h₅⟩ := bind_stops.1 h₄
  · exact absurd hstop modify_stops
  obtain rfl := modify_ok.1 hheight
  obtain hstop | ⟨_, e₅, hmeter₅, h₆⟩ := bind_stops.1 h₅
  · exact absurd hstop meter_stops
  have idle₅ : e₅.desk.node.view.overlays = [] := meter_overlays hmeter₅ idle₂
  have hcontents₅ : e₅.contents = e₂.contents := (meter_ok hmeter₅).trans rfl
  obtain hstop | ⟨length, e₆, -, h₇⟩ := bind_stops.1 h₆
  · have hsize := access_stops hstop idle₅
    have hsame : e'.stored = e₅.contents := by
      obtain hrange | ⟨range, _, hrange, hsized⟩ := eval_bind_stops.1 hsize
      · exact (range_stops.1 hrange).2.symm
      · obtain ⟨-, rfl⟩ := range_ok.1 hrange
        exact (eval_ofExcept_stops.1 hsized).2.symm
    rw [← hsame] at hsize
    rw [← hcontents₅, ← hsame] at hcredited
    exact .sizing hexecute hcredited hsize
  obtain hstop | ⟨_, e₇, -, h₈⟩ := bind_stops.1 h₇
  · exact absurd hstop meter_stops
  · exact absurd h₈ modify_stops

end Engine

end RoundLedger
