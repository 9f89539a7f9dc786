import RoundLedger.Engine
import RoundLedger.Proofs.Accounts
import RoundLedger.Proofs.QueueSteps

/-!
# Steps of the engine

What `prepare` and `execute` do to the contents, apart from meters and settings.
-/

namespace RoundLedger

open Step Program State

namespace Engine

def contents (e : Engine) : Contents := e.desk.node.view.contents

def meters (e : Engine) : Meters := e.desk.node.meters

variable {e e' : Engine}

theorem onNode_ok {α : Type} {step : RoundLedger.Session α} {a : α}
    (h : onNode step e = .ok a e') :
    ∃ n, step e.desk.node = .ok a n ∧ e' = { e with desk := { e.desk with node := n } } := by
  unfold onNode onDesk at h
  obtain ⟨desk, hdesk, rfl⟩ := zoom_ok.1 h
  unfold Desk.onNode at hdesk
  obtain ⟨n, hnode, rfl⟩ := zoom_ok.1 hdesk
  exact ⟨n, hnode, rfl⟩

theorem onNode_collected {α : Type} {step : RoundLedger.Session α} {a : α}
    (h : onNode step e = .ok a e') : e'.collected = e.collected := by
  obtain ⟨n, -, rfl⟩ := onNode_ok h
  rfl

theorem onNode_lastHeight {α : Type} {step : RoundLedger.Session α} {a : α}
    (h : onNode step e = .ok a e') : e'.lastHeight = e.lastHeight := by
  obtain ⟨n, -, rfl⟩ := onNode_ok h
  rfl

theorem access_ok {α : Type} {p : Program α} {a : α} (h : access p e = .ok a e') :
    p.eval e.contents = .ok a e'.contents := by
  obtain ⟨n, haccess, rfl⟩ := onNode_ok h
  obtain ⟨v, hrun, rfl⟩ := Step.access_ok.1 haccess
  exact eval_of_run hrun

theorem access_meters {α : Type} {p : Program α} {a : α} (h : access p e = .ok a e') :
    e'.meters = e.meters := by
  obtain ⟨n, haccess, rfl⟩ := onNode_ok h
  obtain ⟨v, hrun, rfl⟩ := Step.access_ok.1 haccess
  rfl

theorem meter_ok {f : Meters → Meters} {u : Unit} (h : meter f e = .ok u e') :
    e'.contents = e.contents := by
  obtain ⟨n, hmeter, rfl⟩ := onNode_ok h
  obtain rfl := Step.meter_ok.1 hmeter
  rfl

theorem meter_meters {f : Meters → Meters} {u : Unit} (h : meter f e = .ok u e') :
    e'.meters = f e.meters := by
  obtain ⟨n, hmeter, rfl⟩ := onNode_ok h
  obtain rfl := Step.meter_ok.1 hmeter
  rfl

/-- The meters after an admission. -/
def admissionMeters (e : Engine) (admission : Admission) (queueLength : UInt64) : Meters :=
  let m := Meters.admission { e.meters with collected := e.meters.collected + e.collected.length } admission
  let m := m.discard .expired (admission.deferred.filter (·.isTooOld e.lastHeight)).length
  { m with
    admitted := m.admitted + admission.admitted.length
    queueLength
    preparations := m.preparations + 1 }

/-- What an admission does, one step after the other. -/
theorem prepare_inv {seed : UInt64} {minGasPrice : Word} {maxGasLimit : UInt64} {touched : List Address}
    (h : prepare seed minGasPrice maxGasLimit e = .ok touched e') :
    ∃ admission f range queueLength,
      (Admission.select e.collected minGasPrice maxGasLimit).eval e.contents = .ok admission f ∧
      (Queue.append admission.admitted).eval f = .ok range e'.contents ∧
      touched = admission.touched ∧
      range.size = .ok queueLength ∧
      e'.collected = admission.deferred.filter (fun tx => !tx.isTooOld e.lastHeight) ∧
      e'.meters = e.admissionMeters admission queueLength := by
  unfold prepare at h
  obtain ⟨collected, e₁, htake, h₁⟩ := bind_ok.1 h
  cases htake
  obtain ⟨_, e₂, hmeter₂, h₂⟩ := bind_ok.1 h₁
  obtain ⟨admission, e₃, hselect, h₃⟩ := bind_ok.1 h₂
  have hselected := access_ok hselect
  obtain ⟨_, e₄, hmeter₄, h₄⟩ := bind_ok.1 h₃
  obtain ⟨range, e₅, happend, h₅⟩ := bind_ok.1 h₄
  have happended := access_ok happend
  obtain ⟨_, _, hget, h₆⟩ := bind_ok.1 h₅
  obtain ⟨rfl, rfl⟩ := get_ok.1 hget
  obtain ⟨_, e₇, hmeter₇, h₇⟩ := bind_ok.1 h₆
  obtain ⟨_, e₈, hmodify, h₈⟩ := bind_ok.1 h₇
  obtain rfl := modify_ok.1 hmodify
  obtain ⟨_, e₉, hmeter₉, h₉⟩ := bind_ok.1 h₈
  obtain ⟨queueLength, e₁₀, hsize, h₁₀⟩ := bind_ok.1 h₉
  obtain ⟨hlength, hcontents₁₀⟩ := eval_ofExcept_ok.1 (access_ok hsize)
  obtain ⟨_, e₁₁, hmeter₁₁, h₁₁⟩ := bind_ok.1 h₁₀
  obtain ⟨rfl, rfl⟩ := pure_ok.1 h₁₁
  have hheight : e₅.lastHeight = e.lastHeight := by
    rw [onNode_lastHeight happend, onNode_lastHeight hmeter₄, onNode_lastHeight hselect, onNode_lastHeight hmeter₂]
  have hsplit : admission.deferred.partition (·.isTooOld e₅.lastHeight)
      = (admission.deferred.filter (·.isTooOld e.lastHeight),
        admission.deferred.filter fun tx => !tx.isTooOld e.lastHeight) := by
    rw [hheight]
    exact List.partition_eq_filter_filter
  refine ⟨admission, e₃.contents, range, queueLength, ?_, ?_, rfl, hlength, ?_, ?_⟩
  · rw [meter_ok hmeter₂] at hselected
    exact hselected
  · rw [meter_ok hmeter₄] at happended
    rw [happended, meter_ok hmeter₁₁, ← hcontents₁₀, meter_ok hmeter₉]
    change _ = EStateM.Result.ok _ e₇.contents
    rw [meter_ok hmeter₇]
  · rw [onNode_collected hmeter₁₁, onNode_collected hsize, onNode_collected hmeter₉]
    exact congrArg Prod.snd hsplit
  · have hmeters₅ : e₅.meters = Meters.admission
        { e.meters with collected := e.meters.collected + e.collected.length } admission := by
      rw [access_meters happend, meter_meters hmeter₄, access_meters hselect, meter_meters hmeter₂]
      rfl
    have hmeters₇ : e₇.meters = e₅.meters.discard .expired
        (admission.deferred.filter (·.isTooOld e.lastHeight)).length :=
      (meter_meters hmeter₇).trans (congrArg (fun parts => e₅.meters.discard .expired parts.1.length) hsplit)
    have hmeters₉ : e₉.meters = { e₇.meters with admitted := e₇.meters.admitted + admission.admitted.length } :=
      meter_meters hmeter₉
    rw [meter_meters hmeter₁₁, access_meters hsize, hmeters₉, hmeters₇, hmeters₅, admissionMeters]

theorem prepare_ok {seed : UInt64} {minGasPrice : Word} {maxGasLimit : UInt64} {touched : List Address}
    (h : prepare seed minGasPrice maxGasLimit e = .ok touched e') :
    ∃ admission f range,
      (Admission.select e.collected minGasPrice maxGasLimit).eval e.contents = .ok admission f ∧
      (Queue.append admission.admitted).eval f = .ok range e'.contents ∧
      touched = admission.touched := by
  obtain ⟨admission, f, range, _, hselect, happend, htouched, -⟩ := prepare_inv h
  exact ⟨admission, f, range, hselect, happend, htouched⟩

theorem execute_ok {dealer : UInt64 → Dealer} {block : Block} {u : Unit}
    (h : execute dealer block e = .ok u e') :
    ∃ execution n, e.pool.execute e.runner block (dealer e.reorderSeed) e.desk.node = .ok execution n ∧
      (creditCoinbase block.coinbase (GasTotals.ofResults execution.results).fee).eval n.view.contents
        = .ok () e'.contents ∧
      e'.committed = execution.results := by
  unfold execute at h
  obtain ⟨_, _, hget, h₁⟩ := bind_ok.1 h
  obtain ⟨rfl, rfl⟩ := get_ok.1 hget
  obtain ⟨execution, e₁, hpool, h₂⟩ := bind_ok.1 h₁
  obtain ⟨n, hexecute, rfl⟩ := onNode_ok hpool
  obtain ⟨_, e₂, hcredit, h₃⟩ := bind_ok.1 h₂
  have hcredited := access_ok hcredit
  obtain ⟨_, e₃, hrecord, h₄⟩ := bind_ok.1 h₃
  obtain ⟨n₃, hinsert, rfl⟩ := onNode_ok hrecord
  obtain rfl := modify_ok.1 hinsert
  obtain ⟨_, e₄, hheight, h₅⟩ := bind_ok.1 h₄
  obtain rfl := modify_ok.1 hheight
  obtain ⟨_, e₅, hmeter₅, h₆⟩ := bind_ok.1 h₅
  have hcontents₅ := meter_ok hmeter₅
  obtain ⟨length, e₆, hsize, h₇⟩ := bind_ok.1 h₆
  have hsized := access_ok hsize
  obtain ⟨range, _, hrange, hlength⟩ := eval_bind_ok.1 hsized
  obtain ⟨-, rfl⟩ := Queue.range_ok.1 hrange
  obtain ⟨-, hcontents₆⟩ := eval_ofExcept_ok.1 hlength
  obtain ⟨_, e₇, hmeter₇, h₈⟩ := bind_ok.1 h₇
  have hcontents₇ := meter_ok hmeter₇
  obtain rfl := modify_ok.1 h₈
  refine ⟨execution, n, hexecute, ?_, rfl⟩
  change _ = EStateM.Result.ok _ e₇.contents
  rw [hcontents₇, ← hcontents₆, hcontents₅]
  exact hcredited

end Engine

end RoundLedger
