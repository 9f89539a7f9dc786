import RoundLedger.Proofs.Assertions
import RoundLedger.Proofs.Consecutive
import RoundLedger.Proofs.Histories
import RoundLedger.Proofs.Survival

/-!
# What an engine reaches

Whatever a step of an engine leaves, also one that stops, was made in one of three ways: senders were charged,
transactions that waited ran one after another, or the fees of such a run were paid out (`Leaves`). So what
these three keep holds of every state that the engine reaches.
-/

namespace RoundLedger

open Step Program State Queue

/-! ## Admission -/

namespace Admission

/-- Accounts of the given senders were charged, one after another. -/
inductive Charges (senders : Address → Prop) (f : Contents) : Contents → Prop
  | start : Charges senders f f
  | charge {g sender account balance} : Charges senders f g → senders sender →
      accountsIn g sender = some account → balance ≤ account.balance →
      Charges senders f
        (g.put (Key.account sender).bytes (some (Account.encode { account with balance })))

/-- The senders of the transactions with the given property. -/
def SenderOf (P : Transaction → Prop) (address : Address) : Prop := ∃ tx, P tx ∧ tx.sender = address

section

variable {P : Transaction → Prop} {candidates : List (Address × Nonces)} {f f' : Contents}

theorem admitSender_charges {sender : Address} {txs : List Transaction} {share : Share} {f₀ : Contents}
    (own : ∀ tx ∈ txs, P tx ∧ tx.sender = sender) (sofar : Charges (SenderOf P) f₀ f)
    (h : (admitSender sender txs).eval f = .ok share f') : Charges (SenderOf P) f₀ f' := by
  obtain ⟨⟨hrun, -⟩, ⟨-, rfl⟩ | ⟨account, hsome, haccount, hsum, rfl⟩⟩ := admitSender_cases h
  · exact sofar
  · obtain ⟨tx, htx⟩ := List.exists_mem_of_ne_nil _ hsome
    refine .charge sofar ⟨tx, own tx (hrun.subset htx)⟩ haccount ?_
    rw [BitVec.le_def]
    omega

theorem admitSenders_charges {shares : List (Address × Share)} {f₀ : Contents} (own : Own P candidates)
    (sofar : Charges (SenderOf P) f₀ f) (h : (admitSenders candidates).eval f = .ok shares f') :
    Charges (SenderOf P) f₀ f' := by
  induction candidates generalizing f shares with
  | nil =>
    obtain ⟨-, rfl⟩ := eval_pure_ok.1 h
    exact sofar
  | cons candidate rest ih =>
    obtain ⟨sender, nonces⟩ := candidate
    rw [admitSenders] at h
    obtain ⟨share, f₁, hshare, hothers⟩ := eval_bind_ok.1 h
    obtain ⟨shares', f₂, hshares, hdone⟩ := eval_bind_ok.1 hothers
    obtain ⟨-, rfl⟩ := eval_pure_ok.1 hdone
    exact ih own.tail (admitSender_charges (fun tx htx => own.head htx) sofar hshare) hshares

theorem admitSenders_deferred {shares : List (Address × Share)} (own : Own P candidates)
    (h : (admitSenders candidates).eval f = .ok shares f') : ∀ tx ∈ shares.flatMap (·.2.deferred), P tx := by
  induction candidates generalizing f shares with
  | nil =>
    obtain ⟨rfl, -⟩ := eval_pure_ok.1 h
    simp
  | cons candidate rest ih =>
    obtain ⟨sender, nonces⟩ := candidate
    rw [admitSenders] at h
    obtain ⟨share, f₁, hshare, hothers⟩ := eval_bind_ok.1 h
    obtain ⟨shares', f₂, hshares, hdone⟩ := eval_bind_ok.1 hothers
    obtain ⟨rfl, rfl⟩ := eval_pure_ok.1 hdone
    have hdeferred := (admitSender_cases hshare).1.2
    rw [List.flatMap_cons, List.forall_mem_append]
    exact ⟨fun tx htx => (own.head (hdeferred.subset htx)).1, ih own.tail hshares⟩

end

variable {collected : List Transaction} {minGasPrice : Word} {maxGasLimit : UInt64} {f f' : Contents}

theorem select_charges {admission : Admission}
    (h : (select collected minGasPrice maxGasLimit).eval f = .ok admission f') :
    Charges (SenderOf (· ∈ collected)) f f' ∧ ∀ tx ∈ admission.deferred, tx ∈ collected := by
  obtain ⟨shares, f₁, hshares, hdone⟩ := eval_bind_ok.1 h
  obtain ⟨rfl, rfl⟩ := eval_pure_ok.1 hdone
  have own := own_gather collected minGasPrice maxGasLimit
  exact ⟨admitSenders_charges own .start hshares, admitSenders_deferred own hshares⟩

theorem select_stops_charges {fault : Fault}
    (h : (select collected minGasPrice maxGasLimit).eval f = .error fault f') :
    Charges (SenderOf (· ∈ collected)) f f' := by
  obtain hshares | ⟨shares, f₁, -, hdone⟩ := eval_bind_stops.1 h
  · obtain ⟨done, rest, shares, hsplit, hdone⟩ := admitSenders_stops hshares
    have own := own_gather collected minGasPrice maxGasLimit
    rw [hsplit] at own
    exact admitSenders_charges own.append_left .start hdone
  · exact absurd hdone eval_pure_stops

end Admission

/-! ## Blocks -/

theorem Staking.committed_stops {result : CommittedResult} {f f' : Contents} {fault : Fault}
    (h : (committed result).eval f = .error fault f') : f' = f := by
  unfold committed at h
  split at h
  · exact absurd h eval_pure_stops
  · obtain hsum | ⟨sum, g, -, hevent⟩ := eval_bind_stops.1 h
    · exact (readWord_stops hsum).2
    · split at hevent
      · exact absurd hevent eval_pure_stops
      · exact absurd hevent eval_pure_stops
      · exact absurd hevent eval_pure_stops

namespace Rounds

variable {r : Runner} {hashes : BlockHashes} {block : Block} {batch : UInt64} {f : Contents}
  (staking : r.contracts.OnlyStaking)

include staking

/-- What a block has come to between two of its rounds, a serial run of what it has published leads to. -/
theorem Reached.serial {e : BlockExecution} {gate : NonceGate} {h : Contents}
    (reached : Reached r hashes block batch f e gate h) :
    (∃ s, Serial r hashes block f e.results s ∧ s.SameState h) ∧
      ∃ rest, (e.results.map (·.tx) ++ rest).Perm (waiting f) := by
  obtain ⟨queued, -, hruns⟩ := reached
  obtain ⟨lost, -, -, hperm⟩ := hruns.exists_lost staking.avoids
  rw [List.append_assoc] at hperm
  exact ⟨hruns.serial staking.avoids staking.quiet, _, hperm⟩

/-- Taking entries off the front leaves the state alone. They waited when the block began. -/
theorem Reached.popped {e : BlockExecution} {gate : NonceGate} {h h₁ : Contents} {most : UInt64}
    {entries : List QueueEntry} (reached : Reached r hashes block batch f e gate h)
    (hpop : (popFront most).eval h = .ok entries h₁) :
    h.SameState h₁ ∧ ∀ entry ∈ entries, entry.tx ∈ waiting f := by
  obtain ⟨queued, -, hruns⟩ := reached
  obtain ⟨_, hpopped, -⟩ := popFront_ok hpop
  refine ⟨hpopped.sameState.symm, fun entry hentry => hruns.waits_before staking.avoids ?_⟩
  rw [hpopped.waiting_eq]
  exact List.mem_append_left _ (List.mem_map_of_mem hentry)

omit staking in
theorem execute_reached {pool : Pool} {dealer : Dealer} {e : BlockExecution} {n n' : Node}
    (h : pool.execute r block dealer n = .ok e n') :
    ∃ gate, Reached r n.hashes block pool.batch n.view.contents e gate n'.view.contents := by
  obtain ⟨range, entries, gate, hrange, hpositions, hfound, hruns, -⟩ := execute_runs h
  exact ⟨gate, entries, (waiting_of_found hrange hpositions hfound).symm, hruns⟩

/-- A round that stops has committed a serial run. -/
theorem Broken.serial {gate : NonceGate} {h g : Contents} {fault : Fault} {committed taken : List Transaction}
    (broken : Broken r hashes block batch gate h fault committed taken g) {results : List CommittedResult}
    {s : Contents} (hserial : Serial r hashes block f results s) (same : s.SameState h) :
    ∃ results' s', Serial r hashes block f (results ++ results') s' ∧ results'.map (·.tx) = committed ∧
      s'.SameState g := by
  have hpopped {entries h₁} (hpop : (popFront batch).eval h = .ok entries h₁) : s.SameState h₁ := by
    obtain ⟨_, hpopped, -⟩ := popFront_ok hpop
    exact same.trans hpopped.sameState.symm
  cases broken with
  | taking hpop =>
    rw [popFront_stops hpop]
    exact ⟨[], s, by simpa using hserial, rfl, same⟩
  | running hpop _ _ _ => exact ⟨[], s, by simpa using hserial, rfl, hpopped hpop⟩
  | @hook h₁ h₂ _ done entry rest p result c o contract hpop hsettled hmay htrial hconflict hcontract hhook =>
    obtain rfl := staking.at? hcontract
    obtain rfl := Staking.committed_stops hhook
    -- The entry whose hook stopped is committed, for its writes are in the store.
    have hcommitted := Settled.commit hsettled hmay htrial hconflict (.inl rfl)
    obtain ⟨-, s', hserial', hsame⟩ := hcommitted.serial staking.avoids staking.quiet hserial (hpopped hpop)
    exact ⟨_, s', hserial', by simp [Progress.commit], hsame⟩
  | returning hpop hsettled happend =>
    obtain ⟨-, s', hserial', hsame⟩ := hsettled.serial staking.avoids staking.quiet hserial (hpopped hpop)
    exact ⟨_, s', hserial', by simp, hsame.trans (sameState_of_append_stops happend).symm⟩

/-- A block that stops has committed a serial run. -/
theorem Stopped.serial {g : Contents} {fault : Fault} {committed taken : List Transaction}
    (stopped : Stopped r hashes block batch f fault committed taken g) :
    ∃ results s, Serial r hashes block f results s ∧ s.SameState g ∧
      ∃ rest, (results.map (·.tx) ++ rest).Perm (waiting f) := by
  obtain ⟨lost, -, -, hperm, -⟩ := stopped.conserved staking.avoids
  cases stopped with
  | loading _ => exact ⟨[], f, .start, .refl f, waiting f, .refl _⟩
  | round hqueued hruns hbroken =>
    obtain ⟨s, hserial, hsame⟩ := hruns.serial staking.avoids staking.quiet
    obtain ⟨results', s', hserial', hcommitted, hsame'⟩ := hbroken.serial staking hserial hsame
    refine ⟨_, s', hserial', hsame', waiting g ++ taken ++ lost, ?_⟩
    rw [List.map_append, hcommitted]
    simpa using hperm

end Rounds

/-! ## Steps -/

theorem Queue.mem_waiting_of_appended {f f' : Contents} {r : QueueRange} {txs : List Transaction}
    (happended : Appended f r txs f') (sized : ∀ tx ∈ txs, tx.data.length < UInt64.size) {tx : Transaction}
    (htx : tx ∈ waiting f') : tx ∈ waiting f ∨ tx ∈ txs := by
  have hstop := happended.stop_toNat
  have hsize : UInt64.size = 2 ^ 64 := rfl
  have hwide := happended.fits
  rw [waiting_of_range happended.next] at htx
  obtain ⟨position, hposition, hentry⟩ := List.mem_filterMap.1 htx
  -- In a queue that ends before it starts nothing is live, but positions behind its end may become so.
  by_cases hempty : (r.stop + UInt64.ofNat txs.length).toNat ≤ r.start.toNat
  · rw [live, Nat.sub_eq_zero_of_le hempty, positions] at hposition
    cases hposition
  · have hrange := (mem_positions (by dsimp only; omega)).1 hposition
    dsimp only at hrange
    by_cases hold : position.toNat < r.stop.toNat
    · rw [happended.entryIn_eq (.inl hold)] at hentry
      rw [waiting_of_range happended.range]
      exact .inl (List.mem_filterMap.2 ⟨position, (mem_positions (by omega)).2 (by omega), hentry⟩)
    · have hplaced : position ∈ (placed r.stop txs).map (·.1) := by
        rw [map_fst_placed]
        exact (mem_positions (by omega)).2 (by omega)
      obtain ⟨place, hplace, rfl⟩ := List.mem_map.1 hplaced
      rw [happended.entryIn_placed sized hplace] at hentry
      split at hentry
      · cases hentry
      · cases hentry
        exact .inr (List.of_mem_zip hplace).2

namespace Engine

/-- What a step of an engine may leave, and may find while it runs, but for records of the queue. -/
inductive Leaves (e : Engine) : Contents → Prop
  | charged {g h} : Admission.Charges (Admission.SenderOf (· ∈ e.collected)) e.contents g → g.SameState h →
      Leaves e h
  | ran {block results rest s h} :
      Rounds.Serial e.runner e.desk.node.hashes block e.contents results s →
      (results.map (·.tx) ++ rest).Perm (waiting e.contents) → s.SameState h → Leaves e h
  | paidOut {block results rest s h} :
      Rounds.Serial e.runner e.desk.node.hashes block e.contents results s →
      (results.map (·.tx) ++ rest).Perm (waiting e.contents) →
      (s.credit block.coinbase (GasTotals.ofResults results).fee).SameState h → Leaves e h

theorem Leaves.same {e : Engine} {g h : Contents} (leaves : e.Leaves g) (same : g.SameState h) :
    e.Leaves h := by
  cases leaves with
  | charged hcharges hsame => exact .charged hcharges (hsame.trans same)
  | ran hserial hperm hsame => exact .ran hserial hperm (hsame.trans same)
  | paidOut hserial hperm hsame => exact .paidOut hserial hperm (hsame.trans same)

theorem Leaves.refl (e : Engine) : e.Leaves e.contents := .charged .start (.refl _)

section

variable {e e' : Engine}

theorem prepare_leaves {seed : UInt64} {minGasPrice : Word} {maxGasLimit : UInt64} {touched : List Address}
    (h : prepare seed minGasPrice maxGasLimit e = .ok touched e') : e.Leaves e'.contents := by
  obtain ⟨admission, f, range, hselect, happend, -⟩ := prepare_ok h
  obtain ⟨_, happended, -⟩ := append_ok happend
  exact .charged (Admission.select_charges hselect).1 happended.sameState.symm

theorem prepare_stops_leaves {seed : UInt64} {minGasPrice : Word} {maxGasLimit : UInt64} {fault : Fault}
    (idle : e.desk.node.view.overlays = [])
    (h : prepare seed minGasPrice maxGasLimit e = .error fault e') : e.Leaves e'.stored := by
  cases prepare_stops idle h with
  | charging hselect => exact .charged (Admission.select_stops_charges hselect) (.refl _)
  | queueing hselect happend =>
    exact .charged (Admission.select_charges hselect).1 (sameState_of_append_stops happend).symm
  | sizing hselect happend _ =>
    obtain ⟨_, happended, -⟩ := append_ok happend
    exact .charged (Admission.select_charges hselect).1 happended.sameState.symm

variable (staking : e.runner.contracts.OnlyStaking) {block : Block}

include staking

theorem reached_leaves {execution : BlockExecution} {gate : NonceGate} {h : Contents}
    (reached : Rounds.Reached e.runner e.desk.node.hashes block e.pool.batch e.contents execution gate h) :
    e.Leaves h := by
  obtain ⟨⟨s, hserial, hsame⟩, rest, hperm⟩ := reached.serial staking
  exact .ran hserial hperm hsame

theorem credited_leaves {dealer : Dealer} {execution : BlockExecution} {n : Node} {g : Contents} {u : Unit}
    (hexecute : e.pool.execute e.runner block dealer e.desk.node = .ok execution n)
    (hcredit : (creditCoinbase block.coinbase (GasTotals.ofResults execution.results).fee).eval
      n.view.contents = .ok u g) : e.Leaves g := by
  obtain ⟨gate, reached⟩ := Rounds.execute_reached hexecute
  obtain ⟨⟨s, hserial, hsame⟩, rest, hperm⟩ := reached.serial staking
  rw [creditCoinbase_ok hcredit]
  exact .paidOut hserial hperm (hsame.credit _ _)

theorem execute_leaves {dealer : UInt64 → Dealer} {u : Unit} (h : execute dealer block e = .ok u e') :
    e.Leaves e'.contents := by
  obtain ⟨execution, n, hexecute, hcredit, -⟩ := execute_ok h
  exact credited_leaves staking hexecute hcredit

theorem execute_stops_leaves {dealer : UInt64 → Dealer} {fault : Fault}
    (idle : e.desk.node.view.overlays = []) (h : execute dealer block e = .error fault e') :
    e.Leaves e'.stored := by
  cases execute_stops idle h with
  | rounds hstopped =>
    obtain ⟨results, s, hserial, hsame, rest, hperm⟩ := hstopped.serial staking
    exact .ran hserial hperm hsame
  | @crediting execution n _ hexecute hcredit =>
    obtain ⟨gate, reached⟩ := Rounds.execute_reached hexecute
    rw [creditCoinbase_stops hcredit]
    exact reached_leaves staking reached
  | sizing hexecute hcredit _ => exact credited_leaves staking hexecute hcredit

end

/-! ## What a step leaves alone -/

/-- Nothing but the node has changed, and no overlay was left open. -/
structure NodeOnly (e e' : Engine) : Prop where
  idle : e.desk.node.view.overlays = [] → e'.desk.node.view.overlays = []
  runner : e'.runner = e.runner
  collected : e'.collected = e.collected

section

variable {e e' e'' : Engine}

theorem NodeOnly.trans (h : e.NodeOnly e') (h' : e'.NodeOnly e'') : e.NodeOnly e'' where
  idle idle := h'.idle (h.idle idle)
  runner := h'.runner.trans h.runner
  collected := h'.collected.trans h.collected

theorem access_nodeOnly {α : Type} {p : Program α} {a : α} (h : access p e = .ok a e') : e.NodeOnly e' where
  idle := access_overlays h
  runner := by
    obtain ⟨n, -, rfl⟩ := onNode_ok h
    rfl
  collected := by
    obtain ⟨n, -, rfl⟩ := onNode_ok h
    rfl

theorem meter_nodeOnly {f : Meters → Meters} {u : Unit} (h : meter f e = .ok u e') : e.NodeOnly e' where
  idle := meter_overlays h
  runner := by
    obtain ⟨n, -, rfl⟩ := onNode_ok h
    rfl
  collected := by
    obtain ⟨n, -, rfl⟩ := onNode_ok h
    rfl

theorem prepare_keeps {seed : UInt64} {minGasPrice : Word} {maxGasLimit : UInt64} {touched : List Address}
    (idle : e.desk.node.view.overlays = [])
    (h : prepare seed minGasPrice maxGasLimit e = .ok touched e') :
    e'.desk.node.view.overlays = [] ∧ e'.runner = e.runner ∧ ∀ tx ∈ e'.collected, tx ∈ e.collected := by
  unfold prepare at h
  obtain ⟨collected, e₁, htake, h₁⟩ := bind_ok.1 h
  cases htake
  obtain ⟨_, e₂, hmeter₂, h₂⟩ := bind_ok.1 h₁
  obtain ⟨admission, e₃, hselect, h₃⟩ := bind_ok.1 h₂
  obtain ⟨_, e₄, hmeter₄, h₄⟩ := bind_ok.1 h₃
  obtain ⟨range, e₅, happend, h₅⟩ := bind_ok.1 h₄
  obtain ⟨_, _, hget, h₆⟩ := bind_ok.1 h₅
  obtain ⟨rfl, rfl⟩ := get_ok.1 hget
  obtain ⟨_, e₇, hmeter₇, h₇⟩ := bind_ok.1 h₆
  obtain ⟨_, e₈, hmodify, h₈⟩ := bind_ok.1 h₇
  obtain rfl := modify_ok.1 hmodify
  obtain ⟨_, e₉, hmeter₉, h₉⟩ := bind_ok.1 h₈
  obtain ⟨length, e₁₀, hsize, h₁₀⟩ := bind_ok.1 h₉
  obtain ⟨_, e₁₁, hmeter₁₁, h₁₁⟩ := bind_ok.1 h₁₀
  obtain ⟨-, rfl⟩ := pure_ok.1 h₁₁
  have hdeferred := (Admission.select_charges (access_ok hselect)).2
  have hfront := ((((meter_nodeOnly hmeter₂).trans (access_nodeOnly hselect)).trans
    (meter_nodeOnly hmeter₄)).trans (access_nodeOnly happend)).trans (meter_nodeOnly hmeter₇)
  have hback := ((meter_nodeOnly hmeter₉).trans (access_nodeOnly hsize)).trans (meter_nodeOnly hmeter₁₁)
  refine ⟨hback.idle (hfront.idle idle), hback.runner.trans hfront.runner, fun tx htx => ?_⟩
  rw [hback.collected] at htx
  change tx ∈ (admission.deferred.partition _).2 at htx
  rw [List.partition_eq_filter_filter] at htx
  exact hdeferred tx (List.mem_filter.1 htx).1

theorem execute_keeps {dealer : UInt64 → Dealer} {block : Block} {u : Unit}
    (idle : e.desk.node.view.overlays = []) (h : execute dealer block e = .ok u e') :
    e'.desk.node.view.overlays = [] ∧ e'.runner = e.runner ∧ e'.collected = e.collected := by
  unfold execute at h
  obtain ⟨_, _, hget, h₁⟩ := bind_ok.1 h
  obtain ⟨rfl, rfl⟩ := get_ok.1 hget
  obtain ⟨execution, e₁, hpool, h₂⟩ := bind_ok.1 h₁
  obtain ⟨n, hexecute, rfl⟩ := onNode_ok hpool
  obtain ⟨_, e₂, hcredit, h₃⟩ := bind_ok.1 h₂
  obtain ⟨_, e₃, hrecord, h₄⟩ := bind_ok.1 h₃
  obtain ⟨n₃, hinsert, rfl⟩ := onNode_ok hrecord
  obtain rfl := modify_ok.1 hinsert
  obtain ⟨_, e₄, hheight, h₅⟩ := bind_ok.1 h₄
  obtain rfl := modify_ok.1 hheight
  obtain ⟨_, e₅, hmeter₅, h₆⟩ := bind_ok.1 h₅
  obtain ⟨length, e₆, hsize, h₇⟩ := bind_ok.1 h₆
  obtain ⟨_, e₇, hmeter₇, h₈⟩ := bind_ok.1 h₇
  obtain rfl := modify_ok.1 h₈
  have hfront := access_nodeOnly hcredit
  have hback := ((meter_nodeOnly hmeter₅).trans (access_nodeOnly hsize)).trans (meter_nodeOnly hmeter₇)
  exact ⟨hback.idle (hfront.idle (Rounds.execute_overlays idle hexecute)), hback.runner.trans hfront.runner,
    hback.collected.trans hfront.collected⟩

end

end Engine

/-! ## Histories -/

/-- Nothing is registered, and what is collected has the given property. -/
def Event.Routine (P : Transaction → Prop) : Event → Prop
  | collect tx => P tx
  | register _ _ => False
  | _ => True

namespace Engine

/-- What the steps of such a history do. -/
inductive Advance (P : Transaction → Prop) (e : Engine) : Engine → Prop
  | collect {tx} : P tx → Advance P e { e with collected := e.collected ++ [tx] }
  | prepare {seed minGasPrice maxGasLimit touched e'} :
      prepare seed minGasPrice maxGasLimit e = .ok touched e' → Advance P e e'
  | execute {dealer block u e'} : execute dealer block e = .ok u e' → Advance P e e'
  /-- The state is as it was. -/
  | aside {d : Desk} : d.node.view = e.desk.node.view → Advance P e { e with desk := d }

/-- Only an admission or a block can stop. -/
inductive Breaks (e : Engine) (fault : Fault) : Engine → Prop
  | prepare {seed minGasPrice maxGasLimit e'} :
      prepare seed minGasPrice maxGasLimit e = .error fault e' → Breaks e fault e'
  | execute {dealer block e'} : execute dealer block e = .error fault e' → Breaks e fault e'

end Engine

namespace Event

variable {P : Transaction → Prop} {event : Event} (routine : event.Routine P) {e e' : Engine}
  (idle : e.desk.node.view.overlays = [])

include routine idle

theorem Routine.advance {published : List (List CommittedResult)} (h : event.run e = .ok published e') :
    e.Advance P e' := by
  have hcall (hcall : event.isCall = true) : e.Advance P e' := by
    obtain ⟨d, hrun, hview, -⟩ := event.run_call hcall idle
    cases hrun.symm.trans h
    exact .aside hview
  cases event with
  | collect tx =>
    obtain ⟨_, e₁, hcollect, hdone⟩ := bind_ok.1 h
    obtain rfl := modify_ok.1 hcollect
    obtain ⟨-, rfl⟩ := pure_ok.1 hdone
    exact .collect routine
  | prepare seed minGasPrice maxGasLimit =>
    obtain ⟨_, e₁, hprepare, hdone⟩ := bind_ok.1 h
    obtain ⟨-, rfl⟩ := pure_ok.1 hdone
    exact .prepare hprepare
  | execute dealer block =>
    obtain ⟨_, e₁, hexecute, hpublish⟩ := bind_ok.1 h
    obtain ⟨_, _, hget, hdone⟩ := bind_ok.1 hpublish
    obtain ⟨rfl, rfl⟩ := get_ok.1 hget
    obtain ⟨-, rfl⟩ := pure_ok.1 hdone
    exact .execute hexecute
  | recordBlockHash number hash =>
    obtain ⟨_, e₁, hrecord, hdone⟩ := bind_ok.1 h
    obtain ⟨n, hinsert, rfl⟩ := Engine.onNode_ok hrecord
    obtain rfl := modify_ok.1 hinsert
    obtain ⟨-, rfl⟩ := pure_ok.1 hdone
    exact .aside rfl
  | register address contract => exact routine.elim
  | call => exact hcall rfl
  | poolCall => exact hcall rfl

/-- Only a block publishes. -/
theorem Routine.published {published : List (List CommittedResult)} {results : List CommittedResult}
    (h : event.run e = .ok published e') (hresults : results ∈ published) :
    ∃ dealer block u, Engine.execute dealer block e = .ok u e' ∧ e'.committed = results := by
  have hcall (hcall : event.isCall = true) : published = [] := by
    obtain ⟨d, hrun, -⟩ := event.run_call hcall idle
    cases hrun.symm.trans h
    rfl
  cases event with
  | execute dealer block =>
    obtain ⟨_, e₁, hexecute, hpublish⟩ := bind_ok.1 h
    obtain ⟨_, _, hget, hdone⟩ := bind_ok.1 hpublish
    obtain ⟨rfl, rfl⟩ := get_ok.1 hget
    obtain ⟨rfl, rfl⟩ := pure_ok.1 hdone
    exact ⟨dealer, block, (), hexecute, (List.mem_singleton.1 hresults).symm⟩
  | collect tx =>
    obtain ⟨_, e₁, -, hdone⟩ := bind_ok.1 h
    obtain ⟨rfl, -⟩ := pure_ok.1 hdone
    cases hresults
  | prepare seed minGasPrice maxGasLimit =>
    obtain ⟨_, e₁, -, hdone⟩ := bind_ok.1 h
    obtain ⟨rfl, -⟩ := pure_ok.1 hdone
    cases hresults
  | recordBlockHash number hash =>
    obtain ⟨_, e₁, -, hdone⟩ := bind_ok.1 h
    obtain ⟨rfl, -⟩ := pure_ok.1 hdone
    cases hresults
  | register address contract => exact routine.elim
  | call =>
    rw [hcall rfl] at hresults
    cases hresults
  | poolCall =>
    rw [hcall rfl] at hresults
    cases hresults

theorem Routine.breaks {fault : Fault} (h : event.run e = .error fault e') : e.Breaks fault e' := by
  have hcall (hcall : event.isCall = true) : e.Breaks fault e' := by
    obtain ⟨d, hrun, -⟩ := event.run_call hcall idle
    cases hrun.symm.trans h
  cases event with
  | collect tx => cases h
  | prepare seed minGasPrice maxGasLimit =>
    obtain hprepare | ⟨_, e₁, -, hdone⟩ := bind_stops.1 h
    · exact .prepare hprepare
    · cases hdone
  | execute dealer block =>
    obtain hexecute | ⟨_, e₁, -, hpublish⟩ := bind_stops.1 h
    · exact .execute hexecute
    · cases hpublish
  | recordBlockHash number hash => cases h
  | register address contract => exact routine.elim
  | call => exact hcall rfl
  | poolCall => exact hcall rfl

end Event

namespace Engine

/-- An engine between two steps. What it has collected, or has queued, has the given property. -/
structure Steady (P : Transaction → Prop) (e : Engine) : Prop where
  idle : e.desk.node.view.overlays = []
  standard : e.runner.Standard
  collected : ∀ tx ∈ e.collected, P tx
  waiting : ∀ tx ∈ waiting e.contents, P tx

section

variable {P : Transaction → Prop} {e e' : Engine}

/-- What runs in a block has waited. -/
theorem Steady.ran (steady : e.Steady P) {results : List CommittedResult} {rest : List Transaction}
    (hperm : (results.map (·.tx) ++ rest).Perm (Queue.waiting e.contents)) : ∀ result ∈ results, P result.tx :=
  fun _ hresult => steady.waiting _
    (hperm.mem_iff.1 (List.mem_append_left _ (List.mem_map_of_mem hresult)))

theorem Advance.leaves (h : e.Advance P e') (staking : e.runner.contracts.OnlyStaking) :
    e.Leaves e'.contents := by
  cases h with
  | collect _ => exact .refl e
  | prepare hprepare => exact prepare_leaves hprepare
  | execute hexecute => exact execute_leaves staking hexecute
  | @aside d hview =>
    change e.Leaves d.node.view.contents
    rw [hview]
    exact .refl e

theorem Breaks.leaves {fault : Fault} (h : e.Breaks fault e') (staking : e.runner.contracts.OnlyStaking)
    (idle : e.desk.node.view.overlays = []) : e.Leaves e'.stored := by
  cases h with
  | prepare hprepare => exact prepare_stops_leaves idle hprepare
  | execute hexecute => exact execute_stops_leaves staking idle hexecute

theorem waiting_of_prepare (sized : ∀ tx ∈ e.collected, tx.data.length < UInt64.size)
    {seed : UInt64} {minGasPrice : Word} {maxGasLimit : UInt64} {touched : List Address}
    (h : prepare seed minGasPrice maxGasLimit e = .ok touched e') :
    ∀ tx ∈ Queue.waiting e'.contents, tx ∈ Queue.waiting e.contents ∨ tx ∈ e.collected := by
  obtain ⟨admission, f, range, hselect, happend, -⟩ := prepare_ok h
  obtain ⟨_, happended, -⟩ := append_ok happend
  have hadmitted := (Admission.select_ok hselect).2
  intro tx htx
  obtain hbefore | hnew := mem_waiting_of_appended happended (fun tx htx => sized tx (hadmitted tx htx)) htx
  · refine .inl ((waiting_congr fun key hkey => ?_) ▸ hbefore)
    exact eval_avoids hselect (Admission.select_avoids (fun k hk => Key.not_isQueue_of_isState hk) _ _ _ _) hkey
  · exact .inr (hadmitted tx hnew)

theorem waiting_of_execute (staking : e.runner.contracts.OnlyStaking) {dealer : UInt64 → Dealer}
    {block : Block} {u : Unit} (h : execute dealer block e = .ok u e') :
    ∀ tx ∈ Queue.waiting e'.contents, tx ∈ Queue.waiting e.contents := by
  obtain ⟨execution, n, hexecute, hcredit, -⟩ := execute_ok h
  obtain ⟨gate, queued, -, hruns⟩ := Rounds.execute_reached hexecute
  intro tx htx
  refine hruns.waits_before staking.avoids ((waiting_congr fun key hkey => ?_) ▸ htx)
  rw [creditCoinbase_ok hcredit, Contents.credit_queue _ _ _ hkey]

theorem Advance.steady (h : e.Advance P e') (sized : ∀ tx, P tx → tx.data.length < UInt64.size)
    (steady : e.Steady P) : e'.Steady P := by
  cases h with
  | collect htx =>
    exact { steady with collected := List.forall_mem_append.2 ⟨steady.collected, by simpa using htx⟩ }
  | prepare hprepare =>
    obtain ⟨hidle, hrunner, hcollected⟩ := prepare_keeps steady.idle hprepare
    refine ⟨hidle, hrunner ▸ steady.standard, fun tx htx => steady.collected tx (hcollected tx htx), ?_⟩
    intro tx htx
    obtain hbefore | hnew := waiting_of_prepare (fun tx htx => sized tx (steady.collected tx htx)) hprepare tx htx
    · exact steady.waiting tx hbefore
    · exact steady.collected tx hnew
  | execute hexecute =>
    obtain ⟨hidle, hrunner, hcollected⟩ := execute_keeps steady.idle hexecute
    exact ⟨hidle, hrunner ▸ steady.standard, hcollected ▸ steady.collected, fun tx htx =>
      steady.waiting tx (waiting_of_execute steady.standard.staking hexecute tx htx)⟩
  | @aside d hview =>
    have hcontents : ({ e with desk := d } : Engine).contents = e.contents := congrArg View.contents hview
    exact ⟨(congrArg View.overlays hview).trans steady.idle, steady.standard, steady.collected,
      hcontents ▸ steady.waiting⟩

end

/-- An assertion stops an engine at a transaction that waited, with the state as it is stored then. -/
theorem Breaks.asserts {P : Transaction → Prop} {e e' : Engine} {fault : Fault} (h : e.Breaks fault e')
    (steady : e.Steady P) (hassert : fault.isAssertion = true) :
    ∃ tx account, P tx ∧ accountsIn e'.stored tx.sender = some account ∧
      Runner.Refutes tx ((worldIn e'.stored).use tx account) fault := by
  cases h with
  | prepare hprepare =>
    rw [prepare_plain steady.idle hprepare] at hassert
    cases hassert
  | execute hexecute =>
    obtain ⟨_, _, hstopped⟩ := execute_asserts steady.idle hexecute hassert
    obtain ⟨_, _, _, _, entry, account, reached, hpop, hentry, haccount, hrefutes⟩ :=
      hstopped.asserts steady.standard hassert
    have hwaits := (reached.popped steady.standard.staking hpop).2 entry hentry
    exact ⟨entry.tx, account, steady.waiting _ hwaits, haccount, hrefutes⟩

/-- The engines that a history reaches which collects only transactions with the given property. -/
inductive Reaches (P : Transaction → Prop) (e : Engine) : Engine → Prop
  | start : Reaches P e e
  | step {e' e'' published} {event : Event} : Reaches P e e' → event.Routine P → event.run e' = .ok published e'' →
      Reaches P e e''

/-- What every step keeps holds of every engine that is reached. -/
theorem Reaches.invariant {P : Transaction → Prop} {Invariant : Engine → Prop} {e e' : Engine}
    (h : e.Reaches P e') (sized : ∀ tx, P tx → tx.data.length < UInt64.size) (steady : e.Steady P)
    (start : Invariant e)
    (step : ∀ e e' : Engine, e.Steady P → Invariant e → e.Advance P e' → Invariant e') :
    e'.Steady P ∧ Invariant e' := by
  induction h with
  | start => exact ⟨steady, start⟩
  | step _ routine hrun ih =>
    obtain ⟨hsteady, hinvariant⟩ := ih
    have hadvance := routine.advance hsteady.idle hrun
    exact ⟨hadvance.steady sized hsteady, step _ _ hsteady hinvariant hadvance⟩

/-- A history that does not stop reaches its last engine. -/
theorem Reaches.play {P : Transaction → Prop} {e e' : Engine} (h : e.Reaches P e') {history : List Event}
    (routine : ∀ event ∈ history, event.Routine P) (hruns : (Engine.play history e').stopped = false) :
    e.Reaches P (Engine.play history e').last := by
  induction history generalizing e' with
  | nil => exact h
  | cons event rest ih =>
    obtain ⟨hevent, hrest⟩ := List.forall_mem_cons.1 routine
    unfold Engine.play at hruns ⊢
    cases hrun : event.run e' with
    | ok published e'' =>
      rw [hrun] at hruns
      exact ih (.step h hevent hrun) hrest hruns
    | error fault e'' =>
      rw [hrun] at hruns
      cases hruns

end Engine

end RoundLedger
