import RoundLedger.Proofs.Escrow
import RoundLedger.Proofs.Halts
import RoundLedger.Proofs.Overtaking

/-!
# What a fault strands

A transaction has paid before it is queued, and it is off the queue before it runs. Between the two records
a fault strands it: it has paid, it was not committed, and it does not wait. An admission that stops strands
all that it had charged (`prepare_strands`), a block that stops strands what its last round had taken and not
committed (`Stopped.conserved`).
-/

namespace RoundLedger

open Step Program State Queue

/-! ## Charging -/

namespace Accounts

/-- The fees of the transactions have left the accounts of their senders, and no other value has moved. -/
def Paid (m : Accounts) (charged : List Transaction) (m' : Accounts) : Prop :=
  ∀ address, m'.balance address + escrow (charged.filter (·.sender = address)) = m.balance address

theorem Paid.refl (m : Accounts) : m.Paid [] m := fun _ => rfl

theorem Paid.append {m m' m'' : Accounts} {charged charged' : List Transaction}
    (h : m.Paid charged m') (h' : m'.Paid charged' m'') : m.Paid (charged ++ charged') m'' := by
  intro address
  have hfirst := h address
  have hsecond := h' address
  rw [List.filter_append, escrow_append]
  omega

theorem Paid.perm {m m' : Accounts} {charged charged' : List Transaction} (h : m.Paid charged m')
    (hperm : charged.Perm charged') : m.Paid charged' m' := fun address => by
  rw [← h address, escrow_perm (hperm.filter _)]

end Accounts

namespace Admission

variable {f f' : Contents} {fault : Fault}

theorem admitSender_paid {sender : Address} {candidates : List Transaction} {share : Share}
    (own : ∀ tx ∈ candidates, tx.sender = sender)
    (h : (admitSender sender candidates).eval f = .ok share f') :
    (accountsIn f).Paid share.run (accountsIn f') := by
  obtain ⟨⟨hrun, -⟩, ⟨hnone, rfl⟩ | ⟨account, -, haccount, hsum, rfl⟩⟩ := admitSender_cases h
  · rw [hnone]
    exact .refl _
  · intro address
    rw [accountsIn_put, Accounts.balance_set]
    by_cases hsender : sender = address
    · subst hsender
      have hall : share.run.filter (·.sender = sender) = share.run :=
        List.filter_eq_self.2 fun tx htx => decide_eq_true (own tx (hrun.subset htx))
      rw [if_pos rfl, hall, hsum, Accounts.balance, haccount]
      rfl
    · have hnone : share.run.filter (·.sender = address) = [] :=
        List.filter_eq_nil_iff.2 fun tx htx => by simpa [own tx (hrun.subset htx)] using hsender
      rw [if_neg hsender, hnone, escrow_nil, Nat.add_zero]

/-- An admission of one sender that stops has written nothing. -/
theorem admitSender_stops {sender : Address} {candidates : List Transaction}
    (h : (admitSender sender candidates).eval f = .error fault f') : f' = f := by
  obtain haccount | ⟨found, f₁, hfound, hadmit⟩ := eval_bind_stops.1 h
  · exact account_stops haccount
  obtain ⟨-, rfl⟩ := account_ok hfound
  cases found with
  | none => exact absurd hadmit eval_pure_stops
  | some account =>
    dsimp only at hadmit
    obtain hshare | ⟨share, f₂, hshare, hwrite⟩ := eval_bind_stops.1 hadmit
    · exact (eval_ofExcept_stops.1 hshare).2.symm
    · split at hwrite
      · obtain hset | ⟨_, f₃, -, hdone⟩ := eval_bind_stops.1 hwrite
        · exact absurd hset eval_write_stops
        · exact absurd hdone eval_pure_stops
      · exact absurd hwrite eval_pure_stops

/-- Candidates of several senders with the given property, each under its own sender and nonce. -/
structure Own (P : Transaction → Prop) (candidates : List (Address × Nonces)) : Prop where
  distinct : (candidates.map (·.1)).Nodup
  own : ∀ candidate ∈ candidates, ∀ place ∈ candidate.2.toList,
    P place.2 ∧ place.2.sender = candidate.1 ∧ place.2.nonce = place.1

theorem own_gather (collected : List Transaction) (minGasPrice : Word) (maxGasLimit : UInt64) :
    Own (· ∈ collected) (gather minGasPrice maxGasLimit collected ∅).1.toList where
  distinct := by
    rw [List.Nodup, List.pairwise_map]
    exact Std.ExtTreeMap.distinct_keys_toList.imp fun h heq => h (Std.LawfulEqCmp.compare_eq_iff_eq.2 heq)
  own candidate hmem place hplace :=
    gather_collected collected minGasPrice maxGasLimit candidate.1 candidate.2
      (Std.ExtTreeMap.mem_toList_iff_getElem?_eq_some.1 hmem) place.1 place.2
      (Std.ExtTreeMap.mem_toList_iff_getElem?_eq_some.1 hplace)

section

variable {P : Transaction → Prop} {sender : Address} {nonces : Nonces}
  {rest : List (Address × Nonces)}

theorem Own.tail (h : Own P ((sender, nonces) :: rest)) : Own P rest where
  distinct := (List.nodup_cons.1 h.distinct).2
  own candidate hcandidate := h.own candidate (List.mem_cons_of_mem _ hcandidate)

theorem Own.append_left {candidates : List (Address × Nonces)} (h : Own P (candidates ++ rest)) :
    Own P candidates where
  distinct := h.distinct.sublist ((List.sublist_append_left _ _).map _)
  own candidate hcandidate := h.own candidate (List.mem_append_left _ hcandidate)

theorem Own.head (h : Own P ((sender, nonces) :: rest)) {tx : Transaction}
    (htx : tx ∈ nonces.toList.map (·.2)) : P tx ∧ tx.sender = sender := by
  obtain ⟨place, hplace, rfl⟩ := List.mem_map.1 htx
  have hown := h.own _ List.mem_cons_self place hplace
  exact ⟨hown.1, hown.2.1⟩

theorem Own.nodup (h : Own P ((sender, nonces) :: rest)) : (nonces.toList.map (·.2)).Nodup := by
  have hdistinct : nonces.toList.Pairwise fun a b => ¬ compare a.1 b.1 = .eq :=
    Std.ExtTreeMap.distinct_keys_toList
  rw [List.Nodup, List.pairwise_map]
  refine hdistinct.imp_of_mem fun {a b} ha hb hne heq => hne ?_
  have hownA := h.own _ List.mem_cons_self a ha
  have hownB := h.own _ List.mem_cons_self b hb
  rw [Std.LawfulEqCmp.compare_eq_iff_eq, ← hownA.2.2, ← hownB.2.2, heq]

end

/-- What the senders are charged is the fees of what is admitted. Each transaction is admitted once. -/
theorem admitSenders_paid {P : Transaction → Prop} {candidates : List (Address × Nonces)}
    {shares : List (Address × Share)} (own : Own P candidates)
    (h : (admitSenders candidates).eval f = .ok shares f') :
    (accountsIn f).Paid (shares.map (·.2.run)).flatten (accountsIn f') ∧
      (shares.map (·.2.run)).flatten.Nodup ∧
      ∀ tx ∈ (shares.map (·.2.run)).flatten, P tx ∧ tx.sender ∈ candidates.map (·.1) := by
  induction candidates generalizing f shares with
  | nil =>
    obtain ⟨rfl, rfl⟩ := eval_pure_ok.1 h
    exact ⟨.refl _, List.nodup_nil, by simp⟩
  | cons candidate rest ih =>
    obtain ⟨sender, nonces⟩ := candidate
    rw [admitSenders] at h
    obtain ⟨share, f₁, hshare, hothers⟩ := eval_bind_ok.1 h
    obtain ⟨shares', f₂, hshares, hdone⟩ := eval_bind_ok.1 hothers
    obtain ⟨rfl, rfl⟩ := eval_pure_ok.1 hdone
    obtain ⟨hpaid, hnodup, hrest⟩ := ih own.tail hshares
    have hrun : share.run.Sublist (nonces.toList.map (·.2)) := (admitSender_cases hshare).1.1
    have hfirst (tx) (htx : tx ∈ share.run) : P tx ∧ tx.sender = sender := own.head (hrun.subset htx)
    have hnew : sender ∉ rest.map (·.1) := (List.nodup_cons.1 own.distinct).1
    simp only [List.map_cons, List.flatten_cons, List.forall_mem_append, List.mem_cons]
    refine ⟨(admitSender_paid (fun tx htx => (own.head htx).2) hshare).append hpaid, ?_, ?_, ?_⟩
    · refine List.nodup_append.2 ⟨own.nodup.sublist hrun, hnodup, ?_⟩
      rintro tx htx _ htx' rfl
      rw [← (hfirst tx htx).2] at hnew
      exact hnew (hrest tx htx').2
    · exact fun tx htx => ⟨(hfirst tx htx).1, .inl (hfirst tx htx).2⟩
    · exact fun tx htx => ⟨(hrest tx htx).1, .inr (hrest tx htx).2⟩

/-- An admission that stops has charged the senders in front of the one it stopped at. -/
theorem admitSenders_stops {candidates : List (Address × Nonces)}
    (h : (admitSenders candidates).eval f = .error fault f') :
    ∃ done rest shares, candidates = done ++ rest ∧ (admitSenders done).eval f = .ok shares f' := by
  induction candidates generalizing f with
  | nil => exact absurd h eval_pure_stops
  | cons candidate rest ih =>
    obtain ⟨sender, nonces⟩ := candidate
    rw [admitSenders] at h
    obtain hshare | ⟨share, f₁, hshare, hothers⟩ := eval_bind_stops.1 h
    · rw [admitSender_stops hshare]
      exact ⟨[], _, [], rfl, rfl⟩
    obtain hshares | ⟨shares, f₂, -, hdone⟩ := eval_bind_stops.1 hothers
    · obtain ⟨done, rest', shares, rfl, hdone⟩ := ih hshares
      refine ⟨(sender, nonces) :: done, rest', (sender, share) :: shares, rfl, ?_⟩
      rw [admitSenders]
      exact eval_bind_ok.2 ⟨share, f₁, hshare, eval_bind_ok.2 ⟨shares, f', hdone, rfl⟩⟩
    · exact absurd hdone eval_pure_stops

variable {collected : List Transaction} {minGasPrice : Word} {maxGasLimit : UInt64}

/-- What the senders are charged is the fees of what is admitted, and no more is admitted than was
collected. -/
theorem select_paid {admission : Admission}
    (h : (select collected minGasPrice maxGasLimit).eval f = .ok admission f') :
    (accountsIn f).Paid admission.admitted (accountsIn f') ∧ admission.admitted.Subperm collected := by
  obtain ⟨shares, f₁, hshares, hdone⟩ := eval_bind_ok.1 h
  obtain ⟨rfl, rfl⟩ := eval_pure_ok.1 hdone
  obtain ⟨hpaid, hnodup, hmem⟩ := admitSenders_paid (own_gather collected _ _) hshares
  have hperm := interleave_perm (shares.map (·.2.run))
  refine ⟨hpaid.perm hperm.symm, hperm.subperm_right.2 ?_⟩
  exact List.subperm_of_subset hnodup fun tx htx => (hmem tx htx).1

theorem select_stops (h : (select collected minGasPrice maxGasLimit).eval f = .error fault f') :
    ∃ charged, charged.Subperm collected ∧ (accountsIn f).Paid charged (accountsIn f') ∧
      ∀ key, Key.IsQueue key → f' key = f key := by
  obtain hshares | ⟨shares, f₁, -, hdone⟩ := eval_bind_stops.1 h
  · obtain ⟨done, rest, shares, hsplit, hdone⟩ := admitSenders_stops hshares
    have hown := own_gather collected minGasPrice maxGasLimit
    rw [hsplit] at hown
    obtain ⟨hpaid, hnodup, hmem⟩ := admitSenders_paid hown.append_left hdone
    refine ⟨_, List.subperm_of_subset hnodup fun tx htx => (hmem tx htx).1, hpaid, fun key hkey => ?_⟩
    exact eval_avoids hdone (admitSenders_avoids (fun k hk => Key.not_isQueue_of_isState hk) done f) hkey
  · exact absurd hdone eval_pure_stops

end Admission

/-! ## Taking off the queue -/

namespace Queue

theorem lt_of_size_stops {r : QueueRange} {fault : Fault} (h : r.size = .error fault) :
    r.stop.toNat < r.start.toNat := by
  unfold QueueRange.size at h
  split at h
  · cases h
  next hordered =>
    rw [UInt64.le_iff_toNat_le] at hordered
    omega

theorem waiting_of_inverted {f : Contents} {r : QueueRange} (hrange : rangeIn f = .ok r)
    (h : r.stop.toNat < r.start.toNat) : waiting f = [] := by
  have hnone : r.stop.toNat - r.start.toNat = 0 := by omega
  rw [waiting_of_range hrange, live, hnone]
  rfl

end Queue

namespace Rounds

variable {r : Runner} {hashes : BlockHashes} {block : Block} {batch : UInt64} {fault : Fault}
  (avoids : r.contracts.Avoids Key.IsQueue)

include avoids

/-- What a round takes off and neither commits nor puts back is gone from the queue, and nothing else is. -/
theorem Broken.conserved {gate : NonceGate} {h g : Contents} {committed taken : List Transaction}
    (broken : Broken r hashes block batch gate h fault committed taken g) :
    (committed ++ waiting g ++ taken).Perm (waiting h) ∧ stopIn g = stopIn h ∧
      taken.length ≤ batch.toNat := by
  have hstop {entries h₁} (hpop : (popFront batch).eval h = .ok entries h₁) :
      stopIn h₁ = stopIn h ∧ waiting h = entries.map (·.tx) ++ waiting h₁ ∧
        entries.length ≤ batch.toNat := by
    obtain ⟨range, hpopped, hlength⟩ := popFront_ok hpop
    rw [stopIn_of_range hpopped.range, stopIn_of_range hpopped.next]
    exact ⟨rfl, hpopped.waiting_eq, by omega⟩
  cases broken with
  | taking hpop =>
    rw [popFront_stops hpop]
    simp
  | @running h₁ entries entry o hpop _ _ _ =>
    obtain ⟨hsame, hfront, hlength⟩ := hstop hpop
    rw [hfront, List.length_map]
    exact ⟨List.perm_append_comm, hsame, hlength⟩
  | @hook h₁ h₂ g done entry rest p result c o contract hpop hsettled hmay htrial _ hcontract hhook =>
    obtain ⟨hsame, hfront, hlength⟩ := hstop hpop
    have heach := hsettled.perm
    have htx : result.tx = entry.tx := Runner.trial_tx htrial
    have hqueue (key) (hkey : Key.IsQueue key) : g key = h₁ key := by
      have hnone := Runner.trial_avoids (fun k hk => Key.not_isQueue_of_isState hk) avoids htrial hkey
      rw [eval_avoids_stops hhook ((avoids.at? hcontract).committed result _) hkey,
        Overlay.atop_of_notMem hnone.2, hsettled.queue_eq avoids hkey]
    rw [stopIn_congr hqueue, waiting_congr hqueue, hfront, htx]
    refine ⟨?_, hsame, ?_⟩
    · rw [List.perm_iff_count]
      rw [List.perm_iff_count] at heach
      intro tx
      have heach := heach tx
      simp only [List.map_append, List.map_cons, List.count_append, List.count_cons,
        List.count_nil] at heach ⊢
      omega
    · have hcount := heach.length_eq
      simp only [List.length_append, List.length_map, List.length_cons] at hcount hlength ⊢
      omega
  | @returning h₁ h₂ g entries p hpop hsettled happend =>
    obtain ⟨hsame, hfront, hlength⟩ := hstop hpop
    have heach := hsettled.perm
    have hcount := heach.length_eq
    have hroom := length_of_popFront hpop
    have hentry : entryRoom = 176 := rfl
    rw [hentry] at hroom
    have hqueue := fun key (hkey : Key.IsQueue key) => hsettled.queue_eq avoids hkey
    simp only [List.length_append, List.length_map] at hcount
    rw [waiting_of_append_stops happend (by omega), stopIn, rangeIn_of_append_stops happend (by omega),
      ← stopIn, waiting_congr hqueue, stopIn_congr hqueue, hfront]
    refine ⟨?_, hsame, by omega⟩
    rw [List.append_assoc]
    refine (List.Perm.append_left _ List.perm_append_comm).trans ?_
    rw [← List.append_assoc]
    exact heach.append_right _

/-- A block that stops loses from the queue what its last round had taken and not committed, and the
transaction at the reserved position. -/
theorem Stopped.conserved {f g : Contents} {committed taken : List Transaction}
    (stopped : Stopped r hashes block batch f fault committed taken g) :
    ∃ lost : List Transaction, lost.length ≤ 1 ∧ (lost ≠ [] ↔ PassesIn f g) ∧
      (committed ++ waiting g ++ taken ++ lost).Perm (waiting f) ∧ taken.length ≤ batch.toNat := by
  cases stopped with
  | loading _ => exact ⟨[], by simp, by simp [PassesIn.irrefl], by simp, by simp⟩
  | round _ hruns hbroken =>
    obtain ⟨lost, hone, hlost, hperm⟩ := hruns.exists_lost avoids
    obtain ⟨hround, hstop, hlength⟩ := hbroken.conserved avoids
    refine ⟨lost, hone, by rw [hlost, PassesIn, PassesIn, hstop], ?_, hlength⟩
    rw [List.perm_iff_count] at hperm hround ⊢
    intro tx
    have hperm := hperm tx
    have hround := hround tx
    simp only [List.count_append] at hperm hround ⊢
    omega

end Rounds

namespace Engine

variable {e e' : Engine} {fault : Fault}

/-- A block of an engine that stopped, within its rounds or behind them: what it had committed, what it had
taken off the queue and neither committed nor put back, and the contents that it left. -/
inductive Halted (e : Engine) (block : Block) (fault : Fault) :
    List Transaction → List Transaction → Contents → Prop
  | within {committed taken g} :
      Rounds.Stopped e.runner e.desk.node.hashes block e.pool.batch e.contents fault committed taken g →
      Halted e block fault committed taken g
  | behind {queued execution gate h g} : queued.map (·.tx) = waiting e.contents →
      Rounds.Runs e.runner e.desk.node.hashes block e.pool.batch (.ofEntries queued) e.contents execution
        gate h →
      (∀ key, Key.IsQueue key → g key = h key) →
      Halted e block fault (execution.results.map (·.tx)) [] g

theorem creditCoinbase_stops {coinbase : Address} {fees : Word} {f f' : Contents}
    (h : (creditCoinbase coinbase fees).eval f = .error fault f') : f' = f := by
  unfold creditCoinbase at h
  split at h
  · cases h
  · obtain hfound | ⟨found, f₁, -, hset⟩ := eval_bind_stops.1 h
    · exact account_stops hfound
    · exact absurd hset eval_write_stops

theorem execute_halted {dealer : UInt64 → Dealer} {block : Block} (idle : e.desk.node.view.overlays = [])
    (h : execute dealer block e = .error fault e') :
    ∃ committed taken, Halted e block fault committed taken e'.stored := by
  cases execute_stops idle h with
  | rounds hstopped => exact ⟨_, _, .within hstopped⟩
  | @crediting execution n _ hexecute hcredit =>
    obtain ⟨range, entries, gate, hrange, hpositions, hfound, hruns, -⟩ := Rounds.execute_runs hexecute
    refine ⟨_, [], .behind (waiting_of_found hrange hpositions hfound).symm hruns fun key _ => ?_⟩
    rw [creditCoinbase_stops hcredit]
  | @sizing execution n _ hexecute hcredit _ =>
    obtain ⟨range, entries, gate, hrange, hpositions, hfound, hruns, -⟩ := Rounds.execute_runs hexecute
    refine ⟨_, [], .behind (waiting_of_found hrange hpositions hfound).symm hruns fun key hkey => ?_⟩
    rw [creditCoinbase_ok hcredit, Contents.credit_queue _ _ _ hkey]

theorem Halted.conserved (avoids : e.runner.contracts.Avoids Key.IsQueue) {block : Block}
    {committed taken : List Transaction} {g : Contents} (h : e.Halted block fault committed taken g) :
    ∃ lost : List Transaction, lost.length ≤ 1 ∧ (lost ≠ [] ↔ PassesIn e.contents g) ∧
      (committed ++ waiting g ++ taken ++ lost).Perm (waiting e.contents) ∧
      taken.length ≤ e.pool.batch.toNat := by
  cases h with
  | within hstopped => exact hstopped.conserved avoids
  | behind _ hruns hqueue =>
    obtain ⟨lost, hone, hlost, hperm⟩ := hruns.exists_lost avoids
    refine ⟨lost, hone, ?_, by rwa [waiting_congr hqueue, List.append_nil], by simp⟩
    rw [hlost, PassesIn, PassesIn, stopIn_congr hqueue]

/-- An admission that stops has queued nothing, whatever it has charged by then. -/
theorem prepare_strands {seed : UInt64} {minGasPrice : Word} {maxGasLimit : UInt64}
    (idle : e.desk.node.view.overlays = [])
    (room : collectedRoom * e.collected.length ≤ Room.most)
    (h : prepare seed minGasPrice maxGasLimit e = .error fault e') :
    ∃ charged, charged.Subperm e.collected ∧
      (accountsIn e.contents).Paid charged (accountsIn e'.stored) ∧
      waiting e'.stored = waiting e.contents := by
  have hroom : collectedRoom = 168 := rfl
  have hqueue {admission f}
      (hselect : (Admission.select e.collected minGasPrice maxGasLimit).eval e.contents
        = .ok admission f) (key) (hkey : Key.IsQueue key) : f key = e.contents key :=
    eval_avoids hselect (Admission.select_avoids (fun k hk => Key.not_isQueue_of_isState hk) _ _ _ _) hkey
  cases prepare_stops idle h with
  | charging hselect =>
    obtain ⟨charged, hsub, hpaid, hsame⟩ := Admission.select_stops hselect
    exact ⟨charged, hsub, hpaid, waiting_congr hsame⟩
  | @queueing admission f _ hselect happend =>
    obtain ⟨hpaid, hsub⟩ := Admission.select_paid hselect
    have hlength := hsub.length_le
    rw [hroom] at room
    refine ⟨admission.admitted, hsub, ?_, ?_⟩
    · rwa [(sameState_of_append_stops happend).accountsIn_eq]
    · rw [waiting_of_append_stops happend (by omega), waiting_congr (hqueue hselect)]
  | @sizing admission f range _ hselect happend hsize =>
    obtain ⟨hpaid, hsub⟩ := Admission.select_paid hselect
    obtain ⟨before, happended, rfl⟩ := append_ok happend
    refine ⟨admission.admitted, hsub, ?_, ?_⟩
    · rwa [happended.sameState.accountsIn_eq]
    · -- A queue that ends before it starts even now did so before, and nothing waits in it.
      have hlt := lt_of_size_stops hsize
      dsimp only at hlt
      rw [happended.stop_toNat] at hlt
      have hrange := happended.range
      rw [rangeIn_congr (hqueue hselect)] at hrange
      rw [waiting_of_inverted happended.next (by rw [happended.stop_toNat]; exact hlt),
        waiting_of_inverted hrange (by omega)]

/-- Transactions that have paid survive a fault just when it strands none. An admission that stops strands
all that it had charged. A block that stops strands what its last round had taken off and not committed, next
to the transaction that the queue loses when its end passes over the reserved position. -/
theorem fault_strands_prepaid (idle : e.desk.node.view.overlays = [])
    (avoids : e.runner.contracts.Avoids Key.IsQueue)
    (room : collectedRoom * e.collected.length ≤ Room.most) :
    (∀ seed minGasPrice maxGasLimit fault e',
      prepare seed minGasPrice maxGasLimit e = .error fault e' →
      ∃ charged, charged.Subperm e.collected ∧
        (accountsIn e.contents).Paid charged (accountsIn e'.stored) ∧
        waiting e'.stored = waiting e.contents ∧
        ((waiting e.contents ++ charged).Perm (waiting e'.stored) ↔ charged = [])) ∧
    (∀ dealer block fault e', execute dealer block e = .error fault e' →
      ∃ committed taken lost, e.Halted block fault committed taken e'.stored ∧
        taken.length ≤ e.pool.batch.toNat ∧ lost.length ≤ 1 ∧
        (lost ≠ [] ↔ PassesIn e.contents e'.stored) ∧
        (committed ++ waiting e'.stored ++ taken ++ lost).Perm (waiting e.contents) ∧
        ((waiting e.contents).Perm (committed ++ waiting e'.stored) ↔ taken = [] ∧ lost = [])) := by
  constructor
  · intro seed minGasPrice maxGasLimit fault e' h
    obtain ⟨charged, hsub, hpaid, hsame⟩ := prepare_strands idle room h
    refine ⟨charged, hsub, hpaid, hsame, ?_⟩
    rw [hsame]
    constructor
    · intro hperm
      have hlength := hperm.length_eq
      rw [List.length_append] at hlength
      exact List.length_eq_zero_iff.1 (by omega)
    · rintro rfl
      rw [List.append_nil]
  · intro dealer block fault e' h
    obtain ⟨committed, taken, hhalted⟩ := execute_halted idle h
    obtain ⟨lost, hone, hlost, hperm, hbatch⟩ := hhalted.conserved avoids
    refine ⟨committed, taken, lost, hhalted, hbatch, hone, hlost, hperm, ?_⟩
    constructor
    · intro hall
      have hlength := (hperm.trans hall).length_eq
      simp only [List.length_append] at hlength
      exact ⟨List.length_eq_zero_iff.1 (by omega), List.length_eq_zero_iff.1 (by omega)⟩
    · rintro ⟨rfl, rfl⟩
      simpa using hperm.symm

/-! ## A corrupt account -/

def fromTwo : List Transaction := [Rounds.transfer 0, { Rounds.transfer 0 with sender := 2 }]

/-- A transaction of each of two accounts is queued, and the same are collected. The record of the second
account is corrupt. -/
def withCorruption : Engine :=
  { runner := Rounds.stakingRunner
    desk :=
      { node :=
          { view :=
              { base := (∅ : Store)
                  |>.insert (Key.account 1).bytes (Account.encode { balance := 1000000 })
                  |>.insert (Key.account 2).bytes [0]
                  |>.insert Key.queue.bytes (QueueRange.encode ⟨0, 2⟩)
                  |>.insert (Key.entry 0).bytes (Entry.encode (Rounds.transfer 0))
                  |>.insert (Key.entry 1).bytes (Entry.encode { Rounds.transfer 0 with sender := 2 }) } } }
    collected := fromTwo }

theorem withCorruption_contents : waiting withCorruption.contents = fromTwo ∧
    stopIn withCorruption.contents = some 2 ∧
    accountsIn withCorruption.contents 1 = some { balance := 1000000 } := by
  decide +kernel

theorem prepare_withCorruption :
    ∃ e', prepare 0 0 100000 withCorruption = .error .accountLength e' ∧
      accountsIn e'.stored 1 = some { balance := 900000 } ∧ waiting e'.stored = fromTwo := by
  have hstops : stopsWith (prepare 0 0 100000 withCorruption) (fun fault e' =>
      fault == .accountLength && accountsIn e'.stored 1 == some { balance := 900000 } &&
        waiting e'.stored == fromTwo) = true := by
    decide +kernel
  obtain ⟨fault, e', h, htest⟩ := stopsWith_iff.1 hstops
  simp only [Bool.and_eq_true, beq_iff_eq] at htest
  obtain ⟨⟨rfl, haccount⟩, hwaiting⟩ := htest
  exact ⟨e', h, haccount, hwaiting⟩

theorem execute_withCorruption :
    ∃ e', execute (fun _ => .inOrder) {} withCorruption = .error .accountLength e' ∧
      accountsIn e'.stored 1 = some { balance := 1000000 } ∧ waiting e'.stored = [] ∧
      stopIn e'.stored = some 2 := by
  have hstops : stopsWith (execute (fun _ => .inOrder) {} withCorruption) (fun fault e' =>
      fault == .accountLength && accountsIn e'.stored 1 == some { balance := 1000000 } &&
        waiting e'.stored == [] && stopIn e'.stored == some 2) = true := by
    decide +kernel
  obtain ⟨fault, e', h, htest⟩ := stopsWith_iff.1 hstops
  simp only [Bool.and_eq_true, beq_iff_eq] at htest
  obtain ⟨⟨⟨rfl, haccount⟩, hwaiting⟩, hstop⟩ := htest
  exact ⟨e', h, haccount, hwaiting, hstop⟩

theorem withCorruption_strands :
    (∃ e' charged, prepare 0 0 100000 withCorruption = .error .accountLength e' ∧
      (accountsIn withCorruption.contents).Paid charged (accountsIn e'.stored) ∧
      charged ≠ [] ∧ ¬ (waiting withCorruption.contents ++ charged).Perm (waiting e'.stored)) ∧
    (∃ e' committed taken, execute (fun _ => .inOrder) {} withCorruption = .error .accountLength e' ∧
      withCorruption.Halted {} .accountLength committed taken e'.stored ∧
      (committed ++ taken).Perm fromTwo) := by
  have staking : Rounds.stakingRunner.contracts.OnlyStaking := ContractTable.onlyStaking_insert
  obtain ⟨hqueued, hbefore, haccount⟩ := withCorruption_contents
  constructor
  · obtain ⟨e', h, hcharged, -⟩ := prepare_withCorruption
    obtain ⟨charged, -, hpaid, -, hsurvive⟩ :=
      (fault_strands_prepaid (e := withCorruption) rfl staking.avoids (by decide)).1 _ _ _ _ _ h
    have hsome : charged ≠ [] := by
      rintro rfl
      have hsame := hpaid 1
      rw [Accounts.balance, Accounts.balance, hcharged, haccount] at hsame
      exact absurd hsame (by decide)
    exact ⟨e', charged, h, hpaid, hsome, mt hsurvive.1 hsome⟩
  · obtain ⟨e', h, -, hwaiting, hafter⟩ := execute_withCorruption
    obtain ⟨committed, taken, lost, hhalted, -, -, hlost, hperm, -⟩ :=
      (fault_strands_prepaid (e := withCorruption) rfl staking.avoids (by decide)).2 _ _ _ _ h
    have hnone : lost = [] := by
      by_contra hsome
      obtain ⟨_, _, hstop, hstop', -, hlt⟩ := hlost.1 hsome
      rw [hbefore] at hstop
      rw [hafter] at hstop'
      cases hstop
      cases hstop'
      exact absurd hlt (by decide)
    rw [hnone, hwaiting, hqueued, List.append_nil, List.append_nil] at hperm
    exact ⟨e', committed, taken, h, hhalted, hperm⟩

/-- Where an admission stops at the corrupt account, the other account has paid for a transaction that is not
queued. Where a block stops at it, the transaction of the other account is not queued any more, and it was
not run either. -/
theorem withCorruption_lost :
    (∃ e', prepare 0 0 100000 withCorruption = .error .accountLength e' ∧
      (accountsIn e'.stored).balance 1 < (accountsIn withCorruption.contents).balance 1 ∧
      waiting e'.stored = waiting withCorruption.contents) ∧
    (∃ e', execute (fun _ => .inOrder) {} withCorruption = .error .accountLength e' ∧
      Rounds.transfer 0 ∈ waiting withCorruption.contents ∧ waiting e'.stored = [] ∧
      accountsIn e'.stored 1 = accountsIn withCorruption.contents 1) := by
  obtain ⟨hqueued, -, haccount⟩ := withCorruption_contents
  obtain ⟨e₁, hprepare, hcharged, hwaiting₁⟩ := prepare_withCorruption
  obtain ⟨e₂, hexecute, hkept, hwaiting₂, -⟩ := execute_withCorruption
  refine ⟨⟨e₁, hprepare, ?_, by rw [hwaiting₁, hqueued]⟩, e₂, hexecute, ?_, hwaiting₂, ?_⟩
  · rw [Accounts.balance, Accounts.balance, hcharged, haccount]
    decide
  · rw [hqueued]
    exact List.mem_cons_self
  · rw [hkept, haccount]

end Engine

end RoundLedger
