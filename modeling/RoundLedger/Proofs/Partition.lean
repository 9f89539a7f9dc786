import RoundLedger.Proofs.Admission

/-!
# Admission loses nothing

What is collected is admitted, deferred or discarded, each transaction once.
-/

namespace RoundLedger

open Step Program State

/-! ## Tables as lists -/

section

variable {α β : Type} [Ord α] [Std.TransOrd α] [Std.LawfulEqOrd α]

theorem nodup_toList (t : Std.ExtTreeMap α β compare) : t.toList.Nodup :=
  Std.ExtTreeMap.distinct_keys_toList.imp fun {a b} hne heq => hne (by rw [heq]; exact Std.ReflCmp.compare_self)

/-- What is held under a key, and the rest. -/
theorem toList_perm (t : Std.ExtTreeMap α β compare) (k : α) :
    t.toList.Perm ((t[k]?.map (k, ·)).toList ++ (t.erase k).toList) := by
  have hdistinct : ((t[k]?.map (k, ·)).toList ++ (t.erase k).toList).Nodup := by
    refine List.nodup_append.2 ⟨by cases t[k]? <;> simp, nodup_toList _, ?_⟩
    rintro ⟨k', v'⟩ hfirst ⟨k'', v''⟩ hrest ⟨⟩
    simp only [Option.mem_toList, Option.map_eq_some_iff, Prod.mk.injEq] at hfirst
    obtain ⟨v, -, rfl, -⟩ := hfirst
    simp [Std.ExtTreeMap.mem_toList_iff_getElem?_eq_some] at hrest
  rw [List.perm_ext_iff_of_nodup (nodup_toList t) hdistinct]
  rintro ⟨k', v'⟩
  simp only [List.mem_append, Option.mem_toList, Option.map_eq_some_iff, Prod.mk.injEq,
    Std.ExtTreeMap.mem_toList_iff_getElem?_eq_some, Std.ExtTreeMap.getElem?_erase,
    Std.LawfulEqCmp.compare_eq_iff_eq]
  by_cases hkey : k = k'
  · subst hkey
    simp
  · simp [hkey]

theorem toList_insert_perm (t : Std.ExtTreeMap α β compare) (k : α) (v : β) :
    (t.insert k v).toList.Perm ((k, v) :: (t.erase k).toList) := by
  have hrest : (t.insert k v).erase k = t.erase k := by
    refine Std.ExtTreeMap.ext_getElem? fun k' => ?_
    simp only [Std.ExtTreeMap.getElem?_erase, Std.ExtTreeMap.getElem?_insert]
    split <;> rfl
  have hperm := toList_perm (t.insert k v) k
  rwa [Std.ExtTreeMap.getElem?_insert_self, hrest] at hperm

end

namespace Admission

/-! ## Candidates -/

def Nonces.txs (nonces : Nonces) : List Transaction := nonces.toList.map (·.2)

def Candidates.txs (candidates : Candidates) : List Transaction := candidates.toList.flatMap (·.2.txs)

theorem Candidates.txs_insert (candidates : Candidates) (sender : Address) (nonces : Nonces) :
    (Candidates.txs (candidates.insert sender nonces)).Perm
      (nonces.txs ++ Candidates.txs (candidates.erase sender)) :=
  (toList_insert_perm candidates sender nonces).flatMap_right _

theorem Candidates.txs_perm (candidates : Candidates) (sender : Address) :
    candidates.txs.Perm ((candidates.getD sender ∅).txs ++ Candidates.txs (candidates.erase sender)) := by
  have hperm := (toList_perm candidates sender).flatMap_right (·.2.txs)
  rw [Std.ExtTreeMap.getD_eq_getD_getElem?]
  cases hsome : candidates[sender]? with
  | none =>
    rw [hsome] at hperm
    exact hperm
  | some nonces =>
    rw [hsome] at hperm
    exact hperm

theorem Nonces.txs_insert (nonces : Nonces) (nonce : UInt64) (tx : Transaction) :
    (Nonces.txs (nonces.insert nonce tx)).Perm (tx :: Nonces.txs (nonces.erase nonce)) :=
  (toList_insert_perm nonces nonce tx).map _

theorem Nonces.txs_perm (nonces : Nonces) (nonce : UInt64) :
    nonces.txs.Perm (nonces[nonce]?.toList ++ Nonces.txs (nonces.erase nonce)) := by
  have hperm := (toList_perm nonces nonce).map (·.2)
  cases hsome : nonces[nonce]? with
  | none =>
    rw [hsome] at hperm
    exact hperm
  | some held =>
    rw [hsome] at hperm
    exact hperm

/-- A transaction takes the place of the one that was held there. -/
theorem Candidates.txs_replace (candidates : Candidates) (sender : Address) (nonce : UInt64) (tx : Transaction) :
    (Candidates.txs (candidates.insert sender ((candidates.getD sender ∅).insert nonce tx))
      ++ (candidates.getD sender ∅)[nonce]?.toList).Perm (tx :: candidates.txs) := by
  have hbefore := candidates.txs_perm sender
  have hnonces := Nonces.txs_perm (candidates.getD sender ∅) nonce
  have hafter := candidates.txs_insert sender ((candidates.getD sender ∅).insert nonce tx)
  have hnew := Nonces.txs_insert (candidates.getD sender ∅) nonce tx
  rw [List.perm_iff_count] at *
  intro other
  specialize hbefore other
  specialize hnonces other
  specialize hafter other
  specialize hnew other
  simp only [List.count_append, List.count_cons] at *
  omega

theorem choose_perm (held tx : Transaction) : [(choose held tx).1, (choose held tx).2].Perm [held, tx] := by
  unfold choose
  split
  · exact List.Perm.swap _ _ _
  · exact .refl _

theorem enter_perm (candidates : Candidates) (tx : Transaction) :
    ((enter candidates tx).1.txs ++ (enter candidates tx).2.map (·.tx)).Perm (tx :: candidates.txs) := by
  unfold enter
  dsimp only
  split
  next hnone =>
    have hreplaced := candidates.txs_replace tx.sender tx.nonce tx
    rwa [hnone] at hreplaced
  next held hheld =>
    have hreplaced := candidates.txs_replace tx.sender tx.nonce (choose held tx).1
    have hchosen := choose_perm held tx
    rw [hheld] at hreplaced
    rw [List.perm_iff_count] at *
    intro other
    specialize hreplaced other
    specialize hchosen other
    simp only [List.count_append, List.count_cons, List.count_nil, Option.toList_some, List.map_cons,
      List.map_nil] at *
    omega

theorem gather_perm (minGasPrice : Word) (maxGasLimit : UInt64) (collected : List Transaction)
    (candidates : Candidates) :
    ((gather minGasPrice maxGasLimit collected candidates).1.txs
      ++ (gather minGasPrice maxGasLimit collected candidates).2.map (·.tx)).Perm
        (collected ++ candidates.txs) := by
  induction collected generalizing candidates with
  | nil => simp [gather]
  | cons tx rest ih =>
    -- what becomes of the first transaction is in front of what becomes of the others
    have hstep (next : Candidates) (now : List Discard)
        (hnext : (next.txs ++ now.map (·.tx)).Perm (tx :: candidates.txs)) :
        ((gather minGasPrice maxGasLimit rest next).1.txs
          ++ (now ++ (gather minGasPrice maxGasLimit rest next).2).map (·.tx)).Perm
            (tx :: rest ++ candidates.txs) := by
      have hrest := ih next
      rw [List.perm_iff_count] at *
      intro other
      specialize hnext other
      specialize hrest other
      simp only [List.count_append, List.count_cons, List.map_append] at *
      omega
    unfold gather
    dsimp only
    split
    · exact hstep candidates _ List.perm_append_comm
    · split
      · exact hstep candidates _ List.perm_append_comm
      · exact hstep _ _ (enter_perm candidates tx)

/-! ## Shares -/

/-- What has been taken, by what became of it. -/
def Share.txs (s : Share) : List Transaction := s.run ++ s.deferred ++ s.discarded.map (·.tx)

theorem Share.discard_perm (s : Share) (reason : DiscardReason) (tx : Transaction) :
    (s.discard reason tx).txs.Perm (tx :: s.txs) := by
  simp only [txs, discard, List.map_append, List.map_singleton]
  rw [← List.append_assoc]
  exact List.perm_append_comm

theorem Share.defer_perm (s : Share) (tx : Transaction) : (s.defer tx).txs.Perm (tx :: s.txs) := by
  rw [List.perm_iff_count]
  intro other
  simp only [txs, defer, List.count_append, List.count_cons, List.count_nil]
  omega

theorem Share.charge_perm {s s' : Share} {tx : Transaction} (h : s.charge tx = .ok s') :
    s'.txs.Perm (tx :: s.txs) := by
  unfold charge at h
  split at h
  · cases h
    exact s.discard_perm _ tx
  · split at h
    · cases h
      exact s.discard_perm _ tx
    · split at h
      · cases h
      · cases h
        simp only [txs, List.append_assoc]
        exact List.perm_middle

theorem Share.take_perm {s s' : Share} {tx : Transaction} (h : s.take tx = .ok s') :
    s'.txs.Perm (tx :: s.txs) := by
  unfold take at h
  split at h
  · cases h
    exact s.discard_perm _ tx
  · split at h
    · cases h
      exact s.discard_perm _ tx
    · cases h
      exact s.defer_perm tx
    · split at h
      · cases h
        exact s.defer_perm tx
      · exact charge_perm h

theorem Share.foldlM_perm {rest : List Transaction} {s s' : Share} (h : rest.foldlM take s = .ok s') :
    s'.txs.Perm (rest ++ s.txs) := by
  induction rest generalizing s with
  | nil =>
    cases h
    exact .refl _
  | cons tx rest ih =>
    rw [List.foldlM_cons] at h
    cases hstep : s.take tx with
    | error fault =>
      rw [hstep] at h
      cases h
    | ok next =>
      rw [hstep] at h
      exact (ih h).trans (((take_perm hstep).append_left rest).trans List.perm_middle)

section

variable {f f' : Contents}

theorem admitSender_perm {sender : Address} {txs : List Transaction} {share : Share}
    (h : (admitSender sender txs).eval f = .ok share f') : share.txs.Perm txs := by
  obtain ⟨found, f₁, -, hadmit⟩ := eval_bind_ok.1 h
  cases found with
  | none =>
    obtain ⟨rfl, -⟩ := eval_pure_ok.1 hadmit
    rw [Share.txs, List.map_map]
    exact .of_eq (List.map_id txs)
  | some account =>
    dsimp only at hadmit
    obtain ⟨share', f₂, hshare, hwrite⟩ := eval_bind_ok.1 hadmit
    have hperm := Share.foldlM_perm (eval_ofExcept_ok.1 hshare).1
    simp only [Share.txs, List.map_nil, List.append_nil] at hperm
    split at hwrite
    · obtain ⟨_, f₃, -, hdone⟩ := eval_bind_ok.1 hwrite
      obtain ⟨rfl, -⟩ := eval_pure_ok.1 hdone
      exact hperm
    · obtain ⟨rfl, -⟩ := eval_pure_ok.1 hwrite
      exact hperm

theorem admitSenders_perm {candidates : List (Address × Nonces)} {shares : List (Address × Share)}
    (h : (admitSenders candidates).eval f = .ok shares f') :
    (shares.flatMap (·.2.txs)).Perm (candidates.flatMap (·.2.txs)) := by
  induction candidates generalizing f f' shares with
  | nil =>
    obtain ⟨rfl, -⟩ := eval_pure_ok.1 h
    exact .refl _
  | cons candidate rest ih =>
    obtain ⟨sender, nonces⟩ := candidate
    rw [admitSenders] at h
    obtain ⟨share, f₁, hshare, hothers⟩ := eval_bind_ok.1 h
    obtain ⟨shares', f₂, hshares, hdone⟩ := eval_bind_ok.1 hothers
    obtain ⟨rfl, -⟩ := eval_pure_ok.1 hdone
    exact (admitSender_perm hshare).append (ih hshares)

theorem shares_perm (shares : List (Address × Share)) :
    (shares.flatMap (·.2.txs)).Perm ((shares.map (·.2.run)).flatten ++ shares.flatMap (·.2.deferred)
      ++ (shares.flatMap (·.2.discarded)).map (·.tx)) := by
  rw [List.map_flatMap]
  refine (List.flatMap_append_perm shares _ _).symm.trans (.append_right _ ?_)
  exact (List.flatMap_append_perm shares _ _).symm

/-- What is collected is admitted, deferred or discarded. -/
theorem select_perm {collected : List Transaction} {minGasPrice : Word} {maxGasLimit : UInt64}
    {admission : Admission} (h : (select collected minGasPrice maxGasLimit).eval f = .ok admission f') :
    (admission.admitted ++ admission.deferred ++ admission.discarded.map (·.tx)).Perm collected := by
  obtain ⟨shares, f₁, hshares, hdone⟩ := eval_bind_ok.1 h
  obtain ⟨rfl, -⟩ := eval_pure_ok.1 hdone
  have hgathered := gather_perm minGasPrice maxGasLimit collected ∅
  have hnone : Candidates.txs ∅ = [] := by simp [Candidates.txs]
  rw [hnone, List.append_nil] at hgathered
  have hsplit := (shares_perm shares).symm.trans (admitSenders_perm hshares)
  have hadmitted := interleave_perm (shares.map (·.2.run))
  rw [List.perm_iff_count] at *
  intro other
  specialize hgathered other
  specialize hsplit other
  specialize hadmitted other
  simp only [List.count_append, List.map_append, Candidates.txs] at *
  omega

end

end Admission

end RoundLedger
