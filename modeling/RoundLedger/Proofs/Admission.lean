import Mathlib.Data.List.Perm.Basic
import RoundLedger.Engine
import RoundLedger.Proofs.Reach
import RoundLedger.Proofs.Value

/-!
# Admission charges what it admits

The fees of the admitted transactions leave the accounts of their senders, and nothing else does.
Only collected transactions are admitted, each at one place.
-/

namespace RoundLedger

open Step Program State

namespace Admission

/-! ## Levels -/

theorem levels_perm {α : Type} (runs : List (List α)) (depth : Nat) :
    ((List.range depth).flatMap fun level => runs.filterMap fun run => run[level]?).Perm
      (runs.flatMap (·.take depth)) := by
  induction depth with
  | zero => simp
  | succ depth ih =>
    have hlast : (runs.filterMap fun run => run[depth]?)
        = runs.flatMap fun run => run[depth]?.toList := List.filterMap_eq_flatMap_toList _ _
    simp only [List.range_succ, List.flatMap_append, List.flatMap_singleton, List.take_add_one, hlast]
    exact (ih.append_right _).trans (List.flatMap_append_perm runs _ _)

theorem length_le_depth {α : Type} (runs : List (List α)) (start : Nat) :
    start ≤ runs.foldl (fun depth run => max depth run.length) start ∧
      ∀ run ∈ runs, run.length ≤ runs.foldl (fun depth run => max depth run.length) start := by
  induction runs generalizing start with
  | nil => simp
  | cons first rest ih =>
    obtain ⟨hstart, hrest⟩ := ih (max start first.length)
    rw [List.foldl_cons]
    refine ⟨by omega, ?_⟩
    rintro run (_ | ⟨_, hrun⟩)
    · omega
    · exact hrest run hrun

/-- Taking the items level by level takes each of them once. -/
theorem interleave_perm {α : Type} (runs : List (List α)) : (interleave runs).Perm runs.flatten := by
  have hwhole : runs.flatMap (·.take (runs.foldl (fun depth run => max depth run.length) 0))
      = runs.flatten := by
    rw [← List.flatMap_id']
    refine List.flatMap_congr fun run hrun => ?_
    exact List.take_of_length_le ((length_le_depth runs 0).2 run hrun)
  rw [← hwhole]
  exact levels_perm runs _

/-! ## Candidates -/

/-- What holds of every candidate under its sender and nonce. -/
def Candidates.All (candidates : Candidates) (P : Address → UInt64 → Transaction → Prop) : Prop :=
  ∀ (sender : Address) (nonces : Nonces), candidates[sender]? = some nonces →
    ∀ (nonce : UInt64) (tx : Transaction), nonces[nonce]? = some tx → P sender nonce tx

theorem Candidates.All.held {candidates : Candidates} {P : Address → UInt64 → Transaction → Prop}
    (h : candidates.All P) {sender : Address} {nonce : UInt64} {tx : Transaction}
    (hheld : (candidates.getD sender ∅)[nonce]? = some tx) : P sender nonce tx := by
  rw [Std.ExtTreeMap.getD_eq_getD_getElem?] at hheld
  cases hnonces : candidates[sender]? with
  | none =>
    rw [hnonces] at hheld
    simp at hheld
  | some nonces =>
    rw [hnonces] at hheld
    exact h sender nonces hnonces nonce tx hheld

theorem Candidates.All.insert {candidates : Candidates} {P : Address → UInt64 → Transaction → Prop}
    (h : candidates.All P) {tx : Transaction} {sender : Address} {nonce : UInt64}
    (htx : P sender nonce tx) :
    Candidates.All (candidates.insert sender ((candidates.getD sender ∅).insert nonce tx)) P := by
  intro address nonces hnonces nonce' tx' htx'
  rw [Std.ExtTreeMap.getElem?_insert] at hnonces
  simp only [Std.LawfulEqCmp.compare_eq_iff_eq] at hnonces
  split at hnonces
  next hsender =>
    cases hnonces
    subst hsender
    rw [Std.ExtTreeMap.getElem?_insert] at htx'
    simp only [Std.LawfulEqCmp.compare_eq_iff_eq] at htx'
    split at htx'
    next hnonce =>
      cases htx'
      subst hnonce
      exact htx
    next => exact h.held htx'
  next => exact h address nonces hnonces nonce' tx' htx'

theorem enter_all {candidates : Candidates} {P : Address → UInt64 → Transaction → Prop}
    (h : candidates.All P) {tx : Transaction} (htx : P tx.sender tx.nonce tx) :
    (enter candidates tx).1.All P := by
  unfold enter
  dsimp only
  split
  · exact h.insert htx
  next held hheld =>
    refine h.insert ?_
    unfold choose
    split
    · exact htx
    · exact h.held hheld

theorem gather_all {minGasPrice : Word} {maxGasLimit : UInt64} {P : Address → UInt64 → Transaction → Prop}
    {collected : List Transaction} {candidates : Candidates} (h : candidates.All P)
    (hcollected : ∀ tx ∈ collected, P tx.sender tx.nonce tx) :
    (gather minGasPrice maxGasLimit collected candidates).1.All P := by
  induction collected generalizing candidates with
  | nil => exact h
  | cons tx rest ih =>
    have hrest : ∀ tx ∈ rest, P tx.sender tx.nonce tx := fun tx htx => hcollected tx (List.mem_cons_of_mem _ htx)
    unfold gather
    dsimp only
    split
    · exact ih h hrest
    · split
      · exact ih h hrest
      · exact ih (enter_all h (hcollected tx List.mem_cons_self)) hrest

/-- Candidates are collected transactions, each under its sender and nonce. -/
theorem gather_collected (collected : List Transaction) (minGasPrice : Word) (maxGasLimit : UInt64) :
    (gather minGasPrice maxGasLimit collected ∅).1.All
      fun sender nonce tx => tx ∈ collected ∧ tx.sender = sender ∧ tx.nonce = nonce := by
  refine gather_all (fun sender nonces hnonces => ?_) fun tx htx => ⟨htx, rfl, rfl⟩
  simp at hnonces

/-! ## One sender -/

/-- What is charged to a balance is the fees of the transactions that are admitted, of those taken. -/
structure Share.Charged (before : Nat) (taken : List Transaction) (s : Share) : Prop where
  balance : s.balance.toNat + escrow s.run = before
  run : s.run.Sublist taken
  deferred : s.deferred.Sublist taken

section

variable {before : Nat} {taken : List Transaction} {s s' : Share} {tx : Transaction}

theorem Share.Charged.discard (hs : s.Charged before taken) {reason : DiscardReason} {phase : Phase} :
    Share.Charged before (taken ++ [tx]) { s.discard reason tx with phase } :=
  ⟨hs.balance, hs.run.trans (List.sublist_append_left _ _),
    hs.deferred.trans (List.sublist_append_left _ _)⟩

theorem Share.Charged.defer (hs : s.Charged before taken) :
    (s.defer tx).Charged before (taken ++ [tx]) :=
  ⟨hs.balance, hs.run.trans (List.sublist_append_left _ _), hs.deferred.append (List.Sublist.refl _)⟩

theorem Share.charge_charged (hs : s.Charged before taken) (h : s.charge tx = .ok s') :
    s'.Charged before (taken ++ [tx]) := by
  unfold charge at h
  split at h
  · cases h
    exact hs.discard
  next fee hfee =>
    split at h
    · cases h
      exact hs.discard
    next hcovered =>
      split at h
      · cases h
      · cases h
        have hexact := tx.toNat_maxFee hfee
        have hle := BitVec.not_lt.1 hcovered
        have hbalance := hs.balance
        refine ⟨?_, hs.run.append (List.Sublist.refl _),
          hs.deferred.trans (List.sublist_append_left _ _)⟩
        dsimp only
        rw [escrow_append, BitVec.toNat_sub_of_le hle, hexact]
        rw [BitVec.le_def] at hle
        simp only [escrow, List.map_singleton, List.sum_singleton] at *
        omega

theorem Share.take_charged (hs : s.Charged before taken) (h : s.take tx = .ok s') :
    s'.Charged before (taken ++ [tx]) := by
  unfold take at h
  split at h
  · cases h
    exact hs.discard
  · split at h
    · cases h
      exact hs.discard
    · cases h
      exact hs.defer
    · split at h
      · cases h
        exact hs.defer
      · exact charge_charged hs h

theorem Share.foldlM_charged {rest : List Transaction} (hs : s.Charged before taken)
    (h : rest.foldlM take s = .ok s') : s'.Charged before (taken ++ rest) := by
  induction rest generalizing s taken with
  | nil =>
    cases h
    rwa [List.append_nil]
  | cons tx rest ih =>
    rw [List.foldlM_cons] at h
    cases hstep : s.take tx with
    | error fault =>
      rw [hstep] at h
      cases h
    | ok next =>
      rw [hstep] at h
      simpa using ih (take_charged hs hstep) h

end

/-- A sender is charged for the run that is admitted, and nothing else is written. -/
theorem admitSender_cases {sender : Address} {candidates : List Transaction} {f f' : Contents}
    {share : Share} (h : (admitSender sender candidates).eval f = .ok share f') :
    (share.run.Sublist candidates ∧ share.deferred.Sublist candidates) ∧
      (share.run = [] ∧ f' = f ∨
        ∃ account, share.run ≠ [] ∧ accountsIn f sender = some account ∧
          share.balance.toNat + escrow share.run = account.balance.toNat ∧
          f' = f.put (Key.account sender).bytes
            (some (Account.encode { account with balance := share.balance }))) := by
  obtain ⟨found, f₁, hfound, hadmit⟩ := eval_bind_ok.1 h
  obtain ⟨haccount, rfl⟩ := account_ok hfound
  cases found with
  | none =>
    obtain ⟨rfl, rfl⟩ := eval_pure_ok.1 hadmit
    exact ⟨⟨by simp, by simp⟩, .inl ⟨rfl, rfl⟩⟩
  | some account =>
    dsimp only at hadmit
    obtain ⟨share', f₂, hshare, hwrite⟩ := eval_bind_ok.1 hadmit
    obtain ⟨hfold, rfl⟩ := eval_ofExcept_ok.1 hshare
    have hstart : Share.Charged account.balance.toNat []
        { balance := account.balance, nextNonce := account.nonce } :=
      ⟨by simp [escrow], .slnil, .slnil⟩
    have hcharged : share'.Charged account.balance.toNat candidates := Share.foldlM_charged hstart hfold
    split at hwrite
    next hsome =>
      obtain ⟨_, f₃, hset, hdone⟩ := eval_bind_ok.1 hwrite
      obtain ⟨rfl, rfl⟩ := eval_pure_ok.1 hdone
      cases hset
      exact ⟨⟨hcharged.run, hcharged.deferred⟩, .inr ⟨account, hsome, haccount, hcharged.balance, rfl⟩⟩
    next hnone =>
      obtain ⟨rfl, rfl⟩ := eval_pure_ok.1 hwrite
      exact ⟨⟨hcharged.run, hcharged.deferred⟩, .inl ⟨not_not.1 hnone, rfl⟩⟩

theorem admitSender_ok {sender : Address} {candidates : List Transaction} {f f' : Contents}
    {share : Share} (h : (admitSender sender candidates).eval f = .ok share f') :
    (accountsIn f').total + escrow share.run = (accountsIn f).total ∧
      ∀ tx ∈ share.run, tx ∈ candidates := by
  obtain ⟨⟨hrun, -⟩, ⟨hnone, rfl⟩ | ⟨account, -, haccount, hsum, rfl⟩⟩ := admitSender_cases h
  · exact ⟨by simp [escrow, hnone], hrun.subset⟩
  · refine ⟨?_, hrun.subset⟩
    have hbalance : (accountsIn f).balance sender = account.balance.toNat := by
      rw [Accounts.balance, haccount]
      rfl
    have htotal := Accounts.total_set (accountsIn f) sender { account with balance := share.balance }
    rw [accountsIn_put]
    dsimp only at htotal
    omega

/-! ## All senders -/

theorem admitSenders_ok {candidates : List (Address × Nonces)} {f f' : Contents}
    {shares : List (Address × Share)} (h : (admitSenders candidates).eval f = .ok shares f') :
    (accountsIn f').total + escrow (shares.map (·.2.run)).flatten = (accountsIn f).total ∧
      ∀ tx ∈ (shares.map (·.2.run)).flatten,
        ∃ (sender : Address) (nonces : Nonces) (nonce : UInt64),
          (sender, nonces) ∈ candidates ∧ nonces[nonce]? = some tx := by
  induction candidates generalizing f shares with
  | nil =>
    obtain ⟨rfl, rfl⟩ := eval_pure_ok.1 h
    simp [escrow]
  | cons candidate rest ih =>
    obtain ⟨sender, nonces⟩ := candidate
    rw [admitSenders] at h
    obtain ⟨share, f₁, hshare, hothers⟩ := eval_bind_ok.1 h
    obtain ⟨shares', f₂, hshares, hdone⟩ := eval_bind_ok.1 hothers
    obtain ⟨rfl, rfl⟩ := eval_pure_ok.1 hdone
    obtain ⟨htotal, hrun⟩ := admitSender_ok hshare
    obtain ⟨htotals, hruns⟩ := ih hshares
    simp only [List.map_cons, List.flatten_cons, escrow_append, List.mem_append]
    refine ⟨by omega, ?_⟩
    rintro tx (htx | htx)
    · obtain ⟨⟨nonce, _⟩, hmem, rfl⟩ := List.mem_map.1 (hrun tx htx)
      exact ⟨sender, nonces, nonce, List.mem_cons_self,
        Std.ExtTreeMap.mem_toList_iff_getElem?_eq_some.1 hmem⟩
    · obtain ⟨sender', nonces', nonce, hmem, hnonce⟩ := hruns tx htx
      exact ⟨sender', nonces', nonce, List.mem_cons_of_mem _ hmem, hnonce⟩

theorem select_ok {collected : List Transaction} {minGasPrice : Word} {maxGasLimit : UInt64}
    {f f' : Contents} {admission : Admission}
    (h : (select collected minGasPrice maxGasLimit).eval f = .ok admission f') :
    (accountsIn f').total + escrow admission.admitted = (accountsIn f).total ∧
      ∀ tx ∈ admission.admitted, tx ∈ collected := by
  obtain ⟨shares, f₁, hshares, hdone⟩ := eval_bind_ok.1 h
  obtain ⟨rfl, rfl⟩ := eval_pure_ok.1 hdone
  obtain ⟨htotal, hruns⟩ := admitSenders_ok hshares
  have hperm := interleave_perm (shares.map (·.2.run))
  dsimp only
  refine ⟨by rw [escrow_perm hperm, htotal], fun tx htx => ?_⟩
  obtain ⟨sender, nonces, nonce, hmem, hnonce⟩ := hruns tx (hperm.mem_iff.1 htx)
  exact (gather_collected collected minGasPrice maxGasLimit sender nonces
    (Std.ExtTreeMap.mem_toList_iff_getElem?_eq_some.1 hmem) nonce tx hnonce).1

section

variable {keys : Bytes → Prop} (apart : ∀ k : Key, k.isState = true → ¬ keys k.bytes)

include apart

theorem admitSender_avoids (sender : Address) (candidates : List Transaction) :
    (admitSender sender candidates).Avoids keys := by
  refine (account_avoids apart sender).bind fun account => ?_
  split
  · exact avoids_pure _
  · refine (avoids_ofExcept _).bind fun share => ?_
    dsimp only
    split
    · exact (setAccount_avoids apart sender _).bind fun _ => avoids_pure _
    · exact avoids_pure _

theorem admitSenders_avoids (candidates : List (Address × Nonces)) :
    (admitSenders candidates).Avoids keys := by
  induction candidates with
  | nil => exact avoids_pure _
  | cons candidate rest ih =>
    rw [admitSenders]
    exact (admitSender_avoids apart _ _).bind fun _ => ih.bind fun _ => avoids_pure _

theorem select_avoids (collected : List Transaction) (minGasPrice : Word) (maxGasLimit : UInt64) :
    (select collected minGasPrice maxGasLimit).Avoids keys :=
  (admitSenders_avoids apart _).bind fun _ => avoids_pure _

end

end Admission

end RoundLedger
