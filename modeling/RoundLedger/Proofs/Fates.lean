import RoundLedger.Proofs.Books
import RoundLedger.Proofs.Selection

/-!
# Fates

Every collected transaction meets one fate. It is turned away by a filter, or beaten by another one with its
sender and nonce, or it is a winner. A winner is admitted, or discarded for what the account of its sender tells
against it, or it waits behind a missing nonce until it is too old.
-/

namespace RoundLedger

open Step Program State

/-- The list has the transactions with a property, each once. -/
structure Exactly (txs : List Transaction) (P : Transaction → Prop) : Prop where
  nodup : txs.Nodup
  mem_iff : ∀ tx, tx ∈ txs ↔ P tx

section

variable {txs txs' : List Transaction} {P Q : Transaction → Prop}

theorem Exactly.perm (h : Exactly txs P) (hperm : txs'.Perm txs) : Exactly txs' P :=
  ⟨hperm.nodup_iff.2 h.nodup, fun tx => hperm.mem_iff.trans (h.mem_iff tx)⟩

theorem Exactly.filter (h : Exactly txs P) {q : Transaction → Bool} (hq : ∀ tx, q tx = true ↔ Q tx) :
    Exactly (txs.filter q) fun tx => P tx ∧ Q tx :=
  ⟨h.nodup.filter q, fun tx => by rw [List.mem_filter, h.mem_iff, hq]⟩

end

namespace Admission

inductive Fate
  | admitted
  | deferred
  | discarded (reason : DiscardReason)

/-! ## What is due -/

section

variable (at? : Nat → Option Transaction)

/-- The fate that is due to the winner with a nonce, by the account of its sender. -/
inductive Due : Option Account → Nat → Fate → Prop
  | stranger {nonce : Nat} : Due none nonce (.discarded .unaffordable)
  | stale {account : Account} {nonce : Nat} : nonce < account.nonce.toNat →
      Due (some account) nonce (.discarded .staleNonce)
  /-- The fees are covered up to this nonce. -/
  | paid {account : Account} {run : List Transaction} {nonce : Nat} : Affordable at? account run →
      account.nonce.toNat ≤ nonce → nonce < account.nonce.toNat + run.length → Due (some account) nonce .admitted
  /-- The fee of this nonce or of an earlier one exceeds what remains of the balance. -/
  | overdrawn {account : Account} {run : List Transaction} {tx : Transaction} {nonce : Nat} :
      Affordable at? account run → at? (account.nonce.toNat + run.length) = some tx →
      account.balance.toNat < escrow (run ++ [tx]) → account.nonce.toNat + run.length ≤ nonce →
      Due (some account) nonce (.discarded .unaffordable)
  /-- An earlier nonce is missing, and the fees are covered up to there. -/
  | gapped {account : Account} {run : List Transaction} {nonce : Nat} : Affordable at? account run →
      at? (account.nonce.toNat + run.length) = none → account.nonce.toNat + run.length < nonce →
      Due (some account) nonce .deferred

end

section

variable {at? : Nat → Option Transaction} {account : Account} {run : List Transaction} {tx : Transaction}
  {found : Option Account} {nonce : Nat} {fate fate' : Fate}

theorem Affordable.longest_of_overdrawn (h : Affordable at? account run)
    (hnext : at? (account.nonce.toNat + run.length) = some tx)
    (hless : account.balance.toNat < escrow (run ++ [tx])) : Longest at? account run := by
  refine h.longest fun tx' htx' => ?_
  obtain rfl := Option.some.inj (hnext.symm.trans htx')
  exact hless

theorem Affordable.longest_of_missing (h : Affordable at? account run)
    (hmissing : at? (account.nonce.toNat + run.length) = none) : Longest at? account run :=
  h.longest fun tx htx => by simp [hmissing] at htx

/-- One fate is due. -/
theorem Due.unique (h : Due at? found nonce fate) (h' : Due at? found nonce fate') : fate = fate' := by
  cases h with
  | stranger =>
    cases h'
    rfl
  | stale hstale => cases h' <;> first | rfl | omega
  | paid hrun hfrom hto =>
    cases h' with
    | stale hstale => omega
    | paid => rfl
    | overdrawn hrun' hnext hless hbehind =>
      have hle := (hrun'.longest_of_overdrawn hnext hless).longest _ hrun
      omega
    | gapped hrun' hmissing hbehind =>
      have hle := (hrun'.longest_of_missing hmissing).longest _ hrun
      omega
  | overdrawn hrun hnext hless hbehind =>
    have hlongest := hrun.longest_of_overdrawn hnext hless
    cases h' with
    | stale hstale => omega
    | paid hrun' hfrom hto =>
      have hle := hlongest.longest _ hrun'
      omega
    | overdrawn => rfl
    | gapped hrun' hmissing hbehind' =>
      obtain rfl := hlongest.unique (hrun'.longest_of_missing hmissing)
      simp [hmissing] at hnext
  | gapped hrun hmissing hbehind =>
    have hlongest := hrun.longest_of_missing hmissing
    cases h' with
    | stale hstale => omega
    | paid hrun' hfrom hto =>
      have hle := hlongest.longest _ hrun'
      omega
    | overdrawn hrun' hnext hless hbehind' =>
      obtain rfl := hlongest.unique (hrun'.longest_of_overdrawn hnext hless)
      simp [hmissing] at hnext
    | gapped => rfl

end

/-! ## What is met -/

/-- The discarded transactions with the reason. -/
def withReason (reason : DiscardReason) (discards : List Discard) : List Transaction :=
  (discards.filter (·.reason = reason)).map (·.tx)

@[simp] theorem mem_withReason {reason : DiscardReason} {discards : List Discard} {tx : Transaction} :
    tx ∈ withReason reason discards ↔ ⟨reason, tx⟩ ∈ discards := by
  simp only [withReason, List.mem_map, List.mem_filter, decide_eq_true_eq]
  constructor
  · rintro ⟨⟨_, _⟩, ⟨hmem, rfl⟩, rfl⟩
    exact hmem
  · exact fun hmem => ⟨_, ⟨hmem, rfl⟩, rfl⟩

@[simp] theorem withReason_append (reason : DiscardReason) (discards discards' : List Discard) :
    withReason reason (discards ++ discards') = withReason reason discards ++ withReason reason discards' := by
  simp [withReason]

/-- Every discard has one of the reasons. -/
theorem withReason_perm (discards : List Discard) :
    (DiscardReason.all.flatMap (withReason · discards)).Perm (discards.map (·.tx)) := by
  rw [List.perm_iff_count]
  intro other
  induction discards with
  | nil => rfl
  | cons discard rest ih =>
    obtain ⟨reason, tx⟩ := discard
    simp only [DiscardReason.all, List.flatMap_cons, List.flatMap_nil, List.append_nil, List.count_append,
      List.map_cons, List.count_cons, withReason] at ih ⊢
    cases reason <;> simp [List.count_cons, ← ih] <;> omega

/-- The transactions that have met a fate so far. -/
def Share.met (s : Share) : Fate → List Transaction
  | .admitted => s.run
  | .deferred => s.deferred
  | .discarded reason => withReason reason s.discarded

def met (a : Admission) : Fate → List Transaction
  | .admitted => a.admitted
  | .deferred => a.deferred
  | .discarded reason => withReason reason a.discarded

theorem Share.mem_txs {s : Share} {tx : Transaction} : tx ∈ s.txs ↔ ∃ fate, tx ∈ s.met fate := by
  simp only [txs, List.mem_append, List.mem_map]
  constructor
  · rintro ((hrun | hdeferred) | ⟨⟨reason, _⟩, hmem, rfl⟩)
    · exact ⟨.admitted, hrun⟩
    · exact ⟨.deferred, hdeferred⟩
    · exact ⟨.discarded reason, mem_withReason.2 hmem⟩
  · rintro ⟨_ | _ | reason, hmem⟩
    · exact .inl (.inl hmem)
    · exact .inl (.inr hmem)
    · exact .inr ⟨_, mem_withReason.1 hmem, rfl⟩

/-! ## One sender -/

/-- Every winner that was taken has met what is due to it. -/
structure Share.Sorts (at? : Nat → Option Transaction) (account : Account) (taken : List Transaction)
    (s : Share) : Prop extends s.Takes at? account taken where
  perm : s.txs.Perm taken
  due : ∀ fate, ∀ tx ∈ s.met fate, Due at? (some account) tx.nonce.toNat fate
  broke : s.phase = .broke → ∃ tx, at? (account.nonce.toNat + s.run.length) = some tx ∧
    account.balance.toNat < escrow (s.run ++ [tx])
  waiting : s.phase = .waiting → at? (account.nonce.toNat + s.run.length) = none

section

variable {at? : Nat → Option Transaction} {account : Account} {taken rest : List Transaction} {s s' : Share}
  {tx : Transaction}

theorem Share.Sorts.due_discard (hs : s.Sorts at? account taken) {reason : DiscardReason} {phase : Phase}
    (hdue : Due at? (some account) tx.nonce.toNat (.discarded reason)) :
    ∀ fate, ∀ tx' ∈ met { s.discard reason tx with phase } fate, Due at? (some account) tx'.nonce.toNat fate := by
  rintro (_ | _ | other) tx' htx'
  · exact hs.due .admitted tx' htx'
  · exact hs.due .deferred tx' htx'
  · obtain hmem | hmem := List.mem_append.1 (mem_withReason.1 htx')
    · exact hs.due (.discarded other) tx' (mem_withReason.2 hmem)
    · obtain ⟨rfl, rfl⟩ := Discard.mk.inj (List.mem_singleton.1 hmem)
      exact hdue

theorem Share.Sorts.due_defer (hs : s.Sorts at? account taken)
    (hdue : Due at? (some account) tx.nonce.toNat .deferred) :
    ∀ fate, ∀ tx' ∈ (s.defer tx).met fate, Due at? (some account) tx'.nonce.toNat fate := by
  rintro (_ | _ | reason) tx' htx'
  · exact hs.due .admitted tx' htx'
  · obtain hmem | hmem := List.mem_append.1 htx'
    · exact hs.due .deferred tx' hmem
    · obtain rfl := List.mem_singleton.1 hmem
      exact hdue
  · exact hs.due (.discarded reason) tx' htx'

/-- A nonce that comes too late for the run was too late from the start: that of a paid winner does not come
twice. -/
theorem Share.Sorts.stale (hs : s.Sorts at? account taken) (lists : Lists at? (taken ++ tx :: rest))
    (hpassed : tx.nonce < s.nextNonce) : tx.nonce.toNat < account.nonce.toNat := by
  by_contra hfrom
  obtain ⟨i, hi⟩ := Nat.exists_eq_add_of_le (Nat.not_lt.1 hfrom)
  rw [UInt64.lt_iff_toNat_lt, hs.next, hi] at hpassed
  have hrun : s.run[i]? = some s.run[i] := List.getElem?_eq_getElem (Nat.lt_of_add_lt_add_left hpassed)
  have hsame := hs.affordable.consecutive i _ hrun
  rw [← hi, (lists.mem_iff _ tx).2 ⟨by simp, rfl⟩] at hsame
  have htaken : tx ∈ taken := hs.perm.mem_iff.1 (Share.mem_txs.2 ⟨.admitted, Option.some.inj hsame ▸ List.getElem_mem _⟩)
  have hless := (List.pairwise_append.1 lists.ascending).2.2 tx htaken tx List.mem_cons_self
  exact UInt64.lt_irrefl _ hless

theorem Share.charge_cases (h : s.charge tx = .ok s') :
    (s.balance.toNat < tx.prepaid ∧ s' = { s.discard .unaffordable tx with phase := .broke }) ∨
    ∃ balance nextNonce, s' = { s with balance, nextNonce, run := s.run ++ [tx] } := by
  unfold charge at h
  split at h
  next hfee =>
    cases h
    exact .inl ⟨Nat.lt_of_lt_of_le s.balance.isLt (tx.le_prepaid hfee), rfl⟩
  next fee hfee =>
    split at h
    next hless =>
      cases h
      rw [BitVec.lt_def, tx.toNat_maxFee hfee] at hless
      exact .inl ⟨hless, rfl⟩
    next =>
      split at h
      · cases h
      · cases h
        exact .inr ⟨_, _, rfl⟩

theorem Share.charge_sorts (lists : Lists at? (taken ++ tx :: rest)) (hs : s.Sorts at? account taken)
    (hphase : s.phase = .running) (hnonce : tx.nonce = s.nextNonce) (h : s.charge tx = .ok s') (htakes : s'.Takes at? account (taken ++ [tx]))
    (hperm : s'.txs.Perm (taken ++ [tx])) : s'.Sorts at? account (taken ++ [tx]) := by
  have hplace : tx.nonce.toNat = account.nonce.toNat + s.run.length := by rw [hnonce, hs.next]
  have hnext : at? (account.nonce.toNat + s.run.length) = some tx :=
    (lists.mem_iff _ _).2 ⟨by simp, hplace⟩
  obtain ⟨hless, rfl⟩ | ⟨balance, nextNonce, rfl⟩ := charge_cases h
  · have hbroke : account.balance.toNat < escrow (s.run ++ [tx]) := by
      have hcharged := hs.charged
      rw [escrow_append, show escrow [tx] = tx.prepaid from Nat.add_zero _]
      omega
    exact ⟨htakes, hperm, hs.due_discard (.overdrawn hs.affordable hnext hbroke hplace.ge),
      fun _ => ⟨tx, hnext, hbroke⟩, nofun⟩
  · refine ⟨htakes, hperm, ?_, fun hbroke => ?_, fun hwaiting => ?_⟩
    · rintro (_ | _ | reason) tx' htx'
      · obtain hmem | hmem := List.mem_append.1 htx'
        · exact hs.due .admitted tx' hmem
        · obtain rfl := List.mem_singleton.1 hmem
          refine .paid htakes.affordable (by omega) ?_
          rw [hplace, List.length_append, List.length_singleton, ← Nat.add_assoc]
          exact Nat.lt_succ_self _
      · exact hs.due .deferred tx' htx'
      · exact hs.due (.discarded reason) tx' htx'
    · exact absurd (hphase.symm.trans hbroke) nofun
    · exact absurd (hphase.symm.trans hwaiting) nofun

theorem Share.take_sorts (lists : Lists at? (taken ++ tx :: rest)) (hs : s.Sorts at? account taken)
    (h : s.take tx = .ok s') : s'.Sorts at? account (taken ++ [tx]) := by
  have htakes : s'.Takes at? account (taken ++ [tx]) := by
    have hends := take_ends lists hs.toTakes
    rwa [h] at hends
  have hperm : s'.txs.Perm (taken ++ [tx]) :=
    (take_perm h).trans ((hs.perm.cons tx).trans (List.perm_append_singleton tx taken).symm)
  have hat : at? tx.nonce.toNat = some tx := (lists.mem_iff _ _).2 ⟨by simp, rfl⟩
  unfold take at h
  split at h
  next hpassed =>
    cases h
    exact ⟨htakes, hperm, hs.due_discard (.stale (hs.stale lists hpassed)), hs.broke, hs.waiting⟩
  next hfresh =>
    have hfrom : account.nonce.toNat + s.run.length ≤ tx.nonce.toNat := by
      rw [← hs.next]
      exact UInt64.le_iff_toNat_le.1 (UInt64.not_lt.1 hfresh)
    have hdefer (hmissing : at? (account.nonce.toNat + s.run.length) = none) (hs' : s' = s.defer tx) :
        s'.Sorts at? account (taken ++ [tx]) := by
      subst hs'
      have hbehind : account.nonce.toNat + s.run.length ≠ tx.nonce.toNat := fun heq => by simp [heq, hat] at hmissing
      exact ⟨htakes, hperm, hs.due_defer (.gapped hs.affordable hmissing (by omega)), nofun, fun _ => hmissing⟩
    split at h
    next hphase =>
      cases h
      obtain ⟨next, hnext, hless⟩ := hs.broke hphase
      exact ⟨htakes, hperm, hs.due_discard (.overdrawn hs.affordable hnext hless hfrom), hs.broke, hs.waiting⟩
    next hphase =>
      exact hdefer (hs.waiting hphase) (Except.ok.inj h).symm
    next hphase =>
      split at h
      next hgap =>
        have hmissing := hs.missing lists hphase hgap
        rw [hs.next] at hmissing
        exact hdefer hmissing (Except.ok.inj h).symm
      next hnext =>
        have hnonce := UInt64.le_antisymm (UInt64.not_lt.1 hnext) (UInt64.not_lt.1 hfresh)
        exact charge_sorts lists hs hphase hnonce h htakes hperm

theorem Share.foldlM_sorts (lists : Lists at? (taken ++ rest)) (hs : s.Sorts at? account taken)
    (h : rest.foldlM take s = .ok s') : s'.Sorts at? account (taken ++ rest) := by
  induction rest generalizing s taken with
  | nil =>
    cases h
    rwa [List.append_nil]
  | cons tx rest ih =>
    rw [List.foldlM_cons] at h
    cases hstep : s.take tx with
    | error fault =>
      rw [hstep] at h
      cases h
    | ok next =>
      rw [hstep] at h
      have hnext := take_sorts lists hs hstep
      rw [List.append_cons] at lists ⊢
      exact ih lists hnext h

theorem Share.all_sorts (lists : Lists at? taken)
    (h : taken.foldlM take { balance := account.balance, nextNonce := account.nonce } = .ok s) :
    s.Sorts at? account taken := by
  have hstart : Share.Sorts at? account [] { balance := account.balance, nextNonce := account.nonce } :=
    { affordable := ⟨by simp, by simp⟩
      next := rfl
      charged := rfl
      running := by simp
      ended := fun hphase => absurd rfl hphase
      perm := .refl _
      due := by rintro (_ | _ | reason) tx htx <;> simp [met, withReason] at htx
      broke := nofun
      waiting := nofun }
  have hall : Lists at? ([] ++ taken) := lists
  exact foldlM_sorts hall hstart h

end

/-! ## The senders -/

/-- What holds of the share of a sender, by the account that it has. -/
structure Share.Just (at? : Nat → Option Transaction) (found : Option Account) (s : Share) : Prop where
  listed : ∀ tx ∈ s.txs, at? tx.nonce.toNat = some tx
  due : ∀ fate, ∀ tx ∈ s.met fate, Due at? found tx.nonce.toNat fate
  ascending : s.deferred.Pairwise (·.nonce < ·.nonce)

section

variable {at? : Address → Nat → Option Transaction} {f f' : Contents} {sender : Address} {txs : List Transaction}
  {share : Share} {shares : List (Address × Share)}

theorem admitSender_just (lists : Lists (at? sender) txs) (h : (admitSender sender txs).eval f = .ok share f') :
    share.Just (at? sender) (accountsIn f sender) := by
  have hlisted : ∀ tx ∈ share.txs, at? sender tx.nonce.toNat = some tx := fun tx htx =>
    (lists.mem_iff _ _).2 ⟨(admitSender_perm h).mem_iff.1 htx, rfl⟩
  have hascending : share.deferred.Pairwise (·.nonce < ·.nonce) :=
    lists.ascending.sublist (admitSender_cases h).1.2
  refine ⟨hlisted, ?_, hascending⟩
  obtain ⟨found, f₁, hfound, hadmit⟩ := eval_bind_ok.1 h
  obtain ⟨haccount, rfl⟩ := account_ok hfound
  rw [haccount]
  cases found with
  | none =>
    obtain ⟨rfl, -⟩ := eval_pure_ok.1 hadmit
    rintro (_ | _ | reason) tx htx
    · cases htx
    · cases htx
    · obtain ⟨_, -, hdiscard⟩ := List.mem_map.1 (mem_withReason.1 htx)
      obtain ⟨rfl, -⟩ := Discard.mk.inj hdiscard
      exact .stranger
  | some account =>
    dsimp only at hadmit
    obtain ⟨share', f₂, hshare, hwrite⟩ := eval_bind_ok.1 hadmit
    have hsorts := Share.all_sorts lists (eval_ofExcept_ok.1 hshare).1
    split at hwrite
    · obtain ⟨_, f₃, -, hdone⟩ := eval_bind_ok.1 hwrite
      obtain ⟨rfl, -⟩ := eval_pure_ok.1 hdone
      exact hsorts.due
    · obtain ⟨rfl, -⟩ := eval_pure_ok.1 hwrite
      exact hsorts.due

theorem admitSenders_just {candidates : List (Address × Nonces)} (distinct : (candidates.map (·.1)).Nodup)
    (lists : ∀ entry ∈ candidates, Lists (at? entry.1) (entry.2.toList.map (·.2)))
    (h : (admitSenders candidates).eval f = .ok shares f') :
    ∀ share ∈ shares, share.2.Just (at? share.1) (accountsIn f share.1) := by
  induction candidates generalizing f shares with
  | nil =>
    obtain ⟨rfl, rfl⟩ := eval_pure_ok.1 h
    exact nofun
  | cons candidate rest ih =>
    obtain ⟨sender, nonces⟩ := candidate
    obtain ⟨hout, hrest⟩ := List.nodup_cons.1 distinct
    obtain ⟨hlist, hlists⟩ := List.forall_mem_cons.1 lists
    rw [admitSenders] at h
    obtain ⟨share, f₁, hshare, hothers⟩ := eval_bind_ok.1 h
    obtain ⟨shares', f₂, hshares, hdone⟩ := eval_bind_ok.1 hothers
    obtain ⟨rfl, rfl⟩ := eval_pure_ok.1 hdone
    refine List.forall_mem_cons.2 ⟨admitSender_just hlist hshare, fun other hother => ?_⟩
    -- the account of a later sender is still the one from before
    have hsenders := (admitSenders_shared hrest hlists hshares).1
    have hapart : other.1 ∉ [(sender, share)].map (·.1) := fun hmem =>
      hout (hsenders ▸ List.mem_singleton.1 hmem ▸ List.mem_map_of_mem hother)
    rw [← (admitSender_shared hlist hshare).account_eq hapart]
    exact ih hrest hlists hshares other hother

end

/-! ## Winners -/

/-- Chosen among those with the same sender and nonce. -/
def Winner (passed : List Transaction) (tx : Transaction) : Prop :=
  candidate passed tx.sender tx.nonce.toNat = some tx

/-- The senders and nonces that occur, each pair once. -/
def places (passed : List Transaction) : List (Address × UInt64) :=
  (passed.map fun tx => (tx.sender, tx.nonce)).dedup

theorem Winner.eq {passed : List Transaction} {tx tx' : Transaction} (h : Winner passed tx) (h' : Winner passed tx')
    (hplace : (tx.sender, tx.nonce) = (tx'.sender, tx'.nonce)) : tx = tx' := by
  obtain ⟨hsender, hnonce⟩ := Prod.mk.inj hplace
  rw [Winner, hsender, hnonce, h'] at h
  exact (Option.some.inj h).symm

theorem exists_winner {passed : List Transaction} {tx : Transaction} (h : tx ∈ passed) :
    ∃ winner, Winner passed winner ∧ (winner.sender, winner.nonce) = (tx.sender, tx.nonce) := by
  cases hsome : candidate passed tx.sender tx.nonce.toNat with
  | none =>
    rw [candidate, List.argmin_eq_none, List.filter_eq_nil_iff] at hsome
    exact absurd (by simp) (hsome tx h)
  | some winner =>
    obtain ⟨-, hsender, hnonce⟩ := mem_of_candidate hsome
    refine ⟨winner, ?_, by rw [hsender, UInt64.toNat_inj.1 hnonce]⟩
    rw [Winner, hsender, hnonce, hsome]

/-- There is one winner for each sender and nonce. -/
theorem length_winners {passed winners : List Transaction} (h : Exactly winners (Winner passed)) :
    winners.length = (places passed).length := by
  rw [← List.length_map (fun tx : Transaction => (tx.sender, tx.nonce))]
  refine List.Perm.length_eq ((List.perm_ext_iff_of_nodup ?_ (List.nodup_dedup _)).2 fun place => ?_)
  · exact h.nodup.map_on fun tx htx tx' htx' => ((h.mem_iff tx).1 htx).eq ((h.mem_iff tx').1 htx')
  · rw [List.mem_dedup, List.mem_map, List.mem_map]
    constructor
    · rintro ⟨tx, htx, rfl⟩
      exact ⟨tx, (mem_of_candidate ((h.mem_iff tx).1 htx)).1, rfl⟩
    · rintro ⟨tx, htx, rfl⟩
      obtain ⟨winner, hwinner, hplace⟩ := exists_winner htx
      exact ⟨winner, (h.mem_iff winner).2 hwinner, hplace⟩

section

variable {minGasPrice : Word} {maxGasLimit : UInt64} {collected : List Transaction}

theorem exactly_gathered (minGasPrice : Word) (maxGasLimit : UInt64) (collected : List Transaction) :
    Exactly (gather minGasPrice maxGasLimit collected ∅).1.txs
      (Winner (passing minGasPrice maxGasLimit collected)) := by
  have hwinner {entry : Address × Nonces} (hentry : entry ∈ (gather minGasPrice maxGasLimit collected ∅).1.toList)
      {tx : Transaction} (htx : tx ∈ entry.2.txs) :
      candidate (passing minGasPrice maxGasLimit collected) entry.1 tx.nonce.toNat = some tx :=
    ((lists_gathered hentry).mem_iff _ _).2 ⟨htx, rfl⟩
  have howner {entry : Address × Nonces} (hentry : entry ∈ (gather minGasPrice maxGasLimit collected ∅).1.toList)
      {tx : Transaction} (htx : tx ∈ entry.2.txs) : tx.sender = entry.1 := (mem_of_candidate (hwinner hentry htx)).2.1
  constructor
  case nodup =>
    refine List.nodup_flatMap.2 ⟨fun entry hentry => ?_, ?_⟩
    · refine List.Pairwise.imp (S := (· ≠ ·)) (fun hless heq => ?_) (lists_gathered hentry).ascending
      rw [heq] at hless
      exact UInt64.lt_irrefl _ hless
    · have hsenders := List.pairwise_map.1 (senders_ascending collected minGasPrice maxGasLimit)
      refine hsenders.imp_of_mem fun hentry hentry' hless tx htx htx' => ?_
      rw [← howner hentry htx, howner hentry' htx'] at hless
      exact BitVec.lt_irrefl _ hless
  case mem_iff =>
    intro tx
    constructor
    · intro htx
      obtain ⟨entry, hentry, htx⟩ := List.mem_flatMap.1 htx
      rw [Winner, howner hentry htx]
      exact hwinner hentry htx
    · intro htx
      obtain ⟨entry, hentry, hsender⟩ := List.mem_map.1 (sender_gathered htx)
      rw [Winner, ← hsender] at htx
      exact List.mem_flatMap.2 ⟨entry, hentry, (((lists_gathered hentry).mem_iff _ tx).1 htx).1⟩

/-! ## Filters -/

/-- Why a transaction is turned away by a filter. -/
def refusal? (minGasPrice : Word) (maxGasLimit : UInt64) (tx : Transaction) : Option DiscardReason :=
  if tx.gasPrice < minGasPrice then some .gasPriceTooLow
  else if maxGasLimit < tx.gasLimit then some .gasLimitTooHigh
  else none

theorem refusal?_price {tx : Transaction} :
    refusal? minGasPrice maxGasLimit tx = some .gasPriceTooLow ↔ tx.gasPrice < minGasPrice := by
  unfold refusal?
  split
  · simp [*]
  · split <;> simp [*]

theorem refusal?_limit {tx : Transaction} : refusal? minGasPrice maxGasLimit tx = some .gasLimitTooHigh ↔
    minGasPrice ≤ tx.gasPrice ∧ maxGasLimit < tx.gasLimit := by
  unfold refusal?
  rw [← BitVec.not_lt]
  split
  · simp [*]
  · split <;> simp [*]

theorem enter_discards {candidates : Candidates} {tx : Transaction} {discard : Discard}
    (h : discard ∈ (enter candidates tx).2) : discard.reason = .duplicateNonce := by
  unfold enter at h
  dsimp only at h
  split at h
  · cases h
  · rw [List.mem_singleton.1 h]

/-- What is gathered is discarded by a filter, or beaten. -/
theorem withReason_gather (reason : DiscardReason) (hreason : reason ≠ .duplicateNonce)
    (collected : List Transaction) (candidates : Candidates) :
    withReason reason (gather minGasPrice maxGasLimit collected candidates).2
      = collected.filter (refusal? minGasPrice maxGasLimit · = some reason) := by
  induction collected generalizing candidates with
  | nil => rfl
  | cons tx rest ih =>
    have hbeaten : withReason reason (enter candidates tx).2 = [] :=
      List.eq_nil_iff_forall_not_mem.2 fun tx' htx' => hreason (enter_discards (mem_withReason.1 htx'))
    have hsingle (given : DiscardReason) :
        withReason reason [⟨given, tx⟩] = if given = reason then [tx] else [] := by
      unfold withReason
      split <;> simp [*]
    unfold gather
    dsimp only
    rw [withReason_append, ih, List.filter_cons, refusal?]
    split
    · rw [hsingle]
      split <;> simp [*]
    · split
      · rw [hsingle]
        split <;> simp [*]
      · rw [hbeaten]
        simp

/-- Gathering discards for no other reason. -/
theorem withReason_gather_eq_nil (reason : DiscardReason) (hprice : reason ≠ .gasPriceTooLow)
    (hlimit : reason ≠ .gasLimitTooHigh) (hbeaten : reason ≠ .duplicateNonce) (collected : List Transaction)
    (candidates : Candidates) : withReason reason (gather minGasPrice maxGasLimit collected candidates).2 = [] := by
  rw [withReason_gather reason hbeaten, List.filter_eq_nil_iff]
  intro tx _
  unfold refusal?
  split
  · simpa using hprice.symm
  · split
    · simpa using hlimit.symm
    · simp

/-- A transaction that no filter turns away is passed on. -/
theorem length_refused (minGasPrice : Word) (maxGasLimit : UInt64) (collected : List Transaction) :
    (collected.filter (refusal? minGasPrice maxGasLimit · = some .gasPriceTooLow)).length
      + (collected.filter (refusal? minGasPrice maxGasLimit · = some .gasLimitTooHigh)).length
      + (passing minGasPrice maxGasLimit collected).length = collected.length := by
  induction collected with
  | nil => rfl
  | cons tx rest ih =>
    rw [List.length_cons, ← ih]
    simp only [passing, List.filter_cons, refusal?, ← BitVec.not_lt, ← UInt64.not_lt]
    split
    · simp [*]
      omega
    · split
      · simp [*]
        omega
      · simp [*]
        omega

/-- All but one of the transactions with one sender and nonce are beaten. -/
theorem length_beaten (minGasPrice : Word) (maxGasLimit : UInt64) (collected : List Transaction) :
    (withReason .duplicateNonce (gather minGasPrice maxGasLimit collected ∅).2).length
      + (places (passing minGasPrice maxGasLimit collected)).length
      = (passing minGasPrice maxGasLimit collected).length := by
  have hgathered := (gather_perm minGasPrice maxGasLimit collected ∅).length_eq
  have hreasons := (withReason_perm (gather minGasPrice maxGasLimit collected ∅).2).length_eq
  have hrefused := length_refused minGasPrice maxGasLimit collected
  have hwinners := length_winners (exactly_gathered minGasPrice maxGasLimit collected)
  have hnone : Candidates.txs ∅ = [] := by simp [Candidates.txs]
  rw [hnone, List.append_nil, List.length_append] at hgathered
  simp only [DiscardReason.all, List.flatMap_cons, List.flatMap_nil, List.length_append, List.length_nil] at hreasons
  rw [withReason_gather .gasPriceTooLow (by decide), withReason_gather .gasLimitTooHigh (by decide),
    withReason_gather_eq_nil .staleNonce (by decide) (by decide) (by decide),
    withReason_gather_eq_nil .unaffordable (by decide) (by decide) (by decide),
    withReason_gather_eq_nil .expired (by decide) (by decide) (by decide), List.length_nil] at hreasons
  omega

/-! ## All senders -/

/-- A winner to which the fate is due, by the accounts. -/
def Meets (passed : List Transaction) (m : Accounts) (fate : Fate) (tx : Transaction) : Prop :=
  Winner passed tx ∧ Due (candidate passed tx.sender) (m tx.sender) tx.nonce.toNat fate

theorem Share.met_sublist (s : Share) (fate : Fate) : (s.met fate).Sublist s.txs := by
  cases fate with
  | admitted => exact (List.sublist_append_left _ _).trans (List.sublist_append_left _ _)
  | deferred => exact (List.sublist_append_right _ _).trans (List.sublist_append_left _ _)
  | discarded reason => exact (List.filter_sublist.map _).trans (List.sublist_append_right _ _)

variable {f f' : Contents}

theorem exactly_shares {shares : List (Address × Share)}
    (h : (admitSenders (gather minGasPrice maxGasLimit collected ∅).1.toList).eval f = .ok shares f') (fate : Fate) :
    Exactly (shares.flatMap (·.2.met fate))
      (Meets (passing minGasPrice maxGasLimit collected) (accountsIn f) fate) := by
  have ascending := senders_ascending collected minGasPrice maxGasLimit
  have hjust := admitSenders_just (ascending.imp BitVec.ne_of_lt) (fun _ => lists_gathered) h
  have hall := (exactly_gathered minGasPrice maxGasLimit collected).perm (admitSenders_perm h)
  have howner {share : Address × Share} (hshare : share ∈ shares) {tx : Transaction} (htx : tx ∈ share.2.txs) :
      tx.sender = share.1 := (mem_of_candidate ((hjust share hshare).listed tx htx)).2.1
  constructor
  case nodup =>
    obtain ⟨hnodup, hdisjoint⟩ := List.nodup_flatMap.1 hall.nodup
    refine List.nodup_flatMap.2 ⟨fun share hshare => (hnodup share hshare).sublist (share.2.met_sublist fate), ?_⟩
    exact hdisjoint.imp fun {a b} h tx ha hb => h ((a.2.met_sublist fate).subset ha) ((b.2.met_sublist fate).subset hb)
  case mem_iff =>
    intro tx
    constructor
    · intro htx
      obtain ⟨share, hshare, htx⟩ := List.mem_flatMap.1 htx
      have hlisted := (share.2.met_sublist fate).subset htx
      refine ⟨(hall.mem_iff tx).1 (List.mem_flatMap.2 ⟨share, hshare, hlisted⟩), ?_⟩
      rw [howner hshare hlisted]
      exact (hjust share hshare).due fate tx htx
    · rintro ⟨hwinner, hdue⟩
      obtain ⟨share, hshare, htx⟩ := List.mem_flatMap.1 ((hall.mem_iff tx).2 hwinner)
      obtain ⟨fate', hmet⟩ := Share.mem_txs.1 htx
      rw [howner hshare htx] at hdue
      obtain rfl := ((hjust share hshare).due fate' tx hmet).unique hdue
      exact List.mem_flatMap.2 ⟨share, hshare, hmet⟩

theorem not_due {at? : Nat → Option Transaction} {found : Option Account} {nonce : Nat} {reason : DiscardReason}
    (h : Due at? found nonce (.discarded reason)) : reason = .staleNonce ∨ reason = .unaffordable := by
  cases h with
  | stranger => exact .inr rfl
  | stale => exact .inl rfl
  | overdrawn => exact .inr rfl

variable {admission : Admission}

/-- The winners meet what is due to them, and those that wait are in order. -/
theorem select_met (h : (select collected minGasPrice maxGasLimit).eval f = .ok admission f') :
    Exactly admission.admitted (Meets (passing minGasPrice maxGasLimit collected) (accountsIn f) .admitted) ∧
    Exactly admission.deferred (Meets (passing minGasPrice maxGasLimit collected) (accountsIn f) .deferred) ∧
    (∀ reason, ∃ later, admission.met (.discarded reason)
        = withReason reason (gather minGasPrice maxGasLimit collected ∅).2 ++ later ∧
      Exactly later (Meets (passing minGasPrice maxGasLimit collected) (accountsIn f) (.discarded reason))) ∧
    admission.deferred.Pairwise fun tx tx' =>
      Prod.Lex (· < ·) (· < ·) (tx.sender, tx.nonce) (tx'.sender, tx'.nonce) := by
  obtain ⟨shares, f₁, hshares, hdone⟩ := eval_bind_ok.1 h
  obtain ⟨rfl, rfl⟩ := eval_pure_ok.1 hdone
  have hexactly := exactly_shares hshares
  refine ⟨?_, hexactly .deferred, fun reason => ⟨_, ?_, hexactly (.discarded reason)⟩, ?_⟩
  · refine (hexactly .admitted).perm ((interleave_perm _).trans (.of_eq ?_))
    rw [← List.flatMap_def]
    rfl
  · rw [met, withReason_append]
    congr 1
    simp only [withReason, List.filter_flatMap, List.map_flatMap, Share.met]
  · have ascending := senders_ascending collected minGasPrice maxGasLimit
    have hjust := admitSenders_just (ascending.imp BitVec.ne_of_lt) (fun _ => lists_gathered) hshares
    have hsenders := (admitSenders_shared (ascending.imp BitVec.ne_of_lt) (fun _ => lists_gathered) hshares).1
    have howner {share : Address × Share} (hshare : share ∈ shares) {tx : Transaction}
        (htx : tx ∈ share.2.deferred) : tx.sender = share.1 :=
      (mem_of_candidate ((hjust share hshare).listed tx ((share.2.met_sublist .deferred).subset htx))).2.1
    rw [← hsenders, List.pairwise_map] at ascending
    refine List.pairwise_flatMap.2 ⟨fun share hshare => ?_, ascending.imp_of_mem fun ha hb hless tx htx tx' htx' => ?_⟩
    · refine (hjust share hshare).ascending.imp_of_mem fun htx htx' hless => ?_
      rw [howner hshare htx, howner hshare htx']
      exact .right _ hless
    · rw [howner ha htx, howner hb htx']
      exact .left _ _ hless

theorem met_refused (h : (select collected minGasPrice maxGasLimit).eval f = .ok admission f')
    {reason : DiscardReason} (hstale : reason ≠ .staleNonce) (hunaffordable : reason ≠ .unaffordable) :
    admission.met (.discarded reason) = withReason reason (gather minGasPrice maxGasLimit collected ∅).2 := by
  obtain ⟨later, hmet, hexactly⟩ := (select_met h).2.2.1 reason
  have hnone : later = [] := List.eq_nil_iff_forall_not_mem.2 fun tx htx =>
    (not_due ((hexactly.mem_iff tx).1 htx).2).elim hstale hunaffordable
  rw [hmet, hnone, List.append_nil]

theorem met_winners (h : (select collected minGasPrice maxGasLimit).eval f = .ok admission f')
    {reason : DiscardReason} (hreason : reason = .staleNonce ∨ reason = .unaffordable) :
    Exactly (admission.met (.discarded reason))
      (Meets (passing minGasPrice maxGasLimit collected) (accountsIn f) (.discarded reason)) := by
  obtain ⟨later, hmet, hexactly⟩ := (select_met h).2.2.1 reason
  have hnone : withReason reason (gather minGasPrice maxGasLimit collected ∅).2 = [] := by
    obtain rfl | rfl := hreason <;> exact withReason_gather_eq_nil _ (by decide) (by decide) (by decide) _ _
  rwa [hmet, hnone, List.nil_append]

end

end Admission

/-! ## Meters -/

theorem DiscardReason.label_inj {reason other : DiscardReason} : reason.label = other.label ↔ reason = other := by
  cases reason <;> cases other <;> decide

theorem Tally.count_add {α : Type} [Ord α] [Std.TransOrd α] [Std.LawfulEqOrd α] [DecidableEq α] (t : Tally α)
    (label other : α) (n : Nat) :
    (t.add label n).count other = t.count other + if label = other then n else 0 := by
  unfold add
  split
  next hzero => simp [hzero]
  next =>
    rw [count, Std.ExtTreeMap.getD_insert]
    by_cases hlabel : label = other
    · subst hlabel
      simp [count]
    · simp [hlabel, count]

namespace Meters

theorem count_discard (m : Meters) (reason other : DiscardReason) (n : Nat) :
    (m.discard reason n).discarded.count other.label
      = m.discarded.count other.label + if reason = other then n else 0 := by
  rw [discard, Tally.count_add]
  simp only [DiscardReason.label_inj]

theorem count_admission (m : Meters) (a : Admission) (reason : DiscardReason) :
    (m.admission a).discarded.count reason.label
      = m.discarded.count reason.label + (a.met (.discarded reason)).length := by
  have hcount : (a.met (.discarded reason)).length = a.count reason := by
    rw [Admission.met, Admission.withReason, List.length_map, Admission.count, List.countP_eq_length_filter]
  rw [hcount]
  simp only [admission, DiscardReason.all, List.foldl_cons, List.foldl_nil, count_discard]
  cases reason <;> simp

end Meters

/-! ## The engine -/

theorem Transaction.isTooOld_iff {tx : Transaction} {height : UInt64} :
    tx.isTooOld height = true ↔ min (tx.height.toNat + 10) (UInt64.size - 1) < height.toNat := by
  rw [isTooOld, decide_eq_true_eq, UInt64.lt_iff_toNat_lt, UInt64.toNat_addCapped]
  rfl

/-- What is discarded for a reason when an admission ends at a height. Nothing has expired before. -/
def Admission.gone (a : Admission) (height : UInt64) : DiscardReason → List Transaction
  | .expired => a.deferred.filter (·.isTooOld height)
  | reason => a.met (.discarded reason)

theorem Admission.gone_perm {a : Admission} (hexpired : a.met (.discarded .expired) = []) (height : UInt64) :
    (a.deferred.filter (fun tx => !tx.isTooOld height) ++ DiscardReason.all.flatMap (a.gone height)).Perm
      (a.deferred ++ a.discarded.map (·.tx)) := by
  have hreasons := withReason_perm a.discarded
  have hsplit := List.filter_append_perm (·.isTooOld height) a.deferred
  rw [List.perm_iff_count] at *
  intro other
  specialize hreasons other
  specialize hsplit other
  simp only [DiscardReason.all, List.flatMap_cons, List.flatMap_nil, List.append_nil, List.count_append, gone,
    met] at *
  rw [hexpired, List.count_nil] at hreasons
  omega

namespace Engine

variable {e e' : Engine}

/-- How many transactions the meters show as discarded for the reason. -/
def discards (e : Engine) (reason : DiscardReason) : Nat := e.meters.discarded.count reason.label

section

variable (e : Engine) (minGasPrice : Word) (maxGasLimit : UInt64)

def passing : List Transaction := Admission.passing minGasPrice maxGasLimit e.collected

/-- A winner among what is collected, to which the fate is due. -/
def Meets : Admission.Fate → Transaction → Prop :=
  Admission.Meets (e.passing minGasPrice maxGasLimit) (accountsIn e.contents)

/-- An admission accounts for every collected transaction: it is queued, or still collected afterwards, or among
those discarded for a reason. -/
structure Accounted (queued : List Transaction) (discarded : DiscardReason → List Transaction) (e' : Engine) :
    Prop where
  split : (queued ++ e'.collected ++ DiscardReason.all.flatMap discarded).Perm e.collected
  metered : ∀ reason, e'.discards reason = e.discards reason + (discarded reason).length
  gasPriceTooLow : discarded .gasPriceTooLow = e.collected.filter (·.gasPrice < minGasPrice)
  gasLimitTooHigh : discarded .gasLimitTooHigh
    = e.collected.filter fun tx => minGasPrice ≤ tx.gasPrice ∧ maxGasLimit < tx.gasLimit
  duplicateNonce : (discarded .duplicateNonce).length + (Admission.places (e.passing minGasPrice maxGasLimit)).length
    = (e.passing minGasPrice maxGasLimit).length
  staleNonce : Exactly (discarded .staleNonce) (e.Meets minGasPrice maxGasLimit (.discarded .staleNonce))
  unaffordable : Exactly (discarded .unaffordable) (e.Meets minGasPrice maxGasLimit (.discarded .unaffordable))
  expired : Exactly (discarded .expired) fun tx => e.Meets minGasPrice maxGasLimit .deferred tx ∧
    min (tx.height.toNat + 10) (UInt64.size - 1) < e.lastHeight.toNat
  kept : Exactly e'.collected fun tx => e.Meets minGasPrice maxGasLimit .deferred tx ∧
    ¬ min (tx.height.toNat + 10) (UInt64.size - 1) < e.lastHeight.toNat
  ascending : e'.collected.Pairwise fun tx tx' =>
    Prod.Lex (· < ·) (· < ·) (tx.sender, tx.nonce) (tx'.sender, tx'.nonce)
  admitted : Exactly queued (e.Meets minGasPrice maxGasLimit .admitted)
  appended : ∃ f range, Queue.Appended f range queued e'.contents ∧ ∀ key, Key.IsQueue key → f key = e.contents key
  charged : ∀ sender account, accountsIn e.contents sender = some account → ∃ balance : Word,
    accountsIn e'.contents sender = some { account with balance } ∧
      balance.toNat + escrow (queued.filter (·.sender = sender)) = account.balance.toNat
  strangers : ∀ sender, accountsIn e.contents sender = none → accountsIn e'.contents sender = none
  uncharged : e'.collected.Disjoint queued

end

/-- An admission that does not stop accounts for every collected transaction. -/
theorem prepare_accounts {seed : UInt64} {minGasPrice : Word} {maxGasLimit : UInt64} {touched : List Address}
    (h : prepare seed minGasPrice maxGasLimit e = .ok touched e') :
    ∃ queued discarded, e.Accounted minGasPrice maxGasLimit queued discarded e' := by
  obtain ⟨admission, f, range, queueLength, hselect, happend, -, -, hkept, hmeters⟩ := prepare_inv h
  obtain ⟨hadmitted, hdeferred, -, hascending⟩ := Admission.select_met hselect
  obtain ⟨hchosen, -⟩ := Admission.select_chosen hselect
  obtain ⟨r, happended, -⟩ := Queue.append_ok happend
  have hexpired : admission.met (.discarded .expired) = [] := by
    rw [Admission.met_refused hselect (by decide) (by decide),
      Admission.withReason_gather_eq_nil _ (by decide) (by decide) (by decide)]
  have haccounts := happended.sameState.accountsIn_eq
  refine ⟨admission.admitted, admission.gone e.lastHeight, ?_⟩
  constructor
  case split =>
    rw [hkept, List.append_assoc]
    refine ((Admission.gone_perm hexpired _).append_left _).trans ?_
    rw [← List.append_assoc]
    exact Admission.select_perm hselect
  case metered =>
    intro reason
    rw [discards, hmeters, admissionMeters]
    dsimp only
    rw [Meters.count_discard, Meters.count_admission, Nat.add_assoc]
    congr 1
    cases reason <;> simp [Admission.gone, hexpired]
  case gasPriceTooLow =>
    change admission.met (.discarded .gasPriceTooLow) = _
    rw [Admission.met_refused hselect (by decide) (by decide), Admission.withReason_gather _ (by decide)]
    simp only [Admission.refusal?_price]
  case gasLimitTooHigh =>
    change admission.met (.discarded .gasLimitTooHigh) = _
    rw [Admission.met_refused hselect (by decide) (by decide), Admission.withReason_gather _ (by decide)]
    simp only [Admission.refusal?_limit]
  case duplicateNonce =>
    change (admission.met (.discarded .duplicateNonce)).length + _ = _
    rw [Admission.met_refused hselect (by decide) (by decide)]
    exact Admission.length_beaten minGasPrice maxGasLimit e.collected
  case staleNonce => exact Admission.met_winners hselect (.inl rfl)
  case unaffordable => exact Admission.met_winners hselect (.inr rfl)
  case expired => exact hdeferred.filter fun tx => Transaction.isTooOld_iff
  case kept =>
    rw [hkept]
    refine hdeferred.filter fun tx => ?_
    rw [← Transaction.isTooOld_iff, Bool.not_eq_true', Bool.not_eq_true]
  case ascending =>
    rw [hkept]
    exact hascending.sublist List.filter_sublist
  case admitted => exact hadmitted
  case appended =>
    refine ⟨f, r, happended, fun key hkey => ?_⟩
    exact eval_avoids hselect (Admission.select_avoids (fun k hk => Key.not_isQueue_of_isState hk) _ _ _ _) hkey
  case charged =>
    rw [haccounts]
    exact hchosen.charged
  case strangers =>
    intro sender hstranger
    have hkey : f (Key.account sender).bytes = e.contents (Key.account sender).bytes := by
      refine hchosen.elsewhere _ fun owner howner heq => ?_
      rw [← Key.account_bytes_inj heq] at howner
      exact (hchosen.touched sender).1 howner (hchosen.stranger sender hstranger)
    rw [haccounts, ← hstranger, accountsIn, accountsIn, hkey]
  case uncharged =>
    intro tx hwaits hqueued
    rw [hkept] at hwaits
    have hwaiting := ((hdeferred.mem_iff tx).1 (List.mem_filter.1 hwaits).1).2
    cases hwaiting.unique ((hadmitted.mem_iff tx).1 hqueued).2

/-- Two accounts, and collected transactions that meet every fate. -/
def withFates : Engine :=
  let early := { Rounds.transfer 2 with sender := 2 }
  { runner := Rounds.stakingRunner
    desk :=
      { node :=
          { view :=
              { base := (∅ : Store)
                  |>.insert (Key.account 1).bytes (Account.encode { balance := 150000, nonce := 1 })
                  |>.insert (Key.account 2).bytes (Account.encode { balance := 150000 }) } } }
    collected :=
      [{ Rounds.transfer 1 with gasPrice := 0 }, { Rounds.transfer 1 with gasLimit := 100001 }, Rounds.transfer 0,
        Rounds.transfer 1, { Rounds.transfer 1 with value := 200 }, Rounds.transfer 2, Rounds.transfer 3,
        { Rounds.transfer 0 with sender := 3 }, early, { early with nonce := 1, height := 2 }]
    lastHeight := 12 }

theorem withFates_accounted : ∃ touched e' queued discarded,
    prepare 0 1 100000 withFates = .ok touched e' ∧ withFates.Accounted 1 100000 queued discarded e' ∧
    e'.collected = [{ Rounds.transfer 1 with sender := 2, height := 2 }] ∧
    DiscardReason.all.map e'.discards = [1, 1, 1, 1, 3, 1] := by
  have htest : endsWith (prepare 0 1 100000 withFates) (fun _ e' =>
      e'.collected == [{ Rounds.transfer 1 with sender := 2, height := 2 }] &&
      DiscardReason.all.map e'.discards == [1, 1, 1, 1, 3, 1]) = true := by
    decide +kernel
  obtain ⟨touched, e', hprepare, htest⟩ := endsWith_iff.1 htest
  simp only [Bool.and_eq_true, beq_iff_eq] at htest
  obtain ⟨queued, discarded, haccounted⟩ := prepare_accounts hprepare
  exact ⟨touched, e', queued, discarded, hprepare, haccounted, htest⟩

end Engine

end RoundLedger
