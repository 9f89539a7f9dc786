import RoundLedger.Proofs.Fates
import RoundLedger.Proofs.Identity

/-!
# Arrival order

Admission goes through the transactions in the order in which they were collected. The order shows only where two
of them are tied, with one sender, nonce and hash. The hash leaves out the height: a transaction that was collected
at two heights is tied with itself, and what arrives first is kept, with its height.
-/

namespace RoundLedger

open Step Program State

/-! ## Content -/

namespace Transaction

def withoutHeight (tx : Transaction) : Transaction := { tx with height := 0 }

/-- The content is all that there is to a transaction, but for its height. -/
theorem withoutHeight_eq_of_content {tx tx' : Transaction} (h : tx.content = tx'.content) :
    tx.withoutHeight = tx'.withoutHeight := by
  obtain ⟨hsender, hdestination, hnonce, hvalue, hgasPrice, hgasLimit, hdata⟩ := agree_of_content h
  simp only [withoutHeight, hsender, hdestination, hnonce, hvalue, hgasPrice, hgasLimit, hdata]

end Transaction

namespace Admission

/-! ## Seeing -/

/-- A way of seeing transactions that shows what is decided by. -/
structure Faithful (φ : Transaction → Transaction) : Prop where
  nonce : ∀ tx, (φ tx).nonce = tx.nonce
  maxFee : ∀ tx, (φ tx).maxFee = tx.maxFee

theorem faithful_id : Faithful id := ⟨fun _ => rfl, fun _ => rfl⟩

theorem faithful_withoutHeight : Faithful Transaction.withoutHeight := ⟨fun _ => rfl, fun _ => rfl⟩

variable {φ : Transaction → Transaction}

def Share.seen (φ : Transaction → Transaction) (s : Share) : Share :=
  { s with
    run := s.run.map φ
    deferred := s.deferred.map φ
    discarded := s.discarded.map fun discard => ⟨discard.reason, φ discard.tx⟩ }

def Nonces.seen (φ : Transaction → Transaction) (nonces : Nonces) : Nonces := nonces.map fun _ tx => φ tx

def Candidates.seen (φ : Transaction → Transaction) (candidates : Candidates) : Candidates :=
  candidates.map fun _ nonces => nonces.seen φ

/-- What an admission shows. Of the discarded transactions only the number for each reason is known. -/
structure Outcome where
  admitted : List Transaction
  deferred : List Transaction
  touched : List Address
  count : DiscardReason → Nat

def outcome (φ : Transaction → Transaction) (a : Admission) : Outcome where
  admitted := a.admitted.map φ
  deferred := a.deferred.map φ
  touched := a.touched
  count := a.count

/-! ## Shares -/

section

variable (s : Share) (tx : Transaction)

@[simp] theorem Share.seen_balance : (s.seen φ).balance = s.balance := rfl

@[simp] theorem Share.seen_nextNonce : (s.seen φ).nextNonce = s.nextNonce := rfl

@[simp] theorem Share.seen_phase : (s.seen φ).phase = s.phase := rfl

theorem Share.seen_discard (reason : DiscardReason) :
    (s.seen φ).discard reason (φ tx) = (s.discard reason tx).seen φ := by
  simp [seen, discard]

theorem Share.seen_defer : (s.seen φ).defer (φ tx) = (s.defer tx).seen φ := by
  simp [seen, defer]

end

section

variable (faithful : Faithful φ)

include faithful

theorem Share.charge_seen (s : Share) (tx : Transaction) :
    (s.seen φ).charge (φ tx) = (s.charge tx).map (Share.seen φ) := by
  unfold charge
  rw [faithful.maxFee, s.seen_discard, s.seen_balance, s.seen_nextNonce]
  cases tx.maxFee with
  | none => rfl
  | some fee =>
    by_cases hless : s.balance < fee
    · simp only [hless, if_true]
      rfl
    · simp only [hless, if_false]
      cases s.nextNonce.add? 1 with
      | none => rfl
      | some nextNonce => simp [Except.map, seen]

theorem Share.take_seen (s : Share) (tx : Transaction) :
    (s.seen φ).take (φ tx) = (s.take tx).map (Share.seen φ) := by
  unfold take
  rw [faithful.nonce, s.seen_discard, s.seen_discard, s.seen_defer, s.charge_seen faithful, s.seen_nextNonce,
    s.seen_phase]
  by_cases hstale : tx.nonce < s.nextNonce
  · simp only [hstale, if_true]
    rfl
  · simp only [hstale, if_false]
    cases s.phase with
    | broke => rfl
    | waiting => rfl
    | running =>
      dsimp only
      split <;> rfl

theorem Share.foldlM_seen (s : Share) (txs : List Transaction) :
    (txs.map φ).foldlM take (s.seen φ) = (txs.foldlM take s).map (Share.seen φ) := by
  induction txs generalizing s with
  | nil => rfl
  | cons tx rest ih =>
    rw [List.map_cons, List.foldlM_cons, List.foldlM_cons, s.take_seen faithful]
    cases s.take tx with
    | error fault => rfl
    | ok next => exact ih next

theorem admitSender_seen (sender : Address) (txs : List Transaction) :
    Share.seen φ <$> admitSender sender txs = admitSender sender (txs.map φ) := by
  unfold admitSender
  rw [map_bind]
  congr 1
  funext found
  cases found with
  | none =>
    simp only [map_pure, Share.seen, List.map_map]
    rfl
  | some account =>
    have hfold : (txs.map φ).foldlM Share.take { balance := account.balance, nextNonce := account.nonce }
        = (txs.foldlM Share.take { balance := account.balance, nextNonce := account.nonce }).map (Share.seen φ) :=
      Share.foldlM_seen faithful { balance := account.balance, nextNonce := account.nonce } txs
    dsimp only
    rw [hfold, map_bind]
    cases txs.foldlM Share.take { balance := account.balance, nextNonce := account.nonce } with
    | error fault => rfl
    | ok share =>
      change Share.seen φ <$> (if share.run ≠ [] then (_ : Program Share) else _)
        = if share.run.map φ ≠ [] then _ else _
      by_cases hrun : share.run = []
      · rw [if_neg (not_not.2 hrun), if_neg (not_not.2 (by rw [hrun, List.map_nil])), map_pure]
      · rw [if_pos hrun, if_pos (by rwa [ne_eq, List.map_eq_nil_iff]), map_bind]
        rfl

theorem admitSenders_seen (candidates : List (Address × Nonces)) :
    List.map (fun share => (share.1, share.2.seen φ)) <$> admitSenders candidates
      = admitSenders (candidates.map fun entry => (entry.1, entry.2.seen φ)) := by
  induction candidates with
  | nil => rfl
  | cons entry rest ih =>
    obtain ⟨sender, nonces⟩ := entry
    have htxs : (nonces.seen φ).toList.map (·.2) = (nonces.toList.map (·.2)).map φ := by
      rw [Nonces.seen, Std.ExtTreeMap.toList_map, List.map_map, List.map_map]
      rfl
    rw [List.map_cons, admitSenders, admitSenders, htxs, ← admitSender_seen faithful, ← ih]
    simp only [map_bind, bind_map_left, map_pure, List.map_cons]

end

/-! ## Candidates -/

/-- Transactions that are tied look the same. -/
def TiedAlike (φ : Transaction → Transaction) (passed : List Transaction) : Prop :=
  ∀ tx ∈ passed, ∀ tx' ∈ passed, tx.sender = tx'.sender → tx.nonce = tx'.nonce → tx.hash = tx'.hash → φ tx = φ tx'

theorem candidate_perm {passed passed' : List Transaction} (hperm : passed.Perm passed')
    (alike : TiedAlike φ passed) (sender : Address) (nonce : Nat) :
    (candidate passed sender nonce).map φ = (candidate passed' sender nonce).map φ := by
  have hnone {passed passed' : List Transaction} (hperm : passed.Perm passed')
      (h : candidate passed sender nonce = none) : candidate passed' sender nonce = none := by
    rw [candidate, List.argmin_eq_none] at h ⊢
    exact List.Perm.nil_eq (h ▸ hperm.filter _) |>.symm
  cases h : candidate passed sender nonce with
  | none => rw [hnone hperm h]
  | some tx =>
    cases h' : candidate passed' sender nonce with
    | none =>
      rw [hnone hperm.symm h'] at h
      cases h
    | some tx' =>
      -- both have the lowest hash of the same transactions
      obtain ⟨hmem, hsender, hnonce⟩ := mem_of_candidate h
      obtain ⟨hmem', hsender', hnonce'⟩ := mem_of_candidate h'
      have hle := List.le_of_mem_argmin ((hperm.filter _).mem_iff.2 (List.argmin_mem h')) h
      have hle' := List.le_of_mem_argmin ((hperm.filter _).mem_iff.1 (List.argmin_mem h)) h'
      have hhash : tx.hash = tx'.hash := BitVec.eq_of_toNat_eq (Nat.le_antisymm hle hle')
      exact congrArg some (alike tx hmem tx' (hperm.mem_iff.2 hmem') (hsender.trans hsender'.symm)
        (UInt64.toNat_inj.1 (hnonce.trans hnonce'.symm)) hhash)

/-- No sender is without candidates. -/
def Candidates.Occupied (candidates : Candidates) : Prop :=
  ∀ (sender : Address) (nonces : Nonces), candidates[sender]? = some nonces →
    ∃ nonce : UInt64, (nonces[nonce]?).isSome

theorem Candidates.Occupied.insert {candidates : Candidates} (h : candidates.Occupied) (sender : Address)
    (nonces : Nonces) (nonce : UInt64) (tx : Transaction) :
    Candidates.Occupied (candidates.insert sender (nonces.insert nonce tx)) := by
  intro address nonces' hnonces'
  rw [Std.ExtTreeMap.getElem?_insert] at hnonces'
  split at hnonces'
  · cases hnonces'
    exact ⟨nonce, by rw [Std.ExtTreeMap.getElem?_insert_self, Option.isSome_some]⟩
  · exact h address nonces' hnonces'

theorem gather_occupied {minGasPrice : Word} {maxGasLimit : UInt64} (collected : List Transaction)
    {candidates : Candidates} (h : candidates.Occupied) :
    (gather minGasPrice maxGasLimit collected candidates).1.Occupied := by
  induction collected generalizing candidates with
  | nil => exact h
  | cons tx rest ih =>
    unfold gather
    dsimp only
    split
    · exact ih h
    · split
      · exact ih h
      · refine ih ?_
        unfold enter
        dsimp only
        split <;> exact h.insert _ _ _ _

theorem Candidates.seen_eq {candidates candidates' : Candidates} (occupied : candidates.Occupied)
    (occupied' : candidates'.Occupied)
    (h : ∀ sender nonce, (candidates.at? sender nonce).map φ = (candidates'.at? sender nonce).map φ) :
    candidates.seen φ = candidates'.seen φ := by
  refine Std.ExtTreeMap.ext_getElem? fun sender => ?_
  have hat (candidates : Candidates) (nonce : UInt64) :
      candidates.at? sender nonce = (candidates[sender]?.getD ∅)[nonce]? := by
    rw [Candidates.at?, Std.ExtTreeMap.getD_eq_getD_getElem?]
  specialize h sender
  simp only [hat] at h
  rw [seen, seen, Std.ExtTreeMap.getElem?_map, Std.ExtTreeMap.getElem?_map]
  cases hnonces : candidates[sender]? with
  | none =>
    cases hnonces' : candidates'[sender]? with
    | none => rfl
    | some nonces' =>
      obtain ⟨nonce, hsome⟩ := occupied' sender nonces' hnonces'
      have hnone := h nonce
      obtain ⟨tx, htx⟩ := Option.isSome_iff_exists.1 hsome
      simp [hnonces, hnonces', htx] at hnone
  | some nonces =>
    cases hnonces' : candidates'[sender]? with
    | none =>
      obtain ⟨nonce, hsome⟩ := occupied sender nonces hnonces
      have hnone := h nonce
      obtain ⟨tx, htx⟩ := Option.isSome_iff_exists.1 hsome
      simp [hnonces, hnonces', htx] at hnone
    | some nonces' =>
      refine congrArg some (Std.ExtTreeMap.ext_getElem? fun nonce => ?_)
      have hsame := h nonce
      rw [hnonces, hnonces'] at hsame
      change (nonces.map fun _ tx => φ tx)[nonce]? = (nonces'.map fun _ tx => φ tx)[nonce]?
      rw [Std.ExtTreeMap.getElem?_map, Std.ExtTreeMap.getElem?_map]
      exact hsame

/-! ## All senders -/

theorem interleave_map {α β : Type} (g : α → β) (runs : List (List α)) :
    interleave (runs.map (List.map g)) = (interleave runs).map g := by
  unfold interleave
  simp only [List.foldl_map, List.length_map, List.map_flatMap, List.filterMap_map, List.map_filterMap]
  congr 1
  funext level
  congr 1
  funext run
  simp

/-- What is made of the shares. -/
def assemble (discarded : List Discard) (shares : List (Address × Share)) : Admission where
  admitted := interleave (shares.map (·.2.run))
  deferred := shares.flatMap (·.2.deferred)
  touched := (shares.filter (·.2.run ≠ [])).map (·.1)
  discarded := discarded ++ shares.flatMap (·.2.discarded)

theorem select_eq (collected : List Transaction) (minGasPrice : Word) (maxGasLimit : UInt64) :
    select collected minGasPrice maxGasLimit = assemble (gather minGasPrice maxGasLimit collected ∅).2
      <$> admitSenders (gather minGasPrice maxGasLimit collected ∅).1.toList := by
  rw [← bind_pure_comp]
  rfl

theorem outcome_assemble (φ : Transaction → Transaction) {discarded discarded' : List Discard}
    (hcount : ∀ reason, (withReason reason discarded).length = (withReason reason discarded').length)
    (shares : List (Address × Share)) :
    outcome φ (assemble discarded shares)
      = outcome id (assemble discarded' (shares.map fun share => (share.1, share.2.seen φ))) := by
  unfold outcome assemble
  congr 1
  · rw [List.map_id, ← interleave_map, List.map_map, List.map_map]
    rfl
  · rw [List.map_id, List.map_flatMap, List.flatMap_map]
    rfl
  · have hsame : shares.filter (·.2.run ≠ []) = shares.filter fun share => (share.2.seen φ).run ≠ [] :=
      List.filter_congr fun share _ => by simp [Share.seen]
    dsimp only
    rw [hsame, List.filter_map, List.map_map]
    rfl
  · funext reason
    have hgathered := hcount reason
    rw [withReason, withReason, List.length_map, List.length_map, ← List.countP_eq_length_filter,
      ← List.countP_eq_length_filter] at hgathered
    rw [count, count, List.countP_append, List.countP_append, hgathered, List.flatMap_map, List.countP_flatMap,
      List.countP_flatMap]
    simp only [Share.seen, Function.comp_def, List.countP_map]

/-! ## Orders -/

theorem places_perm {passed passed' : List Transaction} (hperm : passed.Perm passed') :
    (places passed).Perm (places passed') := (hperm.map _).dedup

theorem length_gather_perm (minGasPrice : Word) (maxGasLimit : UInt64) {collected collected' : List Transaction}
    (hperm : collected.Perm collected') (reason : DiscardReason) :
    (withReason reason (gather minGasPrice maxGasLimit collected ∅).2).length
      = (withReason reason (gather minGasPrice maxGasLimit collected' ∅).2).length := by
  by_cases hreason : reason = .duplicateNonce
  · subst hreason
    have hbeaten := length_beaten minGasPrice maxGasLimit collected
    have hbeaten' := length_beaten minGasPrice maxGasLimit collected'
    have hpassed : (passing minGasPrice maxGasLimit collected).Perm (passing minGasPrice maxGasLimit collected') :=
      hperm.filter _
    have hlength := hpassed.length_eq
    have hplaces := (places_perm hpassed).length_eq
    omega
  · rw [withReason_gather reason hreason, withReason_gather reason hreason]
    exact (hperm.filter _).length_eq

/-- Admission is the same program for every order, as far as it can be seen without telling ties apart. -/
theorem outcome_perm {φ : Transaction → Transaction} (faithful : Faithful φ) (minGasPrice : Word)
    (maxGasLimit : UInt64) {collected collected' : List Transaction} (hperm : collected.Perm collected')
    (alike : TiedAlike φ (passing minGasPrice maxGasLimit collected)) :
    outcome φ <$> select collected minGasPrice maxGasLimit
      = outcome φ <$> select collected' minGasPrice maxGasLimit := by
  have hcandidates : (gather minGasPrice maxGasLimit collected ∅).1.seen φ
      = (gather minGasPrice maxGasLimit collected' ∅).1.seen φ := by
    have hnone : Candidates.Occupied ∅ := fun sender nonces h => by simp at h
    refine Candidates.seen_eq (gather_occupied collected hnone) (gather_occupied collected' hnone) fun sender nonce => ?_
    rw [at?_gathered, at?_gathered]
    exact candidate_perm (hperm.filter _) alike sender nonce.toNat
  have hseen (collected' : List Transaction) (hperm : collected.Perm collected') :
      outcome φ <$> select collected' minGasPrice maxGasLimit
        = (fun shares => outcome id (assemble (gather minGasPrice maxGasLimit collected ∅).2 shares))
          <$> admitSenders ((gather minGasPrice maxGasLimit collected' ∅).1.seen φ).toList := by
    rw [select_eq, Candidates.seen, Std.ExtTreeMap.toList_map, ← admitSenders_seen faithful, Functor.map_map,
      Functor.map_map]
    congr 1
    funext shares
    exact outcome_assemble φ (length_gather_perm minGasPrice maxGasLimit hperm.symm) shares
  rw [hseen collected (.refl _), hseen collected' hperm, hcandidates]

/-- Where no two hashes collide, the order of the collected transactions shows only in the heights of those that are
admitted or deferred, and not there when none was collected at two heights. What is left of the contents, and the
fault when admission stops, are the same for every order. -/
theorem arrival_unseen (minGasPrice : Word) (maxGasLimit : UInt64) {collected collected' : List Transaction}
    (hperm : collected.Perm collected')
    (apart : ∀ tx ∈ passing minGasPrice maxGasLimit collected, ∀ tx' ∈ passing minGasPrice maxGasLimit collected,
      tx.hash = tx'.hash → tx.content = tx'.content) (f : Contents) :
    (outcome Transaction.withoutHeight <$> select collected minGasPrice maxGasLimit).eval f
      = (outcome Transaction.withoutHeight <$> select collected' minGasPrice maxGasLimit).eval f ∧
    ((∀ tx ∈ passing minGasPrice maxGasLimit collected, ∀ tx' ∈ passing minGasPrice maxGasLimit collected,
        tx.content = tx'.content → tx.height = tx'.height) →
      (outcome id <$> select collected minGasPrice maxGasLimit).eval f
        = (outcome id <$> select collected' minGasPrice maxGasLimit).eval f) := by
  constructor
  · have alike : TiedAlike Transaction.withoutHeight (passing minGasPrice maxGasLimit collected) :=
      fun tx htx tx' htx' _ _ hhash => Transaction.withoutHeight_eq_of_content (apart tx htx tx' htx' hhash)
    rw [outcome_perm faithful_withoutHeight minGasPrice maxGasLimit hperm alike]
  · intro heights
    have alike : TiedAlike id (passing minGasPrice maxGasLimit collected) := by
      intro tx htx tx' htx' _ _ hhash
      have hcontent := apart tx htx tx' htx' hhash
      have hsame := Transaction.withoutHeight_eq_of_content hcontent
      have hheight := heights tx htx tx' htx' hcontent
      obtain ⟨sender, destination, nonce, value, gasPrice, gasLimit, data, height⟩ := tx
      obtain ⟨sender', destination', nonce', value', gasPrice', gasLimit', data', height'⟩ := tx'
      simp only [Transaction.withoutHeight, Transaction.mk.injEq] at hsame
      obtain ⟨rfl, rfl, rfl, rfl, rfl, rfl, rfl, -⟩ := hsame
      obtain rfl : height = height' := hheight
      rfl
    rw [outcome_perm faithful_id minGasPrice maxGasLimit hperm alike]

/-- Two transactions for one nonce, and one for the next. -/
def rivals : List Transaction := [Rounds.transfer 0, { Rounds.transfer 0 with value := 200 }, Rounds.transfer 1]

theorem rivals_unseen : ∃ admission f',
    (outcome id <$> select rivals 0 100000).eval oneAccount = .ok admission f' ∧
    (outcome id <$> select rivals.reverse 0 100000).eval oneAccount = .ok admission f' ∧
    admission.admitted.length = 2 ∧ admission.count .duplicateNonce = 1 := by
  have htest : endsWith ((outcome id <$> select rivals 0 100000).eval oneAccount) (fun admission _ =>
      admission.admitted.length == 2 && admission.count .duplicateNonce == 1) = true := by
    decide +kernel
  have hdistinct : ((passing 0 100000 rivals).map (·.hash)).Nodup := by decide +kernel
  have hsame := (arrival_unseen 0 100000 (List.reverse_perm rivals).symm (fun tx htx tx' htx' hhash =>
    congrArg _ (List.inj_on_of_nodup_map hdistinct htx htx' hhash)) oneAccount).2 (by decide)
  obtain ⟨admission, f', hselect, htest⟩ := endsWith_iff.1 htest
  simp only [Bool.and_eq_true, beq_iff_eq] at htest
  exact ⟨admission, f', hselect, hsame.symm.trans hselect, htest⟩

/-- One transaction that was collected at two heights. -/
def twice : List Transaction :=
  [{ Rounds.transfer 0 with height := 1 }, { Rounds.transfer 0 with height := 2 }]

/-- The height that arrives first is kept. -/
theorem twice_seen : twice.reverse.Perm twice ∧ ∃ a f a' f',
    (select twice 0 100000).eval oneAccount = .ok a f ∧ (select twice.reverse 0 100000).eval oneAccount = .ok a' f' ∧
    a.admitted = [{ Rounds.transfer 0 with height := 1 }] ∧
    a'.admitted = [{ Rounds.transfer 0 with height := 2 }] := by
  have htest : endsWith ((select twice 0 100000).eval oneAccount) (fun a _ =>
      a.admitted == [{ Rounds.transfer 0 with height := 1 }]) = true := by
    decide +kernel
  have htest' : endsWith ((select twice.reverse 0 100000).eval oneAccount) (fun a _ =>
      a.admitted == [{ Rounds.transfer 0 with height := 2 }]) = true := by
    decide +kernel
  obtain ⟨a, f, hselect, hadmitted⟩ := endsWith_iff.1 htest
  obtain ⟨a', f', hselect', hadmitted'⟩ := endsWith_iff.1 htest'
  exact ⟨List.reverse_perm _, a, f, a', f', hselect, hselect', beq_iff_eq.1 hadmitted, beq_iff_eq.1 hadmitted'⟩

end Admission

end RoundLedger
