import Mathlib.Data.List.MinMax
import RoundLedger.Proofs.Admission
import RoundLedger.Proofs.Records
import RoundLedger.Proofs.Serial
import RoundLedger.Proofs.Stops

/-!
# What admission selects

Of the transactions of a sender with one nonce, the one with the lowest hash is the candidate. A sender gets
its candidates admitted from the nonce of its account on, one nonce after the other, as long as there is one
and the balance covers the fees of all of them.
-/

namespace RoundLedger

open Step Program State

/-- The fee of a transaction without a largest fee does not fit a word. -/
theorem Transaction.le_prepaid (tx : Transaction) (h : tx.maxFee = none) : 2 ^ 256 ≤ tx.prepaid := by
  unfold maxFee BitVec.mul? at h
  split at h
  next hover =>
    have hlt := tx.gasLimit.toNat_lt
    have hgas : (BitVec.ofNat 256 tx.gasLimit.toNat).toNat = tx.gasLimit.toNat := by
      rw [BitVec.toNat_ofNat, Nat.mod_eq_of_lt (by omega)]
    unfold BitVec.umulOverflow at hover
    rwa [hgas, decide_eq_true_eq, ge_iff_le] at hover
  next => cases h

namespace Admission

/-! ## Candidates -/

/-- The transactions that pass both gas filters, in the order in which they were collected. -/
def passing (minGasPrice : Word) (maxGasLimit : UInt64) (collected : List Transaction) : List Transaction :=
  collected.filter fun tx => minGasPrice ≤ tx.gasPrice ∧ tx.gasLimit ≤ maxGasLimit

/-- The transaction with the lowest hash, the first of them if several have it. -/
def candidate (passed : List Transaction) (sender : Address) (nonce : Nat) : Option Transaction :=
  (passed.filter fun tx => tx.sender = sender ∧ tx.nonce.toNat = nonce).argmin (·.hash.toNat)

variable {passed : List Transaction} {tx : Transaction} {sender : Address} {nonce : Nat}

theorem mem_of_candidate (h : candidate passed sender nonce = some tx) :
    tx ∈ passed ∧ tx.sender = sender ∧ tx.nonce.toNat = nonce := by
  have hmem := List.argmin_mem h
  simpa using hmem

/-- A later transaction is chosen against the candidate so far. -/
theorem candidate_append (tx : Transaction) :
    candidate (passed ++ [tx]) sender nonce
      = if tx.sender = sender ∧ tx.nonce.toNat = nonce then
          some ((candidate passed sender nonce).elim tx fun held => (choose held tx).1)
        else candidate passed sender nonce := by
  unfold candidate
  rw [List.filter_append]
  split
  next hplace =>
    rw [List.filter_singleton, decide_eq_true hplace, cond_true, List.argmin_concat]
    cases List.argmin (·.hash.toNat) (passed.filter fun tx => tx.sender = sender ∧ tx.nonce.toNat = nonce) with
    | none => rfl
    | some held =>
      simp only [Option.elim_some, choose, BitVec.lt_def]
      split <;> rfl
  next hplace => rw [List.filter_singleton, decide_eq_false hplace, cond_false, List.append_nil]

/-- The candidate that was gathered under a sender and a nonce. -/
def Candidates.at? (candidates : Candidates) (sender : Address) (nonce : UInt64) : Option Transaction :=
  (candidates.getD sender ∅)[nonce]?

theorem at?_insert (candidates : Candidates) (tx : Transaction) (owner sender : Address) (key nonce : UInt64) :
    Candidates.at? (candidates.insert owner ((candidates.getD owner ∅).insert key tx)) sender nonce
      = if owner = sender ∧ key = nonce then some tx else candidates.at? sender nonce := by
  unfold Candidates.at?
  rw [Std.ExtTreeMap.getD_insert]
  by_cases hsender : owner = sender
  · subst hsender
    simp [Std.ExtTreeMap.getElem?_insert]
  · simp [hsender]

theorem at?_enter (candidates : Candidates) (tx : Transaction) (sender : Address) (nonce : UInt64) :
    (enter candidates tx).1.at? sender nonce
      = if tx.sender = sender ∧ tx.nonce = nonce then
          some ((candidates.at? sender nonce).elim tx fun held => (choose held tx).1)
        else candidates.at? sender nonce := by
  unfold enter
  dsimp only
  split
  next hnone =>
    rw [at?_insert]
    refine if_ctx_congr Iff.rfl (fun hplace => ?_) fun _ => rfl
    rw [← hplace.1, ← hplace.2, Candidates.at?, hnone, Option.elim_none]
  next held hheld =>
    rw [at?_insert]
    refine if_ctx_congr Iff.rfl (fun hplace => ?_) fun _ => rfl
    rw [← hplace.1, ← hplace.2, Candidates.at?, hheld, Option.elim_some]

/-- Gathering goes on from the candidates among the transactions that came before. -/
theorem at?_gather {minGasPrice : Word} {maxGasLimit : UInt64} (collected : List Transaction)
    {candidates : Candidates}
    (h : ∀ sender nonce, candidates.at? sender nonce = candidate passed sender nonce.toNat)
    (sender : Address) (nonce : UInt64) :
    (gather minGasPrice maxGasLimit collected candidates).1.at? sender nonce
      = candidate (passed ++ passing minGasPrice maxGasLimit collected) sender nonce.toNat := by
  induction collected generalizing passed candidates with
  | nil => rw [gather, passing, List.filter_nil, List.append_nil, h]
  | cons tx rest ih =>
    unfold gather
    dsimp only
    by_cases hpasses : minGasPrice ≤ tx.gasPrice ∧ tx.gasLimit ≤ maxGasLimit
    · have hsplit : passed ++ passing minGasPrice maxGasLimit (tx :: rest)
          = passed ++ [tx] ++ passing minGasPrice maxGasLimit rest := by
        simp [passing, hpasses]
      rw [if_neg (BitVec.not_lt.2 hpasses.1), if_neg (UInt64.not_lt.2 hpasses.2), hsplit]
      refine ih fun sender nonce => ?_
      rw [at?_enter, candidate_append, h]
      simp only [UInt64.toNat_inj]
    · have hskip : passing minGasPrice maxGasLimit (tx :: rest) = passing minGasPrice maxGasLimit rest :=
        List.filter_cons_of_neg (by simpa using hpasses)
      rw [hskip]
      split
      next => exact ih h
      next hprice =>
        rw [if_pos (UInt64.not_le.1 fun hlimit => hpasses ⟨BitVec.not_lt.1 hprice, hlimit⟩)]
        exact ih h

/-! ## Runs -/

section

variable (at? : Nat → Option Transaction) (account : Account)

/-- Candidates at the nonces from that of the account on, with fees that its balance covers. -/
structure Affordable (run : List Transaction) : Prop where
  consecutive : ∀ (i : Nat) (tx : Transaction), run[i]? = some tx → at? (account.nonce.toNat + i) = some tx
  covered : escrow run ≤ account.balance.toNat

structure Longest (run : List Transaction) : Prop extends Affordable at? account run where
  longest : ∀ other, Affordable at? account other → other.length ≤ run.length

/-- The last nonce that there is would be used up. -/
def Exhausts : Prop := ∃ run, Longest at? account run ∧ ∃ tx ∈ run, tx.nonce.toNat + 1 = UInt64.size

end

section

variable {at? : Nat → Option Transaction} {account : Account} {run other : List Transaction}

theorem Affordable.isPrefix (h : Affordable at? account run) (hother : Affordable at? account other)
    (hlength : run.length ≤ other.length) : run <+: other := by
  rw [List.prefix_iff_getElem?]
  intro i hi
  have hrun := h.consecutive i _ (List.getElem?_eq_getElem hi)
  have hsome := hother.consecutive i _ (List.getElem?_eq_getElem (Nat.lt_of_lt_of_le hi hlength))
  rw [List.getElem?_eq_getElem (Nat.lt_of_lt_of_le hi hlength), ← hsome, hrun]

theorem Longest.unique (h : Longest at? account run) (hother : Longest at? account other) : run = other := by
  have hlength : run.length = other.length :=
    Nat.le_antisymm (hother.longest _ h.toAffordable) (h.longest _ hother.toAffordable)
  exact (h.toAffordable.isPrefix hother.toAffordable hlength.le).eq_of_length hlength

theorem Affordable.snoc (h : Affordable at? account run) (hnext : at? (account.nonce.toNat + run.length) = some tx)
    (hcovered : escrow (run ++ [tx]) ≤ account.balance.toNat) : Affordable at? account (run ++ [tx]) := by
  refine ⟨fun i tx' htx' => ?_, hcovered⟩
  rcases Nat.lt_trichotomy i run.length with hlt | rfl | hgt
  · exact h.consecutive i tx' (by rwa [List.getElem?_append_left hlt] at htx')
  · rw [List.getElem?_concat_length] at htx'
    rwa [← htx']
  · rw [List.getElem?_eq_none (by simpa using Nat.succ_le_of_lt hgt)] at htx'
    cases htx'

/-- A run is the longest one when it cannot go on with the next candidate. -/
theorem Affordable.longest (h : Affordable at? account run)
    (stuck : ∀ tx, at? (account.nonce.toNat + run.length) = some tx →
      account.balance.toNat < escrow (run ++ [tx])) : Longest at? account run := by
  refine ⟨h, fun other hother => Nat.not_lt.1 fun hlonger => ?_⟩
  obtain ⟨rest, rfl⟩ := h.isPrefix hother hlonger.le
  cases rest with
  | nil => simp at hlonger
  | cons tx rest =>
    have hnext := hother.consecutive run.length tx (by simp)
    have hless := stuck tx hnext
    have hcovered := hother.covered
    rw [List.append_cons, escrow_append] at hcovered
    omega

end

/-! ## One sender -/

/-- The candidates at all nonces, by ascending nonce. -/
structure Lists (at? : Nat → Option Transaction) (txs : List Transaction) : Prop where
  ascending : txs.Pairwise (·.nonce < ·.nonce)
  mem_iff : ∀ nonce tx, at? nonce = some tx ↔ tx ∈ txs ∧ tx.nonce.toNat = nonce

section

variable {at? : Nat → Option Transaction} {account : Account} {taken rest : List Transaction} {s s' : Share}
  {fault : Fault}

theorem Affordable.nonce_eq {run : List Transaction} (lists : Lists at? taken) (h : Affordable at? account run)
    {i : Nat} (htx : run[i]? = some tx) : tx.nonce.toNat = account.nonce.toNat + i :=
  ((lists.mem_iff _ _).1 (h.consecutive i tx htx)).2

/-- The run goes on as long as no candidate was turned away. -/
structure Share.Takes (at? : Nat → Option Transaction) (account : Account) (taken : List Transaction)
    (s : Share) : Prop where
  affordable : Affordable at? account s.run
  next : s.nextNonce.toNat = account.nonce.toNat + s.run.length
  charged : s.balance.toNat + escrow s.run = account.balance.toNat
  running : s.phase = .running → ∀ tx ∈ taken, tx.nonce < s.nextNonce
  ended : s.phase ≠ .running → Longest at? account s.run

theorem Share.Takes.longest (hs : s.Takes at? account taken) (lists : Lists at? taken) :
    Longest at? account s.run := by
  by_cases hphase : s.phase = .running
  · refine hs.affordable.longest fun tx htx => ?_
    obtain ⟨hmem, hnonce⟩ := (lists.mem_iff _ _).1 htx
    have hless := UInt64.lt_iff_toNat_lt.1 (hs.running hphase tx hmem)
    have hnext := hs.next
    omega
  · exact hs.ended hphase

theorem Share.Takes.not_exhausts (hs : s.Takes at? account taken) (lists : Lists at? taken) :
    ¬ Exhausts at? account := by
  rintro ⟨run, hrun, tx, htx, hlast⟩
  obtain rfl := hrun.unique (hs.longest lists)
  obtain ⟨i, hi, rfl⟩ := List.mem_iff_getElem.1 htx
  have hnonce := hs.affordable.nonce_eq lists (List.getElem?_eq_getElem hi)
  have hnext := hs.next
  have hlt := s.nextNonce.toNat_lt
  rw [UInt64.size] at hlast
  omega

/-- Nothing is taken any more, whatever follows. -/
theorem Share.Takes.settled (hs : s.Takes at? account taken) (hlongest : Longest at? account s.run)
    {phase : Phase} (hphase : phase ≠ .running) {deferred : List Transaction} {discarded : List Discard}
    (taken' : List Transaction) :
    Share.Takes at? account taken' { s with phase, deferred, discarded } :=
  ⟨hs.affordable, hs.next, hs.charged, fun h => absurd h hphase, fun _ => hlongest⟩

/-- Taking candidates ends with a run of them, or with the last nonce that there is. -/
def Share.Ends (at? : Nat → Option Transaction) (account : Account) (taken : List Transaction) :
    Except Fault Share → Prop
  | .ok s => s.Takes at? account taken
  | .error fault => fault = .sumTooLarge ∧ Exhausts at? account

theorem Share.Takes.charge (hs : s.Takes at? account taken) (hphase : s.phase = .running)
    (hnonce : tx.nonce = s.nextNonce) (hgrown : Affordable at? account (s.run ++ [tx])) {fee : Word}
    (hfee : fee.toNat = tx.prepaid) (hcovered : fee ≤ s.balance)
    (hroom : s.nextNonce.toNat + 1 < UInt64.size) :
    Share.Takes at? account (taken ++ [tx])
      { s with balance := s.balance - fee, nextNonce := s.nextNonce + 1, run := s.run ++ [tx] } := by
  have hstep : (s.nextNonce + 1).toNat = s.nextNonce.toNat + 1 := by
    rw [UInt64.toNat_add]
    exact Nat.mod_eq_of_lt hroom
  have hle := BitVec.le_def.1 hcovered
  have hcharged := hs.charged
  refine ⟨hgrown, ?_, ?_, fun _ => List.forall_mem_append.2 ⟨fun tx' htx' => ?_, ?_⟩, fun h => absurd hphase h⟩
  · rw [hstep, hs.next, List.length_append, List.length_singleton, Nat.add_assoc]
  · have hpaid : escrow (s.run ++ [tx]) = escrow s.run + tx.prepaid := by simp [escrow]
    dsimp only
    rw [BitVec.toNat_sub_of_le hcovered, hpaid]
    omega
  · have hless := UInt64.lt_iff_toNat_lt.1 (hs.running hphase tx' htx')
    rw [UInt64.lt_iff_toNat_lt, hstep]
    omega
  · rw [List.forall_mem_singleton, UInt64.lt_iff_toNat_lt, hstep, hnonce]
    exact Nat.lt_succ_self _

/-- No nonce comes after the last one. -/
theorem Affordable.exhausts {run : List Transaction} (lists : Lists at? taken)
    (h : Affordable at? account (run ++ [tx])) (hlast : tx.nonce.toNat + 1 = UInt64.size) :
    Exhausts at? account := by
  refine ⟨_, h.longest fun tx' htx' => ?_, tx, by simp, hlast⟩
  have hnonce := h.nonce_eq lists List.getElem?_concat_length
  have hbehind := ((lists.mem_iff _ _).1 htx').2
  have hlt := tx'.nonce.toNat_lt
  rw [List.length_append, List.length_singleton] at hbehind
  rw [UInt64.size] at hlast
  omega

theorem Share.charge_ends (lists : Lists at? (taken ++ tx :: rest)) (hs : s.Takes at? account taken)
    (hphase : s.phase = .running) (hnonce : tx.nonce = s.nextNonce) :
    Share.Ends at? account (taken ++ [tx]) (s.charge tx) := by
  have hnext : at? (account.nonce.toNat + s.run.length) = some tx :=
    (lists.mem_iff _ _).2 ⟨by simp, by rw [hnonce, hs.next]⟩
  have hpaid : escrow (s.run ++ [tx]) = escrow s.run + tx.prepaid := by simp [escrow]
  have hcharged := hs.charged
  have hbroke (hless : s.balance.toNat < tx.prepaid) :
      Share.Takes at? account (taken ++ [tx]) { s.discard .unaffordable tx with phase := .broke } := by
    refine hs.settled (hs.affordable.longest fun tx' htx' => ?_) (by decide) _
    obtain rfl := Option.some.inj (hnext.symm.trans htx')
    omega
  unfold charge
  split
  next hfee => exact hbroke (Nat.lt_of_lt_of_le s.balance.isLt (tx.le_prepaid hfee))
  next fee hfee =>
    have hexact := tx.toNat_maxFee hfee
    split
    next hless => exact hbroke (by rw [← hexact]; exact BitVec.lt_def.1 hless)
    next hcovered =>
      have hcovered := BitVec.not_lt.1 hcovered
      have hle := BitVec.le_def.1 hcovered
      have hgrown : Affordable at? account (s.run ++ [tx]) := hs.affordable.snoc hnext (by omega)
      have hadd : s.nextNonce.add? 1
          = if s.nextNonce.toNat + 1 < UInt64.size then some (s.nextNonce + 1) else none := rfl
      rw [hadd]
      by_cases hroom : s.nextNonce.toNat + 1 < UInt64.size
      · rw [if_pos hroom]
        exact hs.charge hphase hnonce hgrown hexact hcovered hroom
      · rw [if_neg hroom]
        have hlt := s.nextNonce.toNat_lt
        exact ⟨rfl, hgrown.exhausts lists (by rw [hnonce]; exact Nat.le_antisymm hlt (Nat.not_lt.1 hroom))⟩

/-- The next nonce is missing when a later one comes: it is neither among those that were taken nor behind this
one. -/
theorem Share.Takes.missing (hs : s.Takes at? account taken) (lists : Lists at? (taken ++ tx :: rest))
    (hphase : s.phase = .running) (hgap : s.nextNonce < tx.nonce) : at? s.nextNonce.toNat = none := by
  refine Option.eq_none_iff_forall_not_mem.2 fun tx' htx' => ?_
  obtain ⟨hmem, hnonce⟩ := (lists.mem_iff _ _).1 htx'
  rw [UInt64.lt_iff_toNat_lt] at hgap
  rcases List.mem_append.1 hmem with htaken | hrest
  · have hless := UInt64.lt_iff_toNat_lt.1 (hs.running hphase tx' htaken)
    omega
  · obtain rfl | hbehind := List.mem_cons.1 hrest
    · omega
    · have hless := List.rel_of_pairwise_cons (List.pairwise_append.1 lists.ascending).2.1 hbehind
      rw [UInt64.lt_iff_toNat_lt] at hless
      omega

theorem Share.take_ends (lists : Lists at? (taken ++ tx :: rest)) (hs : s.Takes at? account taken) :
    Share.Ends at? account (taken ++ [tx]) (s.take tx) := by
  unfold take
  split
  next hstale =>
    refine ⟨hs.affordable, hs.next, hs.charged, fun hphase => ?_, hs.ended⟩
    exact List.forall_mem_append.2 ⟨hs.running hphase, List.forall_mem_singleton.2 hstale⟩
  next hfresh =>
    split
    next hphase =>
      have hended : s.phase ≠ .running := by rw [hphase]; nofun
      exact hs.settled (hs.ended hended) hended _
    next hphase =>
      exact hs.settled (hs.ended (by rw [hphase]; nofun)) (by decide) _
    next hphase =>
      split
      next hgap =>
        have hmissing := hs.missing lists hphase hgap
        rw [hs.next] at hmissing
        exact hs.settled (hs.affordable.longest fun tx' htx' => by simp [hmissing] at htx') (by decide) _
      next hnext => exact charge_ends lists hs hphase (UInt64.le_antisymm (UInt64.not_lt.1 hnext) (UInt64.not_lt.1 hfresh))

theorem Share.foldlM_ends (lists : Lists at? (taken ++ rest)) (hs : s.Takes at? account taken) :
    Share.Ends at? account (taken ++ rest) (rest.foldlM take s) := by
  induction rest generalizing s taken with
  | nil => rwa [List.append_nil]
  | cons tx rest ih =>
    have hstep := take_ends lists hs
    rw [List.foldlM_cons]
    cases htake : s.take tx with
    | error fault =>
      rw [htake] at hstep
      exact hstep
    | ok next =>
      rw [htake] at hstep
      rw [List.append_cons] at lists ⊢
      exact ih lists hstep

/-- All candidates of a sender are taken, by ascending nonce. -/
theorem Share.all_ends (account : Account) (lists : Lists at? taken) :
    Share.Ends at? account taken
      (taken.foldlM take { balance := account.balance, nextNonce := account.nonce }) := by
  have hstart : Share.Takes at? account [] { balance := account.balance, nextNonce := account.nonce } := by
    refine ⟨⟨by simp, by simp⟩, rfl, rfl, by simp, fun h => absurd rfl h⟩
  have hall : Lists at? ([] ++ taken) := lists
  exact foldlM_ends hall hstart

/-- What a sender is given, for the account that it has. -/
def Share.Fits (at? : Nat → Option Transaction) (s : Share) : Option Account → Prop
  | none => s.run = []
  | some account =>
    Longest at? account s.run ∧ s.balance.toNat + escrow s.run = account.balance.toNat ∧ ¬ Exhausts at? account

theorem fits_nothing (hnone : ∀ nonce, at? nonce = none) (found : Option Account) :
    Share.Fits at? { balance := found.elim 0 (·.balance), nextNonce := 0 } found := by
  cases found with
  | none => rfl
  | some account =>
    have hlongest : Longest at? account [] :=
      Affordable.longest ⟨by simp, by simp⟩ fun tx htx => by simp [hnone] at htx
    refine ⟨hlongest, rfl, ?_⟩
    rintro ⟨run, hrun, tx, htx, -⟩
    rw [hrun.unique hlongest] at htx
    cases htx

end

/-! ## The senders -/

/-- What the senders are given, by the accounts that they have before, and what this leaves of the records. -/
structure Shared (at? : Address → Nat → Option Transaction) (f : Contents) (shares : List (Address × Share))
    (f' : Contents) : Prop where
  fits : ∀ share ∈ shares, share.2.Fits (at? share.1) (accountsIn f share.1)
  charged : ∀ share ∈ shares, ∀ account, accountsIn f share.1 = some account →
    accountsIn f' share.1 = some { account with balance := share.2.balance }
  elsewhere : ∀ key, (∀ share ∈ shares, share.2.run ≠ [] → key ≠ (Key.account share.1).bytes) → f' key = f key

section

variable {at? : Address → Nat → Option Transaction} {f f' : Contents} {sender : Address} {txs : List Transaction}
  {share : Share} {shares : List (Address × Share)} {fault : Fault}

theorem Shared.account_eq (h : Shared at? f shares f') {address : Address} (hout : address ∉ shares.map (·.1)) :
    accountsIn f' address = accountsIn f address := by
  have hkey := h.elsewhere (Key.account address).bytes fun share hshare _ hkey =>
    hout (List.mem_map.2 ⟨share, hshare, (Key.account_bytes_inj hkey).symm⟩)
  rw [accountsIn, accountsIn, hkey]

theorem Shared.cons {f₁ : Contents} (first : Shared at? f [(sender, share)] f₁) (rest : Shared at? f₁ shares f')
    (hout : sender ∉ shares.map (·.1)) : Shared at? f ((sender, share) :: shares) f' := by
  have hother {other : Address × Share} (hmem : other ∈ shares) : accountsIn f₁ other.1 = accountsIn f other.1 := by
    refine first.account_eq fun heq => hout ?_
    obtain rfl : other.1 = sender := by simpa using heq
    exact List.mem_map_of_mem hmem
  constructor
  case fits =>
    refine List.forall_mem_cons.2 ⟨first.fits _ List.mem_cons_self, fun other hmem => ?_⟩
    rw [← hother hmem]
    exact rest.fits other hmem
  case charged =>
    refine List.forall_mem_cons.2 ⟨fun account haccount => ?_, fun other hmem account haccount => ?_⟩
    · rw [rest.account_eq hout]
      exact first.charged _ List.mem_cons_self account haccount
    · exact rest.charged other hmem account (by rw [hother hmem, haccount])
  case elsewhere =>
    intro key hkey
    rw [rest.elsewhere key fun other hmem => hkey other (List.mem_cons_of_mem _ hmem)]
    exact first.elsewhere key fun other hmem => hkey other (List.mem_cons.2 (.inl (List.mem_singleton.1 hmem)))

theorem admitSender_shared (lists : Lists (at? sender) txs)
    (h : (admitSender sender txs).eval f = .ok share f') : Shared at? f [(sender, share)] f' := by
  obtain ⟨found, f₁, hfound, hadmit⟩ := eval_bind_ok.1 h
  obtain ⟨haccount, rfl⟩ := account_ok hfound
  cases found with
  | none =>
    obtain ⟨rfl, rfl⟩ := eval_pure_ok.1 hadmit
    refine ⟨?_, ?_, fun _ _ => rfl⟩
    · rw [List.forall_mem_singleton, haccount]
      rfl
    · rw [List.forall_mem_singleton, haccount]
      nofun
  | some account =>
    dsimp only at hadmit
    obtain ⟨share', f₂, hshare, hwrite⟩ := eval_bind_ok.1 hadmit
    obtain ⟨hfold, rfl⟩ := eval_ofExcept_ok.1 hshare
    have hends := Share.all_ends account lists
    rw [hfold] at hends
    have hfits : share'.Fits (at? sender) (some account) :=
      ⟨hends.longest lists, hends.charged, hends.not_exhausts lists⟩
    split at hwrite
    next hsome =>
      obtain ⟨_, f₃, hset, hdone⟩ := eval_bind_ok.1 hwrite
      obtain ⟨rfl, rfl⟩ := eval_pure_ok.1 hdone
      cases hset
      refine ⟨?_, ?_, fun key hkey => ?_⟩
      · rwa [List.forall_mem_singleton, haccount]
      · rw [List.forall_mem_singleton, haccount, accountsIn_put, Accounts.set_same]
        rintro _ ⟨⟩
        rfl
      · exact Contents.put_other _ _ (List.forall_mem_singleton.1 hkey hsome).symm
    next hnone =>
      obtain ⟨rfl, rfl⟩ := eval_pure_ok.1 hwrite
      refine ⟨?_, ?_, fun _ _ => rfl⟩
      · rwa [List.forall_mem_singleton, haccount]
      · have hsame : share'.balance = account.balance := by
          have hcharged := hends.charged
          rw [not_not.1 hnone, escrow_nil, Nat.add_zero] at hcharged
          exact BitVec.eq_of_toNat_eq hcharged
        rw [List.forall_mem_singleton, haccount, hsame]
        rintro _ ⟨⟩
        rfl

theorem admitSender_exhausts (readable : Readable f sender) (lists : Lists (at? sender) txs)
    (h : (admitSender sender txs).eval f = .error fault f') :
    fault = .sumTooLarge ∧ ∃ account, accountsIn f sender = some account ∧ Exhausts (at? sender) account := by
  unfold admitSender at h
  rw [eval_bind, bind_of_ok readable] at h
  cases haccount : accountsIn f sender with
  | none =>
    rw [haccount] at h
    exact absurd h eval_pure_stops
  | some account =>
    rw [haccount] at h
    dsimp only at h
    obtain hfold | ⟨share, f₂, -, hwrite⟩ := eval_bind_stops.1 h
    · have hends := Share.all_ends account lists
      rw [(eval_ofExcept_stops.1 hfold).1] at hends
      exact ⟨hends.1, account, rfl, hends.2⟩
    · split at hwrite
      · obtain hset | ⟨_, f₃, -, hdone⟩ := eval_bind_stops.1 hwrite
        · exact absurd hset eval_write_stops
        · exact absurd hdone eval_pure_stops
      · exact absurd hwrite eval_pure_stops

variable {candidates : List (Address × Nonces)} (distinct : (candidates.map (·.1)).Nodup)
  (lists : ∀ entry ∈ candidates, Lists (at? entry.1) (entry.2.toList.map (·.2)))

include distinct lists

theorem admitSenders_shared (h : (admitSenders candidates).eval f = .ok shares f') :
    shares.map (·.1) = candidates.map (·.1) ∧ Shared at? f shares f' := by
  induction candidates generalizing f shares with
  | nil =>
    obtain ⟨rfl, rfl⟩ := eval_pure_ok.1 h
    exact ⟨rfl, nofun, nofun, fun _ _ => rfl⟩
  | cons candidate rest ih =>
    obtain ⟨sender, nonces⟩ := candidate
    obtain ⟨hout, hrest⟩ := List.nodup_cons.1 distinct
    obtain ⟨hlist, hlists⟩ := List.forall_mem_cons.1 lists
    rw [admitSenders] at h
    obtain ⟨share, f₁, hshare, hothers⟩ := eval_bind_ok.1 h
    obtain ⟨shares', f₂, hshares, hdone⟩ := eval_bind_ok.1 hothers
    obtain ⟨rfl, rfl⟩ := eval_pure_ok.1 hdone
    obtain ⟨hsenders, hshared⟩ := ih hrest hlists hshares
    refine ⟨by rw [List.map_cons, List.map_cons, hsenders], ?_⟩
    exact (admitSender_shared hlist hshare).cons hshared (by rwa [hsenders])

theorem admitSenders_exhausts (readable : ∀ address, Readable f address)
    (h : (admitSenders candidates).eval f = .error fault f') :
    fault = .sumTooLarge ∧ ∃ entry ∈ candidates, ∃ account,
      accountsIn f entry.1 = some account ∧ Exhausts (at? entry.1) account := by
  induction candidates generalizing f with
  | nil => exact absurd h eval_pure_stops
  | cons candidate rest ih =>
    obtain ⟨sender, nonces⟩ := candidate
    obtain ⟨hout, hrest⟩ := List.nodup_cons.1 distinct
    obtain ⟨hlist, hlists⟩ := List.forall_mem_cons.1 lists
    rw [admitSenders] at h
    obtain hshare | ⟨share, f₁, hshare, hothers⟩ := eval_bind_stops.1 h
    · obtain ⟨rfl, hexhausts⟩ := admitSender_exhausts (readable sender) hlist hshare
      exact ⟨rfl, _, List.mem_cons_self, hexhausts⟩
    obtain hshares | ⟨shares, f₂, -, hdone⟩ := eval_bind_stops.1 hothers
    · have hreadable : ∀ address, Readable f₁ address := by
        obtain ⟨-, ⟨-, rfl⟩ | ⟨account, -, -, -, rfl⟩⟩ := admitSender_cases hshare
        · exact readable
        · exact fun address => (readable address).put _ _
      obtain ⟨rfl, entry, hentry, account, haccount, hexhausts⟩ := ih hrest hlists hreadable hshares
      have hother : entry.1 ∉ [(sender, share)].map (·.1) := fun hmem =>
        hout (List.mem_map.2 ⟨entry, hentry, List.mem_singleton.1 hmem⟩)
      rw [(admitSender_shared hlist hshare).account_eq hother] at haccount
      exact ⟨rfl, entry, List.mem_cons_of_mem _ hentry, account, haccount, hexhausts⟩
    · exact absurd hdone eval_pure_stops

end

/-! ## Levels -/

/-- Levels come one after the other, and each level in the order of the runs. -/
theorem interleave_pairwise {α : Type} {before : α → α → Prop} {runs : List (List α)}
    (level : ∀ i : Nat, runs.Pairwise fun run run' => ∀ x y, run[i]? = some x → run'[i]? = some y → before x y)
    (later : ∀ i j : Nat, i < j → ∀ run ∈ runs, ∀ run' ∈ runs, ∀ x y,
      run[i]? = some x → run'[j]? = some y → before x y) : (interleave runs).Pairwise before := by
  unfold interleave
  rw [List.pairwise_flatMap]
  refine ⟨fun i _ => ?_, List.pairwise_lt_range.imp ?_⟩
  · rw [List.pairwise_filterMap]
    exact (level i).imp fun h x hx y hy => h x y hx hy
  · intro i j hij x hx y hy
    obtain ⟨run, hrun, hx⟩ := List.mem_filterMap.1 hx
    obtain ⟨run', hrun', hy⟩ := List.mem_filterMap.1 hy
    exact later i j hij run hrun run' hrun' x y hx hy

/-- How far a transaction is behind the nonce of its sender, and the sender. -/
def place (m : Accounts) (tx : Transaction) : Nat × Address :=
  (tx.nonce.toNat - (m.nonce tx.sender).toNat, tx.sender)

def Before (m : Accounts) (tx tx' : Transaction) : Prop := Prod.Lex (· < ·) (· < ·) (place m tx) (place m tx')

theorem Before.asymm {m : Accounts} {tx tx' : Transaction} (h : Before m tx tx') : ¬ Before m tx' tx := by
  unfold Before at *
  simp only [Prod.lex_def, BitVec.lt_def] at *
  omega

section

variable {m : Accounts} {shares : List (Address × Share)} (ascending : (shares.map (·.1)).Pairwise (· < ·))
  (placed : ∀ share ∈ shares, ∀ (i : Nat) (tx : Transaction), share.2.run[i]? = some tx → place m tx = (i, share.1))

include placed

theorem sender_of_share {share : Address × Share} (hshare : share ∈ shares) {tx : Transaction}
    (htx : tx ∈ share.2.run) : tx.sender = share.1 := by
  obtain ⟨i, hi⟩ := List.mem_iff_getElem?.1 htx
  exact congrArg Prod.snd (placed share hshare i tx hi)

theorem filter_stranger {address : Address} (hout : address ∉ shares.map (·.1)) :
    (shares.map (·.2.run)).flatten.filter (·.sender = address) = [] := by
  refine List.filter_eq_nil_iff.2 fun tx htx hsender => hout ?_
  obtain ⟨run, hrun, htx⟩ := List.mem_flatten.1 htx
  obtain ⟨share, hshare, rfl⟩ := List.mem_map.1 hrun
  rw [← of_decide_eq_true hsender, sender_of_share placed hshare htx]
  exact List.mem_map_of_mem hshare

include ascending

theorem admitted_pairwise : (interleave (shares.map (·.2.run))).Pairwise (Before m) := by
  apply interleave_pairwise
  · intro i
    rw [List.pairwise_map]
    refine (List.pairwise_map.1 ascending).imp_of_mem fun {a b} ha hb hless x y hx hy => ?_
    rw [Before, placed a ha i x hx, placed b hb i y hy]
    exact .right _ hless
  · intro i j hij run hrun run' hrun' x y hx hy
    obtain ⟨a, ha, rfl⟩ := List.mem_map.1 hrun
    obtain ⟨b, hb, rfl⟩ := List.mem_map.1 hrun'
    rw [Before, placed a ha i x hx, placed b hb j y hy]
    exact .left _ _ hij

theorem filter_share {share : Address × Share} (hshare : share ∈ shares) :
    (shares.map (·.2.run)).flatten.filter (·.sender = share.1) = share.2.run := by
  induction shares with
  | nil => cases hshare
  | cons first rest ih =>
    obtain ⟨hfirst, hrest⟩ := List.pairwise_cons.1 ascending
    obtain ⟨-, hplaced⟩ := List.forall_mem_cons.1 placed
    rw [List.map_cons, List.flatten_cons, List.filter_append]
    obtain rfl | hmem := List.mem_cons.1 hshare
    · have hout : share.1 ∉ rest.map (·.1) := fun hmem => BitVec.lt_irrefl _ (hfirst _ hmem)
      rw [filter_stranger hplaced hout, List.append_nil]
      exact List.filter_eq_self.2 fun tx htx => decide_eq_true (sender_of_share placed List.mem_cons_self htx)
    · have hother : first.2.run.filter (·.sender = share.1) = [] := by
        refine List.filter_eq_nil_iff.2 fun tx htx hsender => ?_
        have howner := sender_of_share placed List.mem_cons_self htx
        rw [of_decide_eq_true hsender] at howner
        exact BitVec.ne_of_lt (hfirst _ (List.mem_map_of_mem hmem)) howner.symm
      rw [hother, List.nil_append]
      exact ih hrest hplaced hmem

/-- The transactions of a sender keep their order. -/
theorem filter_admitted {share : Address × Share} (hshare : share ∈ shares) :
    (interleave (shares.map (·.2.run))).filter (·.sender = share.1) = share.2.run := by
  have hperm := (interleave_perm (shares.map (·.2.run))).filter (·.sender = share.1)
  rw [filter_share ascending placed hshare] at hperm
  have hordered := (admitted_pairwise ascending placed).filter (·.sender = share.1)
  refine hperm.eq_of_pairwise (fun x y _ _ h h' => absurd h' h.asymm) hordered ?_
  rw [List.pairwise_iff_getElem]
  intro i j hi hj hij
  rw [Before, placed share hshare i _ (List.getElem?_eq_getElem hi),
    placed share hshare j _ (List.getElem?_eq_getElem hj)]
  exact .left _ _ hij

theorem filter_cases (sender : Address) :
    (∃ share ∈ shares, share.1 = sender ∧
      (interleave (shares.map (·.2.run))).filter (·.sender = sender) = share.2.run) ∨
    (sender ∉ shares.map (·.1) ∧ (interleave (shares.map (·.2.run))).filter (·.sender = sender) = []) := by
  by_cases hin : sender ∈ shares.map (·.1)
  · obtain ⟨share, hshare, rfl⟩ := List.mem_map.1 hin
    exact .inl ⟨share, hshare, rfl, filter_admitted ascending placed hshare⟩
  · have hperm := (interleave_perm (shares.map (·.2.run))).filter (·.sender = sender)
    rw [filter_stranger placed hin] at hperm
    exact .inr ⟨hin, hperm.eq_nil⟩

theorem mem_touched (sender : Address) :
    sender ∈ (shares.filter (·.2.run ≠ [])).map (·.1) ↔
      (interleave (shares.map (·.2.run))).filter (·.sender = sender) ≠ [] := by
  rw [List.mem_map]
  constructor
  · rintro ⟨share, hmem, rfl⟩
    obtain ⟨hshare, hrun⟩ := List.mem_filter.1 hmem
    rw [filter_admitted ascending placed hshare]
    exact of_decide_eq_true hrun
  · intro hsome
    obtain ⟨share, hshare, rfl, hrun⟩ | ⟨-, hnone⟩ := filter_cases ascending placed sender
    · rw [hrun] at hsome
      exact ⟨share, List.mem_filter.2 ⟨hshare, decide_eq_true hsome⟩, rfl⟩
    · exact absurd hnone hsome

/-- Also a sender without candidates has a share, an empty one. -/
theorem Shared.exists_share {at? : Address → Nat → Option Transaction} {f f' : Contents}
    (shared : Shared at? f shares f') (sender : Address)
    (outside : sender ∉ shares.map (·.1) → ∀ nonce, at? sender nonce = none) :
    ∃ share : Share, share.Fits (at? sender) (accountsIn f sender) ∧
      (interleave (shares.map (·.2.run))).filter (·.sender = sender) = share.run ∧
      ∀ account, accountsIn f sender = some account →
        accountsIn f' sender = some { account with balance := share.balance } := by
  obtain ⟨share, hshare, rfl, hrun⟩ | ⟨hout, hnone⟩ := filter_cases ascending placed sender
  · exact ⟨share.2, shared.fits share hshare, hrun, shared.charged share hshare⟩
  · refine ⟨_, fits_nothing (outside hout) _, hnone, fun account haccount => ?_⟩
    rw [shared.account_eq hout, haccount]
    rfl

end

/-! ## All senders -/

section

variable (passed : List Transaction) (f : Contents)

/-- A sender would use up its nonces. -/
def Exhausted : Prop :=
  ∃ sender account, accountsIn f sender = some account ∧ Exhausts (candidate passed sender) account

/-- The longest run of each sender is admitted and charged. The levels come one after the other, each by
ascending sender. -/
structure Chosen (admission : Admission) (f' : Contents) : Prop where
  longest : ∀ sender account, accountsIn f sender = some account →
    Longest (candidate passed sender) account (admission.admitted.filter (·.sender = sender))
  stranger : ∀ sender, accountsIn f sender = none → admission.admitted.filter (·.sender = sender) = []
  charged : ∀ sender account, accountsIn f sender = some account → ∃ balance : Word,
    accountsIn f' sender = some { account with balance } ∧
      balance.toNat + escrow (admission.admitted.filter (·.sender = sender)) = account.balance.toNat
  elsewhere : ∀ key, (∀ sender ∈ admission.touched, key ≠ (Key.account sender).bytes) → f' key = f key
  touched : ∀ sender, sender ∈ admission.touched ↔ admission.admitted.filter (·.sender = sender) ≠ []
  ascending : admission.touched.Pairwise (· < ·)
  ordered : admission.admitted.Pairwise (Before (accountsIn f))

end

section

variable {minGasPrice : Word} {maxGasLimit : UInt64} {collected : List Transaction}

theorem at?_of_mem {candidates : Candidates} {entry : Address × Nonces} (h : entry ∈ candidates.toList)
    (nonce : UInt64) : candidates.at? entry.1 nonce = entry.2[nonce]? := by
  have hsome : candidates[entry.1]? = some entry.2 := Std.ExtTreeMap.mem_toList_iff_getElem?_eq_some.1 h
  rw [Candidates.at?, Std.ExtTreeMap.getD_eq_getD_getElem?, hsome, Option.getD_some]

theorem at?_gathered (sender : Address) (nonce : UInt64) :
    (gather minGasPrice maxGasLimit collected ∅).1.at? sender nonce
      = candidate (passing minGasPrice maxGasLimit collected) sender nonce.toNat := by
  have hnone (sender : Address) (nonce : UInt64) :
      Candidates.at? ∅ sender nonce = candidate [] sender nonce.toNat := by simp [Candidates.at?, candidate]
  exact at?_gather collected hnone sender nonce

theorem lists_gathered {entry : Address × Nonces}
    (h : entry ∈ (gather minGasPrice maxGasLimit collected ∅).1.toList) :
    Lists (candidate (passing minGasPrice maxGasLimit collected) entry.1) (entry.2.toList.map (·.2)) := by
  have hplace {nonce : UInt64} {tx : Transaction} : (nonce, tx) ∈ entry.2.toList ↔
      candidate (passing minGasPrice maxGasLimit collected) entry.1 nonce.toNat = some tx := by
    rw [← at?_gathered, at?_of_mem h, Std.ExtTreeMap.mem_toList_iff_getElem?_eq_some]
  have hnonce {place : UInt64 × Transaction} (hmem : place ∈ entry.2.toList) : place.2.nonce = place.1 :=
    UInt64.toNat_inj.1 (mem_of_candidate (hplace.1 hmem)).2.2
  constructor
  case ascending =>
    rw [List.pairwise_map]
    refine Std.ExtTreeMap.ordered_keys_toList.imp_of_mem fun {a b} ha hb hless => ?_
    rw [hnonce ha, hnonce hb]
    exact Std.compare_eq_lt.1 hless
  case mem_iff =>
    intro nonce tx
    constructor
    · intro hsome
      obtain rfl := (mem_of_candidate hsome).2.2
      exact ⟨List.mem_map.2 ⟨(tx.nonce, tx), hplace.2 hsome, rfl⟩, rfl⟩
    · rintro ⟨hmem, rfl⟩
      obtain ⟨_, hlisted, rfl⟩ := List.mem_map.1 hmem
      rw [hnonce hlisted]
      exact hplace.1 hlisted

theorem sender_gathered {sender : Address} {nonce : Nat} {tx : Transaction}
    (h : candidate (passing minGasPrice maxGasLimit collected) sender nonce = some tx) :
    sender ∈ (gather minGasPrice maxGasLimit collected ∅).1.toList.map (·.1) := by
  obtain rfl := (mem_of_candidate h).2.2
  rw [← at?_gathered, Candidates.at?, Std.ExtTreeMap.getD_eq_getD_getElem?] at h
  cases hsome : (gather minGasPrice maxGasLimit collected ∅).1[sender]? with
  | none => simp [hsome] at h
  | some nonces =>
    exact List.mem_map.2 ⟨(sender, nonces), Std.ExtTreeMap.mem_toList_iff_getElem?_eq_some.2 hsome, rfl⟩

variable {f f' : Contents}

theorem place_of_share {at? : Address → Nat → Option Transaction} {share : Address × Share}
    (own : ∀ sender nonce tx, at? sender nonce = some tx → tx.sender = sender ∧ tx.nonce.toNat = nonce)
    (hfits : share.2.Fits (at? share.1) (accountsIn f share.1)) {i : Nat} {tx : Transaction}
    (htx : share.2.run[i]? = some tx) : place (accountsIn f) tx = (i, share.1) := by
  cases haccount : accountsIn f share.1 with
  | none =>
    rw [haccount] at hfits
    rw [show share.2.run = [] from hfits] at htx
    cases htx
  | some account =>
    rw [haccount] at hfits
    obtain ⟨hsender, hnonce⟩ := own _ _ _ (hfits.1.consecutive i tx htx)
    rw [place, hsender, hnonce, Accounts.nonce, haccount, Option.elim_some, Nat.add_sub_cancel_left]

theorem senders_ascending (collected : List Transaction) (minGasPrice : Word) (maxGasLimit : UInt64) :
    ((gather minGasPrice maxGasLimit collected ∅).1.toList.map (·.1)).Pairwise (· < ·) := by
  have hordered : (gather minGasPrice maxGasLimit collected ∅).1.toList.Pairwise
      fun a b => compare a.1 b.1 = .lt := Std.ExtTreeMap.ordered_keys_toList
  rw [List.pairwise_map]
  exact hordered.imp fun h => compareOfLessAndEq_eq_lt.1 h

theorem select_chosen {admission : Admission}
    (h : (select collected minGasPrice maxGasLimit).eval f = .ok admission f') :
    Chosen (passing minGasPrice maxGasLimit collected) f admission f' ∧
      ¬ Exhausted (passing minGasPrice maxGasLimit collected) f := by
  obtain ⟨shares, f₁, hshares, hdone⟩ := eval_bind_ok.1 h
  obtain ⟨rfl, rfl⟩ := eval_pure_ok.1 hdone
  have ascending := senders_ascending collected minGasPrice maxGasLimit
  obtain ⟨hsenders, hshared⟩ :=
    admitSenders_shared (ascending.imp BitVec.ne_of_lt) (fun _ => lists_gathered) hshares
  rw [← hsenders] at ascending
  have placed : ∀ share ∈ shares, ∀ (i : Nat) (tx : Transaction), share.2.run[i]? = some tx →
      place (accountsIn f) tx = (i, share.1) := fun share hshare i tx htx =>
    place_of_share (fun _ _ _ h => (mem_of_candidate h).2) (hshared.fits share hshare) htx
  have hshare (sender : Address) := hshared.exists_share ascending placed sender fun hout nonce =>
    Option.eq_none_iff_forall_not_mem.2 fun tx htx => hout (hsenders ▸ sender_gathered htx)
  constructor
  · constructor
    case longest =>
      intro sender account haccount
      obtain ⟨share, hfits, hrun, -⟩ := hshare sender
      rw [haccount] at hfits
      rw [hrun]
      exact hfits.1
    case stranger =>
      intro sender hstranger
      obtain ⟨share, hfits, hrun, -⟩ := hshare sender
      rw [hstranger] at hfits
      rw [hrun]
      exact hfits
    case charged =>
      intro sender account haccount
      obtain ⟨share, hfits, hrun, hcharged⟩ := hshare sender
      rw [haccount] at hfits
      rw [hrun]
      exact ⟨share.balance, hcharged account haccount, hfits.2.1⟩
    case elsewhere =>
      refine fun key hkey => hshared.elsewhere key fun share hshare hrun => hkey share.1 ?_
      exact List.mem_map_of_mem (List.mem_filter.2 ⟨hshare, decide_eq_true hrun⟩)
    case touched => exact mem_touched ascending placed
    case ascending => exact ascending.sublist (List.filter_sublist.map _)
    case ordered => exact admitted_pairwise ascending placed
  · rintro ⟨sender, account, haccount, hexhausts⟩
    obtain ⟨share, hfits, -, -⟩ := hshare sender
    rw [haccount] at hfits
    exact hfits.2.2 hexhausts

theorem select_exhausted {fault : Fault} (readable : ∀ address, Readable f address)
    (h : (select collected minGasPrice maxGasLimit).eval f = .error fault f') :
    fault = .sumTooLarge ∧ Exhausted (passing minGasPrice maxGasLimit collected) f := by
  obtain hshares | ⟨shares, f₁, -, hdone⟩ := eval_bind_stops.1 h
  · obtain ⟨rfl, entry, -, account, hexhausts⟩ :=
      admitSenders_exhausts ((senders_ascending _ _ _).imp BitVec.ne_of_lt) (fun _ => lists_gathered) readable hshares
    exact ⟨rfl, entry.1, account, hexhausts⟩
  · exact absurd hdone eval_pure_stops

/-- Admission comes to an end for every sender and admits what is specified, unless it would use up the nonces
of one of them. -/
theorem selects_longest_runs (collected : List Transaction) (minGasPrice : Word) (maxGasLimit : UInt64)
    (readable : ∀ address, Readable f address) :
    (¬ Exhausted (passing minGasPrice maxGasLimit collected) f → ∃ admission f',
      (select collected minGasPrice maxGasLimit).eval f = .ok admission f' ∧
        Chosen (passing minGasPrice maxGasLimit collected) f admission f') ∧
    (Exhausted (passing minGasPrice maxGasLimit collected) f → ∃ f',
      (select collected minGasPrice maxGasLimit).eval f = .error .sumTooLarge f') := by
  cases hselect : (select collected minGasPrice maxGasLimit).eval f with
  | ok admission f' =>
    obtain ⟨hchosen, hexhausted⟩ := select_chosen hselect
    exact ⟨fun _ => ⟨admission, f', rfl, hchosen⟩, fun h => absurd h hexhausted⟩
  | error fault f' =>
    obtain ⟨rfl, hexhausted⟩ := select_exhausted readable hselect
    exact ⟨fun h => absurd hexhausted h, fun _ => ⟨f', rfl⟩⟩

/-- One account, and transactions of its owner that leave out a nonce. -/
def oneAccount : Contents :=
  Contents.put (fun _ => none) (Key.account 1).bytes (some (Account.encode { balance := 1000000 }))

def withGap : List Transaction := [1, 3, 0].map Rounds.transfer

theorem oneAccount_readable (address : Address) : Readable oneAccount address := by
  have hnone : Readable (fun _ => none) address := rfl
  exact hnone.put 1 _

theorem withGap_selects : ∃ admission f',
    (select withGap 0 100000).eval oneAccount = .ok admission f' ∧
      Chosen (passing 0 100000 withGap) oneAccount admission f' ∧
      admission.admitted = [Rounds.transfer 0, Rounds.transfer 1] := by
  have htest : endsWith ((select withGap 0 100000).eval oneAccount) (fun admission _ =>
      admission.admitted == [Rounds.transfer 0, Rounds.transfer 1]) = true := by
    decide +kernel
  have hroom : ¬ Exhausted (passing 0 100000 withGap) oneAccount := by
    rintro ⟨sender, account, -, run, hlongest, tx, htx, hlast⟩
    obtain ⟨i, hi⟩ := List.mem_iff_getElem?.1 htx
    have hpassed := (mem_of_candidate (hlongest.consecutive i tx hi)).1
    have hnonces : ∀ tx ∈ passing 0 100000 withGap, tx.nonce.toNat + 1 ≠ UInt64.size := by decide
    exact hnonces tx hpassed hlast
  obtain ⟨admission, f', hselect, hchosen⟩ := (selects_longest_runs withGap 0 100000 oneAccount_readable).1 hroom
  rw [hselect] at htest
  exact ⟨admission, f', hselect, hchosen, beq_iff_eq.1 htest⟩

end

end Admission

end RoundLedger
