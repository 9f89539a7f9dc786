import RoundLedger.Rounds.Gate

/-!
# What the gate lets through

The gate holds the nonces of each sender that were queued and are not settled. A transaction that
has not expired passes when none of them is smaller than its own (`mayRun_iff`).
-/

namespace RoundLedger.NonceGate

/-- A nonce of a sender is queued and not settled. A nonce that is queued twice is held once. -/
def Holds (g : NonceGate) (sender : Address) (nonce : UInt64) : Prop := nonce ∈ g.getD sender ∅

theorem not_holds_empty (sender : Address) (nonce : UInt64) : ¬ Holds ∅ sender nonce := by
  simp [Holds]

theorem holds_enter {g : NonceGate} {tx : Transaction} {sender : Address} {nonce : UInt64} :
    (g.enter tx).Holds sender nonce ↔
      (tx.sender = sender ∧ tx.nonce = nonce) ∨ g.Holds sender nonce := by
  unfold Holds enter
  rw [Std.ExtTreeMap.getD_insert]
  simp only [Std.LawfulEqCmp.compare_eq_iff_eq]
  by_cases hsender : tx.sender = sender
  · subst hsender
    simp [Std.ExtTreeSet.mem_insert]
  · simp [hsender]

/-- The gate of a queue holds what is queued. -/
theorem holds_ofEntries {entries : List QueueEntry} {sender : Address} {nonce : UInt64} :
    (ofEntries entries).Holds sender nonce ↔
      ∃ tx ∈ entries.map (·.tx), tx.sender = sender ∧ tx.nonce = nonce := by
  have general (g : NonceGate) : (entries.foldl (fun g entry => g.enter entry.tx) g).Holds sender nonce
      ↔ (∃ tx ∈ entries.map (·.tx), tx.sender = sender ∧ tx.nonce = nonce) ∨ g.Holds sender nonce := by
    induction entries generalizing g with
    | nil => simp
    | cons entry rest ih =>
      rw [List.foldl_cons, ih, holds_enter]
      simp only [List.map_cons, List.mem_cons, exists_eq_or_imp]
      rw [or_left_comm, or_assoc]
  rw [ofEntries, general, or_iff_left (not_holds_empty sender nonce)]

theorem getD_settle (g : NonceGate) (tx : Transaction) (sender : Address) :
    (g.settle tx).getD sender ∅
      = if tx.sender = sender then (g.getD sender ∅).erase tx.nonce else g.getD sender ∅ := by
  unfold settle
  split
  next hnonces =>
    split
    next hsender =>
      subst hsender
      simp [Std.ExtTreeMap.getD_eq_getD_getElem?, hnonces]
    next => rfl
  next nonces hnonces =>
    dsimp only
    split
    next hempty =>
      -- The sender leaves the gate with its last nonce.
      rw [Std.ExtTreeMap.getD_erase]
      simp only [Std.LawfulEqCmp.compare_eq_iff_eq]
      split
      next hsender =>
        subst hsender
        simp [Std.ExtTreeMap.getD_eq_getD_getElem?, hnonces, Std.ExtTreeSet.isEmpty_iff.1 hempty]
      next => rfl
    next =>
      rw [Std.ExtTreeMap.getD_insert]
      simp only [Std.LawfulEqCmp.compare_eq_iff_eq]
      split
      next hsender =>
        subst hsender
        simp [Std.ExtTreeMap.getD_eq_getD_getElem?, hnonces]
      next => rfl

theorem holds_settle {g : NonceGate} {tx : Transaction} {sender : Address} {nonce : UInt64} :
    (g.settle tx).Holds sender nonce ↔
      g.Holds sender nonce ∧ ¬ (tx.sender = sender ∧ tx.nonce = nonce) := by
  unfold Holds
  rw [getD_settle]
  split
  next hsender =>
    rw [Std.ExtTreeSet.mem_erase]
    simp only [hsender, true_and, ne_eq, Std.LawfulEqCmp.compare_eq_iff_eq]
    exact and_comm
  next hsender => simp [hsender]

theorem lowest?_eq_head? (g : NonceGate) (sender : Address) :
    g.lowest? sender = (g.getD sender ∅).toList.head? := by
  rw [lowest?, Std.ExtTreeMap.getD_eq_getD_getElem?]
  cases g[sender]? with
  | none => simp
  | some nonces => rfl

/-- A transaction may run when it has expired, or when no smaller nonce of its sender is held. -/
theorem mayRun_iff {g : NonceGate} {height : UInt64} {tx : Transaction} :
    g.mayRun height tx = true ↔
      tx.isTooOld height = true ∨ ∀ nonce, g.Holds tx.sender nonce → tx.nonce ≤ nonce := by
  have hordered := Std.ExtTreeSet.ordered_toList (t := g.getD tx.sender ∅)
  unfold mayRun Holds
  simp only [← Std.ExtTreeSet.mem_toList, lowest?_eq_head?, Bool.or_eq_true]
  cases hnonces : (g.getD tx.sender ∅).toList with
  | nil => simp
  | cons lowest rest =>
    rw [hnonces, List.pairwise_cons] at hordered
    simp only [List.head?_cons, decide_eq_true_eq, List.mem_cons]
    refine or_congr_right ⟨?_, fun h => h lowest (.inl rfl)⟩
    rintro hle nonce (rfl | hrest)
    · exact hle
    · have hlt := Std.compare_eq_lt.1 (hordered.1 nonce hrest)
      rw [UInt64.le_iff_toNat_le] at hle ⊢
      rw [UInt64.lt_iff_toNat_lt] at hlt
      omega

end RoundLedger.NonceGate
