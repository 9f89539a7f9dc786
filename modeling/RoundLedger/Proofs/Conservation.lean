import RoundLedger.Proofs.Serial

/-!
# Queued transactions are conserved

A block neither loses nor doubles a queued transaction: each is published or still waits. The one
exception is the transaction that is sent back to the reserved position, where the pointers are
written over it. So the law holds for a well-formed queue exactly when its end does not pass over
that position.
-/

namespace RoundLedger

open Step Program Queue

def Published.entry (x : Published) : QueueEntry := ⟨x.position, x.result.tx⟩

namespace Rounds

variable {r : Runner} {hashes : BlockHashes} {block : Block}

/-! ## One round -/

theorem Settled.sublist {gate : NonceGate} {f g : Contents} {entries : List QueueEntry} {p : Progress}
    (h : Settled r hashes block gate f entries p g) :
    (p.published.map Published.entry).Sublist entries := by
  induction h with
  | start => exact .slnil
  | @held done p g entry _ _ ih => exact ih.trans (List.sublist_append_left done [entry])
  | @conflict done p g entry result c o _ _ _ _ ih =>
    exact ih.trans (List.sublist_append_left done [entry])
  | @commit done p g g' entry result c o _ _ htrial _ _ ih =>
    have htx : result.tx = entry.tx := Runner.trial_tx htrial
    have hentry : Published.entry ⟨entry.position, result⟩ = entry := by rw [Published.entry, htx]
    simp only [Progress.commit, List.map_append, List.map_singleton, hentry]
    exact ih.append (List.Sublist.refl _)

theorem Settled.perm {gate : NonceGate} {f g : Contents} {entries : List QueueEntry} {p : Progress}
    (h : Settled r hashes block gate f entries p g) :
    (p.published.map (·.result.tx) ++ p.retry).Perm (entries.map (·.tx)) := by
  induction h with
  | start => exact .nil
  | held _ _ ih =>
    simp only [Progress.putOff, List.map_append, ← List.append_assoc]
    exact ih.append_right _
  | conflict _ _ _ _ ih =>
    simp only [Progress.putOff, List.map_append, ← List.append_assoc]
    exact ih.append_right _
  | @commit done p g g' entry result c o _ _ htrial _ _ ih =>
    have htx : result.tx = entry.tx := Runner.trial_tx htrial
    simp only [Progress.commit, List.map_append, List.map_singleton, htx, List.append_assoc]
    refine (List.Perm.append_left _ List.perm_append_comm).trans ?_
    rw [← List.append_assoc]
    exact ih.append_right _

theorem Settled.queue_eq (avoids : r.contracts.Avoids Key.IsQueue) {gate : NonceGate}
    {f g : Contents} {entries : List QueueEntry} {p : Progress}
    (h : Settled r hashes block gate f entries p g) {key : Bytes} (hkey : Key.IsQueue key) :
    g key = f key := by
  induction h with
  | start => rfl
  | held _ _ ih => exact ih
  | conflict _ _ _ _ ih => exact ih
  | commit _ _ htrial _ hnotified ih =>
    have hnone := Runner.trial_avoids (fun k hk => Key.not_isQueue_of_isState hk) avoids htrial hkey
    rw [hnotified.avoids avoids hkey, Overlay.atop_of_notMem hnone.2, ih]

theorem SentBack.appended {p : Progress} {f f' : Contents} {range : QueueRange}
    (h : SentBack p f f') (hrange : rangeIn f = .ok range) : Appended f range p.retry f' := by
  obtain ⟨hnone, rfl⟩ | ⟨-, range', happend⟩ := h
  · have hstop := range.stop.toNat_lt
    rw [hnone]
    exact ⟨hrange, hstop, by simpa using hrange, by simp [placed], fun _ _ _ => rfl⟩
  · obtain ⟨range'', happended, -⟩ := append_ok happend
    have hsame := happended.range
    rw [hrange] at hsame
    cases hsame
    exact happended

/-! ## All rounds -/

/-- How far a run of rounds has moved the queue of the contents `f`, whose range was `before`. -/
structure Moved (f : Contents) (before : QueueRange) (published : List Published) (reappended : Nat)
    (g : Contents) (now : QueueRange) : Prop where
  range : rangeIn g = .ok now
  ordered : now.start ≤ now.stop
  start : now.start.toNat = before.start.toNat + published.length + reappended
  stop : now.stop.toNat = before.stop.toNat + reappended
  ascending : (published.map (·.position)).Pairwise (· < ·)
  taken : ∀ x ∈ published, before.start ≤ x.position ∧ x.position < now.start
  /-- What was published from a position that was live at the start was stored there. -/
  stored : ∀ x ∈ published, x.position < before.stop → entryIn f x.position = some x.result.tx
  kept : ∀ position, now.start ≤ position → position < before.stop →
    entryIn g position = entryIn f position
  /-- No entry is ever taken from the reserved position. -/
  behind : before.start ≤ reserved → now.start ≤ reserved
  conserved : ∃ lost : List Transaction,
    lost.length = (if Passes before.stop now.stop then 1 else 0) ∧
      (published.map (·.result.tx) ++ waiting g ++ lost).Perm (waiting f)
  wellFormed : WellFormed f before → ¬ Passes before.stop now.stop → WellFormed g now

theorem Moved.refl {f : Contents} {before : QueueRange} (hrange : rangeIn f = .ok before)
    (hordered : before.start ≤ before.stop) : Moved f before [] 0 f before where
  range := hrange
  ordered := hordered
  start := rfl
  stop := rfl
  ascending := .nil
  taken := by simp
  stored := by simp
  kept _ _ _ := rfl
  behind := id
  conserved := by
    refine ⟨[], ?_, by simp⟩
    rw [if_neg]
    · rfl
    · rintro ⟨hle, hlt⟩
      exact UInt64.not_lt.2 hle hlt
  wellFormed hwell _ := hwell

section Round

variable {gate : NonceGate} {f h h₁ h₂ h₃ : Contents} {before now : QueueRange}
  {entries : List QueueEntry} {p : Progress} {published : List Published} {reappended : Nat}
  (avoids : r.contracts.Avoids Key.IsQueue) (hmoved : Moved f before published reappended h now)
  (hpop : Popped h now entries h₁) (hsettled : Settled r hashes block gate h₁ entries p h₂)
  (hsent : Appended h₂ ⟨now.start + UInt64.ofNat entries.length, now.stop⟩ p.retry h₃)

include hpop hsettled in
theorem sized_of_retry {tx : Transaction} (htx : tx ∈ p.retry) : tx.data.length < UInt64.size := by
  have hmem := hsettled.perm.mem_iff.1 (List.mem_append_right _ htx)
  obtain ⟨entry, hentry, rfl⟩ := List.mem_map.1 hmem
  exact length_data_of_entryIn (hpop.found entry hentry)

include hpop hsettled in
theorem taken_of_published {x : Published} (hx : x ∈ p.published) :
    now.start.toNat ≤ x.position.toNat ∧ x.position.toNat < now.start.toNat + entries.length ∧
      entryIn h x.position = some x.result.tx := by
  have hentry : x.entry ∈ entries := hsettled.sublist.subset (List.mem_map_of_mem hx)
  have hrange := hpop.mem_iff.1 ⟨x.entry, hentry, rfl⟩
  exact ⟨hrange.1, hrange.2, hpop.found x.entry hentry⟩

include hpop hsettled in
theorem ascending_of_published : (p.published.map (·.position)).Pairwise (· < ·) := by
  have hsub := hsettled.sublist.map (·.position)
  have hpositions : (p.published.map Published.entry).map (·.position) = p.published.map (·.position) := by
    rw [List.map_map]
    rfl
  have hfits := hpop.fits
  have hstop := now.stop.toNat_lt
  have hsize : UInt64.size = 2 ^ 64 := rfl
  rw [hpositions, hpop.consecutive] at hsub
  exact (positions_ascending (by omega)).sublist hsub

include avoids hpop hsettled hsent in
/-- A round takes the entries off and puts back what was not published. -/
theorem conserved_of_round :
    (p.published.map (·.result.tx) ++ waiting h₃ ++ lost now.stop p.retry).Perm (waiting h) := by
  have hordered : now.start + UInt64.ofNat entries.length ≤ now.stop := by
    rw [UInt64.le_iff_toNat_le, hpop.start_toNat]
    exact hpop.fits
  have hback := hsent.waiting_perm hordered fun tx htx => sized_of_retry hpop hsettled htx
  have hsame : waiting h₂ = waiting h₁ := waiting_congr fun key hkey => hsettled.queue_eq avoids hkey
  have hfront := hpop.waiting_eq
  have heach := hsettled.perm
  rw [hfront, List.perm_iff_count]
  rw [hsame, List.perm_iff_count] at hback
  rw [List.perm_iff_count] at heach
  intro tx
  have hback := hback tx
  have heach := heach tx
  simp only [List.count_append] at hback heach ⊢
  omega

include avoids hpop hsettled hsent in
/-- Entries behind the ones that were taken stay where they are. -/
theorem entryIn_of_round {position : UInt64}
    (hbehind : now.start.toNat + entries.length ≤ position.toNat)
    (hbefore : position.toNat < now.stop.toNat) : entryIn h₃ position = entryIn h position := by
  rw [hsent.entryIn_eq (.inl hbefore),
    entryIn_congr (fun key hkey => hsettled.queue_eq avoids hkey), hpop.entryIn_eq (.inr hbehind)]

include hmoved hpop hsettled in
theorem Moved.ascending_round :
    ((published ++ p.published).map (·.position)).Pairwise (· < ·) := by
  rw [List.map_append, List.pairwise_append]
  refine ⟨hmoved.ascending, ascending_of_published hpop hsettled, ?_⟩
  rintro _ hearlier _ hlater
  obtain ⟨x, hx, rfl⟩ := List.mem_map.1 hearlier
  obtain ⟨y, hy, rfl⟩ := List.mem_map.1 hlater
  have hbefore := (hmoved.taken x hx).2
  have hafter := taken_of_published hpop hsettled hy
  rw [UInt64.lt_iff_toNat_lt] at hbefore ⊢
  omega

include avoids hmoved hpop hsettled hsent in
theorem Moved.conserved_round : ∃ lost : List Transaction,
    lost.length = (if Passes before.stop (now.stop + UInt64.ofNat p.retry.length) then 1 else 0) ∧
      ((published ++ p.published).map (·.result.tx) ++ waiting h₃ ++ lost).Perm (waiting f) := by
  obtain ⟨lost', hlength, hperm⟩ := hmoved.conserved
  have hround := conserved_of_round avoids hpop hsettled hsent
  have hbefore := hmoved.stop
  have hstop := hsent.stop_toNat
  refine ⟨lost' ++ lost now.stop p.retry, ?_, ?_⟩
  · rw [List.length_append, hlength, length_lost hsent.fits]
    simp only [passes_iff, hstop]
    split <;> split <;> split <;> omega
  · rw [List.perm_iff_count] at hperm hround ⊢
    intro tx
    have hperm := hperm tx
    have hround := hround tx
    simp only [List.map_append, List.count_append] at hperm hround ⊢
    omega

include avoids hmoved hpop hsettled hsent in
theorem Moved.wellFormed_round (hwell : WellFormed f before)
    (hpasses : ¬ Passes before.stop (now.stop + UInt64.ofNat p.retry.length)) :
    WellFormed h₃
      ⟨now.start + UInt64.ofNat entries.length, now.stop + UInt64.ofNat p.retry.length⟩ := by
  have hbefore := hmoved.stop
  have hstop := hsent.stop_toNat
  dsimp only at hstop
  rw [passes_iff, hstop] at hpasses
  have hnow : ¬ Passes before.stop now.stop := by
    rw [passes_iff]
    omega
  have hpopped := (hmoved.wellFormed hwell hnow).popped hpop
  have hkept := hpopped.congr fun key hkey => (hsettled.queue_eq avoids hkey).symm
  refine hkept.appended hsent (fun tx htx => sized_of_retry hpop hsettled htx) ?_
  rw [passes_iff]
  dsimp only
  omega

include avoids hmoved hpop hsettled hsent in
theorem Moved.round : Moved f before (published ++ p.published) (reappended + p.retry.length) h₃
    ⟨now.start + UInt64.ofNat entries.length, now.stop + UInt64.ofNat p.retry.length⟩ := by
  have hfits := hpop.fits
  have hstart := hpop.start_toNat
  have hstop := hsent.stop_toNat
  have hcount := hsettled.perm.length_eq
  have hfrom := hmoved.start
  have hto := hmoved.stop
  simp only [List.length_append, List.length_map] at hcount
  dsimp only at hstop
  constructor
  case range => exact hsent.next
  case ordered =>
    simp only [UInt64.le_iff_toNat_le]
    omega
  case start =>
    rw [List.length_append]
    dsimp only
    omega
  case stop =>
    dsimp only
    omega
  case ascending => exact hmoved.ascending_round hpop hsettled
  case taken =>
    intro x hx
    simp only [UInt64.le_iff_toNat_le, UInt64.lt_iff_toNat_lt]
    rcases List.mem_append.1 hx with hx | hx
    · have htaken := hmoved.taken x hx
      rw [UInt64.le_iff_toNat_le, UInt64.lt_iff_toNat_lt] at htaken
      omega
    · have htaken := taken_of_published hpop hsettled hx
      omega
  case stored =>
    intro x hx hlive
    rcases List.mem_append.1 hx with hx | hx
    · exact hmoved.stored x hx hlive
    · obtain ⟨hbehind, -, hfound⟩ := taken_of_published hpop hsettled hx
      rw [← hmoved.kept _ (UInt64.le_iff_toNat_le.2 hbehind) hlive, hfound]
  case kept =>
    intro position hbehind hbefore
    have hlive := UInt64.lt_iff_toNat_lt.1 hbefore
    simp only [UInt64.le_iff_toNat_le] at hbehind
    rw [entryIn_of_round avoids hpop hsettled hsent (by omega) (by omega)]
    exact hmoved.kept position (UInt64.le_iff_toNat_le.2 (by omega)) hbefore
  case behind =>
    intro hreserved
    have hnow := hmoved.behind hreserved
    simp only [UInt64.le_iff_toNat_le] at hnow ⊢
    by_contra hpassed
    obtain ⟨entry, hentry, hposition⟩ := hpop.mem_iff.2 ⟨hnow, by omega⟩
    exact hpop.ne_reserved hentry hposition
  case conserved => exact hmoved.conserved_round avoids hpop hsettled hsent
  case wellFormed => exact hmoved.wellFormed_round avoids hpop hsettled hsent

end Round

theorem Runs.moved (avoids : r.contracts.Avoids Key.IsQueue) {batch : UInt64}
    {gate gate' : NonceGate} {f g : Contents} {e : BlockExecution} {before : QueueRange}
    (h : Runs r hashes block batch gate f e gate' g) (hrange : rangeIn f = .ok before)
    (hordered : before.start ≤ before.stop) :
    ∃ now, Moved f before e.published e.reappended g now := by
  induction h with
  | start => exact ⟨before, .refl hrange hordered⟩
  | round _ hpop _ hsettled hsent ih =>
    obtain ⟨now, hmoved⟩ := ih
    obtain ⟨_, hpopped, -⟩ := popFront_ok hpop
    obtain rfl : now = _ := Except.ok.inj (hmoved.range.symm.trans hpopped.range)
    have hnext : rangeIn _ = .ok _ :=
      (rangeIn_congr fun key hkey => hsettled.queue_eq avoids hkey).trans hpopped.next
    exact ⟨_, hmoved.round avoids hpopped hsettled (hsent.appended hnext)⟩
  | @idle e g h h₁ _ hpop ih =>
    obtain ⟨now, hmoved⟩ := ih
    obtain ⟨_, hpopped, -⟩ := popFront_ok hpop
    obtain rfl : now = _ := Except.ok.inj (hmoved.range.symm.trans hpopped.range)
    -- A round without entries puts nothing back.
    have hsettled : Settled r hashes block g h₁ [] { gate := g } h₁ := .start
    have hsent : SentBack { gate := g } h₁ h₁ := .inl ⟨rfl, rfl⟩
    have hround := hmoved.round avoids hpopped hsettled (hsent.appended hpopped.next)
    exact ⟨_, by simpa using hround⟩

/-! ## Blocks -/

theorem twoTransfers_contents (start : UInt64) (key : Bytes) :
    (twoTransfers start).view.contents key =
      if (Key.entry (start + 1)).bytes = key then some (Entry.encode (transfer 1))
      else if (Key.entry start).bytes = key then some (Entry.encode (transfer 0))
      else if Key.queue.bytes = key then some (QueueRange.encode ⟨start, start + 2⟩)
      else if (Key.account 1).bytes = key then some (Account.encode { balance := 1000000 })
      else none := by
  simp only [twoTransfers, View.contents, View.value, View.valueIn, Std.ExtTreeMap.getElem?_insert,
    Std.LawfulEqCmp.compare_eq_iff_eq, Std.ExtTreeMap.getElem?_empty]

theorem twoTransfers_wellFormed (start : UInt64) (hstart : start.toNat + 2 < UInt64.size)
    (hfirst : start ≠ reserved) (hsecond : start + 1 ≠ reserved) :
    WellFormed (twoTransfers start).view.contents ⟨start, start + 2⟩ := by
  have hone : (start + 1).toNat = start.toNat + 1 := UInt64.toNat_add_ofNat (n := 1) (by omega)
  have htwo : (start + 2).toNat = start.toNat + 2 := UInt64.toNat_add_ofNat (n := 2) hstart
  have hne : start + 1 ≠ start := by
    rw [ne_eq, ← UInt64.toNat_inj]
    omega
  refine ⟨?_, ?_, ?_, ?_⟩
  · rw [rangeIn, twoTransfers_contents, if_neg (mt Key.entry_eq_queue.1 hsecond),
      if_neg (mt Key.entry_eq_queue.1 hfirst), if_pos rfl]
    exact QueueRange.decode_encode _
  · simp only [UInt64.le_iff_toNat_le]
    omega
  · intro position hbehind hbefore
    simp only [UInt64.le_iff_toNat_le, UInt64.lt_iff_toNat_lt] at hbehind hbefore
    rw [entryIn, twoTransfers_contents]
    have hcases : position = start ∨ position = start + 1 := by
      simp only [← UInt64.toNat_inj]
      omega
    rcases hcases with rfl | rfl
    · rw [if_neg fun hkey => hne (Key.entry_bytes_inj hkey), if_pos rfl]
      have hdecode := Entry.decode_encode (transfer 0) [] (by decide)
      rw [List.append_nil] at hdecode
      simp [hdecode]
    · rw [if_pos rfl]
      have hdecode := Entry.decode_encode (transfer 1) [] (by decide)
      rw [List.append_nil] at hdecode
      simp [hdecode]
  · intro position houtside hreserved
    simp only [UInt64.le_iff_toNat_le, UInt64.lt_iff_toNat_lt] at houtside
    rw [twoTransfers_contents, if_neg, if_neg, if_neg, if_neg]
    · exact fun hkey => by simpa [Key.bytes] using congrArg List.length hkey
    · exact fun hkey => hreserved (Key.entry_eq_queue.1 hkey.symm)
    · intro hkey
      rw [← Key.entry_bytes_inj hkey] at houtside
      omega
    · intro hkey
      rw [← Key.entry_bytes_inj hkey] at houtside
      omega

/-- A block keeps the queue in order, and it conserves what is queued exactly when the end of the queue
does not pass over the reserved position. -/
theorem execute_conserves_queue (avoids : r.contracts.Avoids Key.IsQueue) {pool : Pool}
    {dealer : Dealer} {n n' : Node} {e : BlockExecution} {before : QueueRange}
    (hwell : WellFormed n.view.contents before)
    (h : pool.execute r block dealer n = .ok e n') :
    ∃ now, rangeIn n'.view.contents = .ok now ∧
      now.stop.toNat = before.stop.toNat + e.reappended ∧
      now.start.toNat = before.start.toNat + e.results.length + e.reappended ∧
      e.rounds ≤ pool.rounds.toNat ∧
      (e.published.map (·.position)).Pairwise (· < ·) ∧
      (∀ x ∈ e.published, before.start ≤ x.position ∧ x.position < now.start) ∧
      (∀ x ∈ e.published, x.position < before.stop →
        entryIn n.view.contents x.position = some x.result.tx) ∧
      ((waiting n.view.contents).Perm (e.results.map (·.tx) ++ waiting n'.view.contents) ↔
        ¬ Passes before.stop now.stop) ∧
      (WellFormed n'.view.contents now ↔ ¬ Passes before.stop now.stop) := by
  obtain ⟨_, _, _, -, -, -, hruns, hrounds⟩ := execute_runs h
  obtain ⟨now, hmoved⟩ := hruns.moved avoids hwell.range hwell.ordered
  have hresults : e.published.map (·.result.tx) = e.results.map (·.tx) := by
    simp [BlockExecution.results]
  have hcount : e.published.length = e.results.length := by simp [BlockExecution.results]
  obtain ⟨lost, hlength, hperm⟩ := hmoved.conserved
  rw [hresults] at hperm
  refine ⟨now, hmoved.range, hmoved.stop, by rw [← hcount, hmoved.start], hrounds, hmoved.ascending,
    hmoved.taken, hmoved.stored, ?_, ?_⟩
  · constructor
    · intro hall hpasses
      rw [if_pos hpasses] at hlength
      have hcounts := hperm.length_eq.trans hall.length_eq
      simp only [List.length_append] at hcounts
      omega
    · intro hpasses
      rw [if_neg hpasses, List.length_eq_zero_iff] at hlength
      rw [hlength, List.append_nil] at hperm
      exact hperm.symm
  · constructor
    · intro hnow hpasses
      exact hnow.not_live (hmoved.behind (UInt64.le_trans hwell.ordered hpasses.1)) hpasses.2
    · exact hmoved.wellFormed hwell

theorem twoTransfers_conserved :
    ∃ e n' now, smallPool.execute stakingRunner {} .inOrder (twoTransfers 0) = .ok e n' ∧
      rangeIn n'.view.contents = .ok now ∧ e.reappended = 1 ∧ now.stop.toNat = 3 ∧
      (waiting (twoTransfers 0).view.contents).Perm (e.results.map (·.tx) ++ waiting n'.view.contents) ∧
      WellFormed n'.view.contents now := by
  have hends : endsWith (smallPool.execute stakingRunner {} .inOrder (twoTransfers 0))
      (fun e _ => e.reappended == 1) = true := by decide +kernel
  obtain ⟨e, n', h, hback⟩ := endsWith_iff.1 hends
  have hstaking : stakingRunner.contracts.OnlyStaking := ContractTable.onlyStaking_insert
  have hwell := twoTransfers_wellFormed 0 (by decide) (by decide) (by decide)
  obtain ⟨now, hrange, hstop, -, -, -, -, -, hperm, hnow⟩ :=
    execute_conserves_queue hstaking.avoids hwell h
  have hback := beq_iff_eq.1 hback
  have hend : now.stop.toNat = 3 := by rw [hstop, hback]; rfl
  have hpasses : ¬ Passes (0 + 2) now.stop := by
    rw [passes_iff, hend]
    decide
  exact ⟨e, n', now, h, hrange, hback, hend, hperm.2 hpasses, hnow.2 hpasses⟩

/-- A transaction that is sent back to the reserved position is neither published nor queued. -/
theorem twoTransfers_lost :
    ∃ e n', { smallPool with rounds := 1 }.execute stakingRunner {} .inOrder (twoTransfers (reserved - 2))
        = .ok e n' ∧
      WellFormed (twoTransfers (reserved - 2)).view.contents ⟨reserved - 2, reserved⟩ ∧
      ¬ (waiting (twoTransfers (reserved - 2)).view.contents).Perm
        (e.results.map (·.tx) ++ waiting n'.view.contents) := by
  have hends : endsWith
      ({ smallPool with rounds := 1 }.execute stakingRunner {} .inOrder (twoTransfers (reserved - 2)))
      (fun e n' => e.results.length == 1 && (waiting n'.view.contents).length == 0) = true := by
    decide +kernel
  obtain ⟨e, n', h, htest⟩ := endsWith_iff.1 hends
  have hwell := twoTransfers_wellFormed (reserved - 2) (by decide) (by decide) (by decide)
  have hbefore : (waiting (twoTransfers (reserved - 2)).view.contents).length = 2 := by decide +kernel
  refine ⟨e, n', h, hwell, fun hperm => ?_⟩
  have hcount := hperm.length_eq
  simp only [Bool.and_eq_true, beq_iff_eq] at htest
  rw [hbefore, List.length_append, List.length_map, htest.1, htest.2] at hcount
  cases hcount

end Rounds

end RoundLedger
