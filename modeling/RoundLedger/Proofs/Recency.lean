import Mathlib.Data.Finset.Card
import Mathlib.Data.List.Perm.Basic
import RoundLedger.Proofs.Trial

/-!
# Which block was used last

Asking for the hash of a block changes no hash, but it changes which block is pushed out next. So two
lists of recent blocks that hold the same in different orders answer alike until a block is pushed out.
`Likeness` says when they go on answering alike.
-/

namespace RoundLedger

/-! ## Blocks that are asked for -/

/-- The program may ask for the hash of the block. -/
def HostProgram.Asks {α : Type} (number : UInt64) : HostProgram α → Prop
  | done _ => False
  | fail _ => False
  | ask q next => q = .blockHash number ∨ ∃ a, (next a).Asks number

namespace Runner

open Program

variable {r : Runner} {hashes : BlockHashes} {block : Block} {tx : Transaction} {number : UInt64}

theorem serve_asks {α : Type} {p : HostProgram α} {request : CallRequest} {out : α × List Exchange}
    {f f' : Contents} (h : (r.serve hashes p).eval f = .ok out f')
    (hasked : number ∈ Conversation.blocksAsked ⟨request, out.2⟩) : p.Asks number := by
  induction p generalizing out f f' with
  | done a =>
    obtain ⟨rfl, -⟩ := eval_pure_ok.1 h
    cases hasked
  | fail fault => exact absurd h eval_fail_ok
  | ask q next ih =>
    obtain ⟨a, _, -, hserve⟩ := eval_bind_ok.1 h
    obtain ⟨⟨b, exchanges⟩, _, hrest, hdone⟩ := eval_bind_ok.1 hserve
    obtain ⟨rfl, -⟩ := eval_pure_ok.1 hdone
    obtain ⟨exchange, hmem, hnumber⟩ := List.mem_filterMap.1 hasked
    rcases List.mem_cons.1 hmem with rfl | hmem
    · left
      dsimp only at hnumber
      split at hnumber
      · cases hnumber
        rfl
      · cases hnumber
    · have hrecursive : number ∈ Conversation.blocksAsked ⟨request, exchanges⟩ :=
        List.mem_filterMap.2 ⟨exchange, hmem, hnumber⟩
      exact .inr ⟨a, ih a hrest hrecursive⟩

theorem callBackend_asks {request : CallRequest} {out : CallOutcome × Conversation} {f f' : Contents}
    (h : (r.callBackend hashes request).eval f = .ok out f') (hasked : number ∈ out.2.blocksAsked) :
    (r.backend request).Asks number := by
  obtain ⟨⟨outcome, exchanges⟩, _, hserve, hdone⟩ := eval_bind_ok.1 h
  obtain ⟨rfl, -⟩ := eval_pure_ok.1 hdone
  exact serve_asks hserve hasked

theorem execute_asks {out : CommittedResult × List Conversation} {f f' : Contents}
    (h : (r.execute hashes block tx).eval f = .ok out f')
    (hasked : number ∈ out.2.flatMap (·.blocksAsked)) :
    (r.backend (r.requestOf block tx)).Asks number := by
  obtain ⟨checked, _, -, h⟩ := eval_bind_ok.1 h
  cases checked with
  | error mismatch =>
    obtain ⟨rfl, -⟩ := eval_pure_ok.1 h
    cases hasked
  | ok sender =>
    obtain ⟨_, _, -, h⟩ := eval_bind_ok.1 h
    obtain ⟨_, _, -, h⟩ := eval_bind_ok.1 h
    split at h
    · obtain ⟨_, _, -, h⟩ := eval_bind_ok.1 h
      obtain ⟨rfl, -⟩ := eval_pure_ok.1 h
      cases hasked
    · obtain ⟨⟨result, conversation⟩, _, hrun, h⟩ := eval_bind_ok.1 h
      obtain ⟨rfl, -⟩ := eval_pure_ok.1 h
      obtain ⟨⟨outcome, conversation'⟩, _, hcall, hrun⟩ := eval_bind_ok.1 hrun
      obtain ⟨_, _, -, hrun⟩ := eval_bind_ok.1 hrun
      obtain ⟨_, _, -, hrun⟩ := eval_bind_ok.1 hrun
      obtain ⟨hpair, -⟩ := eval_pure_ok.1 hrun
      cases hpair
      rw [List.flatMap_singleton] at hasked
      exact callBackend_asks hcall hasked

/-- A transaction asks for no more blocks than its request to the backend may. -/
theorem trial_asks {f : Contents} {out : CommittedResult × List Conversation} {o : Overlay}
    (h : r.trial hashes block tx f = .ok out o) (hasked : number ∈ out.2.flatMap (·.blocksAsked)) :
    (r.backend (r.requestOf block tx)).Asks number := by
  unfold trial at h
  split at h
  · cases h
    cases hasked
  · exact execute_asks (eval_of_above h) hasked

theorem simulate_asks {request : CallRequest} {out : CallResult × List Conversation}
    {f f' : Contents} (h : (r.simulate hashes request).eval f = .ok out f')
    (hasked : number ∈ out.2.flatMap (·.blocksAsked)) : (r.backend request).Asks number := by
  unfold simulate at h
  split at h
  · obtain ⟨_, _, -, h⟩ := eval_bind_ok.1 h
    obtain ⟨rfl, -⟩ := eval_pure_ok.1 h
    cases hasked
  · obtain ⟨⟨outcome, conversation⟩, _, hcall, h⟩ := eval_bind_ok.1 h
    obtain ⟨rfl, -⟩ := eval_pure_ok.1 h
    rw [List.flatMap_singleton] at hasked
    exact callBackend_asks hcall hasked

end Runner

/-! ## The same blocks in another order -/

section Lookup

variable {κ β : Type} [BEq κ] [LawfulBEq κ] {items items' : List (κ × β)}

theorem lookup_of_mem (distinct : (items.map (·.1)).Nodup) {key : κ} {value : β}
    (h : (key, value) ∈ items) : items.lookup key = some value := by
  induction items with
  | nil => cases h
  | cons item rest ih =>
    rw [List.map_cons, List.nodup_cons] at distinct
    rw [List.lookup_cons]
    rcases List.mem_cons.1 h with rfl | h
    · rw [beq_self_eq_true]
    · have hne : (key == item.1) = false := by
        rw [beq_eq_false_iff_ne]
        rintro rfl
        exact distinct.1 (List.mem_map.2 ⟨_, h, rfl⟩)
      rw [hne]
      exact ih distinct.2 h

theorem lookup_perm (h : items.Perm items') (distinct : (items.map (·.1)).Nodup) (key : κ) :
    items.lookup key = items'.lookup key := by
  have distinct' := (h.map (·.1)).nodup_iff.1 distinct
  cases hfound : items'.lookup key with
  | none =>
    rw [List.lookup_eq_none_iff] at hfound ⊢
    exact fun item hitem => hfound item (h.mem_iff.1 hitem)
  | some value =>
    obtain ⟨front, back, rfl, -⟩ := List.lookup_eq_some_iff.1 hfound
    exact lookup_of_mem distinct (h.mem_iff.2 (by simp))

end Lookup

namespace BlockHashes

variable {h : BlockHashes}

/-- The blocks that a list holds. -/
def numbers (h : BlockHashes) : List UInt64 := h.recent.map (·.1)

theorem touch_perm (distinct : h.numbers.Nodup) (number : UInt64) :
    (h.touch number).recent.Perm h.recent := by
  unfold touch
  cases hfound : h.recent.lookup number with
  | none => exact .refl _
  | some hash =>
    obtain ⟨front, back, hsplit, hfront⟩ := List.lookup_eq_some_iff.1 hfound
    rw [numbers, hsplit, List.map_append, List.map_cons, List.nodup_middle, List.nodup_cons] at distinct
    have hkeep (items : List (UInt64 × Digest)) (hitems : ∀ item ∈ items, item.1 ≠ number) :
        items.filter (·.1 ≠ number) = items := by simpa [List.filter_eq_self] using hitems
    have hrest : h.recent.filter (·.1 ≠ number) = front ++ back := by
      rw [hsplit, List.filter_append, List.filter_cons_of_neg (by simp), hkeep front, hkeep back]
      · rintro item hitem rfl
        exact distinct.1 (List.mem_append_right _ (List.mem_map.2 ⟨_, hitem, rfl⟩))
      · rintro item hitem rfl
        exact distinct.1 (List.mem_append_left _ (List.mem_map.2 ⟨_, hitem, rfl⟩))
    dsimp only
    rw [hrest, hsplit]
    exact List.perm_middle.symm

theorem nodup_touch (distinct : h.numbers.Nodup) (number : UInt64) : (h.touch number).numbers.Nodup := by
  have hnumbers : (h.touch number).numbers.Perm h.numbers := (touch_perm distinct number).map _
  exact hnumbers.nodup_iff.2 distinct

theorem nodup_foldl_touch (distinct : h.numbers.Nodup) (asked : List UInt64) :
    (asked.foldl touch h).numbers.Nodup := by
  induction asked generalizing h with
  | nil => exact distinct
  | cons number rest ih => exact ih (nodup_touch distinct number)

theorem numbers_insert_sublist (h : BlockHashes) (number : UInt64) (hash : Digest) :
    (h.insert number hash).numbers.Sublist (number :: h.numbers) := by
  rw [numbers, insert, List.map_take]
  exact (List.take_sublist _ _).trans ((List.filter_sublist.map _).cons_cons number)

theorem nodup_insert (distinct : h.numbers.Nodup) (number : UInt64) (hash : Digest) :
    (h.insert number hash).numbers.Nodup := by
  have hkept : (((number, hash) :: h.recent.filter (·.1 ≠ number)).map (·.1)).Nodup := by
    rw [List.map_cons, List.nodup_cons]
    refine ⟨?_, distinct.sublist (List.filter_sublist.map _)⟩
    intro hmem
    obtain ⟨block, hblock, hsame⟩ := List.mem_map.1 hmem
    simpa [hsame] using (List.mem_filter.1 hblock).2
  rw [numbers, insert, List.map_take]
  exact hkept.sublist (List.take_sublist _ _)

/-- New blocks go in front one by one, and the last ones are pushed out. -/
theorem recent_foldl_insert {numbers : List UInt64} (distinct : (numbers ++ h.numbers).Nodup)
    (fits : h.recent.length ≤ capacity) (hash : Digest) :
    (numbers.foldl (fun h number => h.insert number hash) h).recent
      = ((numbers.map (·, hash)).reverse ++ h.recent).take capacity := by
  induction numbers generalizing h with
  | nil => exact (List.take_of_length_le fits).symm
  | cons number rest ih =>
    rw [List.cons_append, List.nodup_cons] at distinct
    have hfilter : h.recent.filter (·.1 ≠ number) = h.recent := by
      rw [List.filter_eq_self]
      rintro block hblock
      simp only [ne_eq, decide_not, Bool.not_eq_true', decide_eq_false_iff_not]
      rintro rfl
      exact distinct.1 (List.mem_append_right _ (List.mem_map_of_mem hblock))
    have hinsert : (h.insert number hash).recent = ((number, hash) :: h.recent).take capacity := by
      rw [insert, hfilter]
    rw [List.foldl_cons, ih]
    · rw [hinsert, List.map_cons, List.reverse_cons, List.append_assoc, List.singleton_append,
        List.take_append, List.take_append, List.take_take]
      congr 2
      omega
    · have hmiddle : (rest ++ number :: h.numbers).Nodup :=
        List.nodup_middle.2 (List.nodup_cons.2 distinct)
      exact hmiddle.sublist ((numbers_insert_sublist h number hash).append_left rest)
    · exact length_insert_le h number hash

end BlockHashes

/-! ## Lists that answer alike -/

/-- Two lists of recent blocks with the same blocks, all of them among the known ones. -/
structure BlockHashes.Shuffled (known : Finset UInt64) (h h' : BlockHashes) : Prop where
  perm : h.recent.Perm h'.recent
  distinct : h.numbers.Nodup
  known : ∀ number ∈ h.numbers, number ∈ known

namespace BlockHashes.Shuffled

variable {known : Finset UInt64} {h h' : BlockHashes} {number : UInt64}

theorem refl (distinct : h.numbers.Nodup) (hknown : ∀ number ∈ h.numbers, number ∈ known) :
    Shuffled known h h := ⟨.refl _, distinct, hknown⟩

theorem symm (hsame : Shuffled known h h') : Shuffled known h' h := by
  have hnumbers : h.numbers.Perm h'.numbers := hsame.perm.map _
  exact ⟨hsame.perm.symm, hnumbers.nodup_iff.1 hsame.distinct,
    fun number hnumber => hsame.known number (hnumbers.mem_iff.2 hnumber)⟩

theorem lookUp (hsame : Shuffled known h h') (number : UInt64) :
    h.lookUp number = h'.lookUp number := by
  rw [BlockHashes.lookUp, BlockHashes.lookUp, lookup_perm hsame.perm hsame.distinct]

theorem touch_left (hsame : Shuffled known h h') (number : UInt64) :
    Shuffled known (h.touch number) h' := by
  have htouched := touch_perm hsame.distinct number
  have hnumbers : (h.touch number).numbers.Perm h.numbers := htouched.map _
  exact ⟨htouched.trans hsame.perm, hnumbers.nodup_iff.2 hsame.distinct,
    fun number hnumber => hsame.known number (hnumbers.mem_iff.1 hnumber)⟩

/-- A new block pushes none out while no more blocks are known than there is room for. -/
theorem insert (hroom : known.card ≤ capacity) (hsame : Shuffled known h h')
    (hnumber : number ∈ known) (hash : Digest) :
    Shuffled known (h.insert number hash) (h'.insert number hash) := by
  have hfits (g : BlockHashes) (hg : g.numbers.Nodup) (hknown : ∀ n ∈ g.numbers, n ∈ known) :
      (g.insert number hash).recent = (number, hash) :: g.recent.filter (·.1 ≠ number) := by
    have hdistinct : (((g.recent.filter (·.1 ≠ number)).map (·.1))).Nodup :=
      hg.sublist (List.filter_sublist.map _)
    have hsub : ((g.recent.filter (·.1 ≠ number)).map (·.1)).toFinset ⊆ known.erase number := by
      intro other hother
      obtain ⟨block, hblock, rfl⟩ := List.mem_map.1 (List.mem_toFinset.1 hother)
      obtain ⟨hblock, hne⟩ := List.mem_filter.1 hblock
      exact Finset.mem_erase.2 ⟨by simpa using hne, hknown _ (List.mem_map_of_mem hblock)⟩
    have hcard := Finset.card_le_card hsub
    rw [List.toFinset_card_of_nodup hdistinct, List.length_map] at hcard
    have herase := Finset.card_erase_lt_of_mem hnumber
    refine List.take_of_length_le ?_
    rw [List.length_cons]
    omega
  have hsym := hsame.symm
  refine ⟨?_, nodup_insert hsame.distinct number hash, ?_⟩
  · rw [hfits h hsame.distinct hsame.known, hfits h' hsym.distinct hsym.known]
    exact (hsame.perm.filter _).cons _
  · intro other hother
    rcases List.mem_cons.1 ((numbers_insert_sublist h number hash).subset hother) with rfl | hother
    · exact hnumber
    · exact hsame.known other hother

end BlockHashes.Shuffled

/-- When two lists of recent blocks go on answering alike. -/
structure Likeness (backend : Backend) where
  Rel : BlockHashes → BlockHashes → Prop
  /-- Blocks that may be asked for on one side alone. -/
  Free : UInt64 → Prop
  /-- Blocks that may be recorded. -/
  Known : UInt64 → Prop
  /-- The work of a round may be done in different orders. -/
  Loose : Prop
  lookUp : ∀ {h h'}, Rel h h' → ∀ number, h.lookUp number = h'.lookUp number
  touch : ∀ {h h'}, Rel h h' → ∀ number, Rel (h.touch number) (h'.touch number)
  touch_left : ∀ {h h' number}, Free number → Rel h h' → Rel (h.touch number) h'
  touch_right : ∀ {h h' number}, Free number → Rel h h' → Rel h (h'.touch number)
  insert : ∀ {h h' number}, Known number → Rel h h' → ∀ hash,
    Rel (h.insert number hash) (h'.insert number hash)
  loose : Loose → ∀ request number, (backend request).Asks number → Free number

namespace Likeness

variable {backend : Backend}

/-- Equal lists that hold no block twice stay so when nothing is asked for on one side alone. -/
def equal (backend : Backend) : Likeness backend where
  Rel := fun h h' => h = h' ∧ h.numbers.Nodup
  Free := fun _ => False
  Known := fun _ => True
  Loose := ∀ request number, ¬ (backend request).Asks number
  lookUp := by
    rintro h h' ⟨rfl, -⟩ number
    rfl
  touch := by
    rintro h h' ⟨rfl, hdistinct⟩ number
    exact ⟨rfl, BlockHashes.nodup_touch hdistinct number⟩
  touch_left := fun hfree => hfree.elim
  touch_right := fun hfree => hfree.elim
  insert := by
    rintro h h' number - ⟨rfl, hdistinct⟩ hash
    exact ⟨rfl, BlockHashes.nodup_insert hdistinct number hash⟩
  loose := id

/-- The same blocks in any order answer alike while none is pushed out. -/
def roomy (backend : Backend) (known : Finset UInt64) (hroom : known.card ≤ BlockHashes.capacity) :
    Likeness backend where
  Rel := BlockHashes.Shuffled known
  Free := fun _ => True
  Known := (· ∈ known)
  Loose := True
  lookUp := BlockHashes.Shuffled.lookUp
  touch := fun hsame number => ((hsame.touch_left number).symm.touch_left number).symm
  touch_left := fun _ hsame => hsame.touch_left _
  touch_right := fun _ hsame => (hsame.symm.touch_left _).symm
  insert := fun hknown hsame hash => hsame.insert hroom hknown hash
  loose := fun _ _ _ _ => trivial

variable (L : Likeness backend) {h h' : BlockHashes}

theorem foldl_touch (hsame : L.Rel h h') (asked : List UInt64) :
    L.Rel (asked.foldl BlockHashes.touch h) (asked.foldl BlockHashes.touch h') := by
  induction asked generalizing h h' with
  | nil => exact hsame
  | cons number rest ih => exact ih (L.touch hsame number)

theorem foldl_touch_left (hsame : L.Rel h h') {asked : List UInt64}
    (hfree : ∀ number ∈ asked, L.Free number) : L.Rel (asked.foldl BlockHashes.touch h) h' := by
  induction asked generalizing h with
  | nil => exact hsame
  | cons number rest ih =>
    rw [List.forall_mem_cons] at hfree
    exact ih (L.touch_left hfree.1 hsame) hfree.2

theorem foldl_touch_right (hsame : L.Rel h h') {asked : List UInt64}
    (hfree : ∀ number ∈ asked, L.Free number) : L.Rel h (asked.foldl BlockHashes.touch h') := by
  induction asked generalizing h' with
  | nil => exact hsame
  | cons number rest ih =>
    rw [List.forall_mem_cons] at hfree
    exact ih (L.touch_right hfree.1 hsame) hfree.2

end Likeness

end RoundLedger
