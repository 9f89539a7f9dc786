import RoundLedger.Word

/-!
# Hashes of recent blocks

A list of at most 256 blocks. A block that is recorded or asked for moves to the front; a
new block pushes the last one out.
-/

namespace RoundLedger

structure BlockHashes where
  /-- The blocks, the one used last in front. -/
  recent : List (UInt64 × Digest) := []

namespace BlockHashes

def capacity : Nat := 256

def lookUp (h : BlockHashes) (number : UInt64) : Digest := (h.recent.lookup number).getD 0

def insert (h : BlockHashes) (number : UInt64) (hash : Digest) : BlockHashes :=
  ⟨((number, hash) :: h.recent.filter (·.1 ≠ number)).take capacity⟩

def touch (h : BlockHashes) (number : UInt64) : BlockHashes :=
  match h.recent.lookup number with
  | some hash => ⟨(number, hash) :: h.recent.filter (·.1 ≠ number)⟩
  | none => h

theorem lookUp_insert (h : BlockHashes) (number : UInt64) (hash : Digest) :
    (h.insert number hash).lookUp number = hash := by
  simp [lookUp, insert, capacity]

theorem length_insert_le (h : BlockHashes) (number : UInt64) (hash : Digest) :
    (h.insert number hash).recent.length ≤ capacity := by
  rw [insert, List.length_take]
  exact Nat.min_le_left ..

theorem lookup_filter_ne (blocks : List (UInt64 × Digest)) {number other : UInt64}
    (h : other ≠ number) : (blocks.filter (·.1 ≠ number)).lookup other = blocks.lookup other := by
  induction blocks with
  | nil => rfl
  | cons block rest ih =>
    obtain ⟨n, hash⟩ := block
    rw [List.filter_cons, List.lookup_cons]
    split
    · rw [List.lookup_cons, ih]
    · rename_i hn
      have hne : (other == n) = false := by
        simp only [ne_eq, decide_not, Bool.not_eq_true', decide_eq_false_iff_not,
          Decidable.not_not] at hn
        simpa [hn] using h
      rw [hne, ih]

/-- Asking for a block changes no hash. -/
theorem lookUp_touch (h : BlockHashes) (number other : UInt64) :
    (h.touch number).lookUp other = h.lookUp other := by
  unfold touch
  cases hfound : h.recent.lookup number with
  | none => rfl
  | some hash =>
    by_cases heq : other = number
    · subst heq
      simp [lookUp, hfound]
    · have hne : (other == number) = false := by simpa using heq
      rw [lookUp, lookUp, List.lookup_cons, hne, lookup_filter_ne _ heq]

end BlockHashes

end RoundLedger
