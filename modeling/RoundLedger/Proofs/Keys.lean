import RoundLedger.Key
import RoundLedger.Queue

/-!
# Records apart

State records lie under keys of their own. Queue records lie under keys of eight bytes, apart from
all state, and the pointers share a key with one entry only: the one at `Queue.reserved`.
-/

namespace RoundLedger

namespace Queue

/-- The position whose entry would lie under the key of the pointers. -/
def reserved : UInt64 := 0x3fffffffffffff00

end Queue

namespace Key

/-- Whether a key is that of the pointers or of an entry. -/
def IsQueue (key : Bytes) : Prop := key = queue.bytes ∨ ∃ position, key = (entry position).bytes

def isState : Key → Bool
  | queue => false
  | entry _ => false
  | _ => true

theorem length_of_isQueue {key : Bytes} (h : IsQueue key) : key.length = 8 := by
  rcases h with rfl | ⟨position, rfl⟩
  · rfl
  · simp [bytes]

theorem length_ne_of_isState {k : Key} (h : k.isState = true) : k.bytes.length ≠ 8 := by
  cases k <;> simp_all [bytes, isState]

theorem not_isQueue_of_isState {k : Key} (h : k.isState = true) : ¬ IsQueue k.bytes :=
  fun hqueue => length_ne_of_isState h (length_of_isQueue hqueue)

theorem isQueue_entry (position : UInt64) : IsQueue (entry position).bytes := .inr ⟨position, rfl⟩

theorem isQueue_queue : IsQueue queue.bytes := .inl rfl

theorem not_isQueue {key : Bytes} :
    ¬ IsQueue key ↔ key ≠ queue.bytes ∧ ∀ position, key ≠ (entry position).bytes := by
  rw [IsQueue, not_or, not_exists]

theorem bytes_inj_of_isState {k k' : Key} (hk : k.isState = true) (h : k.bytes = k'.bytes) :
    k = k' := by
  have hlength := congrArg List.length h
  cases k <;> cases k' <;> simp [bytes] at h hlength <;> simp_all [isState]
  case account.account => exact Address.bytes_inj h
  case code.code => exact Address.bytes_inj h
  case slot.slot =>
    obtain ⟨hsequence, hplace⟩ := List.append_inj h (by simp)
    exact ⟨BigEndian.encode64_inj hsequence, Word.bytes_inj hplace⟩

theorem account_bytes_inj {a b : Address} (h : (account a).bytes = (account b).bytes) : a = b :=
  account.inj (bytes_inj_of_isState rfl h)

theorem entry_bytes_inj {p q : UInt64} (h : (entry p).bytes = (entry q).bytes) : p = q := by
  have hsum := BigEndian.encode64_inj h
  simpa using hsum

theorem entry_eq_queue {p : UInt64} : (entry p).bytes = queue.bytes ↔ p = Queue.reserved := by
  have hqueue : queue.bytes = (entry Queue.reserved).bytes := by decide
  rw [hqueue]
  constructor
  · exact entry_bytes_inj
  · rintro rfl
    rfl

end Key

end RoundLedger
