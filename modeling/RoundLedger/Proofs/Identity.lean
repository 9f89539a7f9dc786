import RoundLedger.Transaction

/-!
# What identifies a transaction

A transaction is named by the hash of its content. The content holds no lengths, but every part of it tells where
it ends, whatever stands behind it, and only the last one is of any length. So two transactions share a content
only if they agree in all but their heights, and a name only then or where the hash collides.
-/

namespace RoundLedger

/-! ## Parts that tell where they end -/

/-- What is written for a value can be split off the front of any text. -/
def SelfDelimiting {α : Type} (write : α → Bytes) : Prop :=
  ∀ {a b : α} {rest rest' : Bytes}, write a ++ rest = write b ++ rest' → a = b ∧ rest = rest'

namespace SelfDelimiting

variable {α : Type} {write : α → Bytes}

theorem of_length {width : Nat} (hlength : ∀ a, (write a).length = width)
    (hinj : ∀ {a b}, write a = write b → a = b) : SelfDelimiting write := by
  intro a b rest rest' h
  obtain ⟨hwritten, hrest⟩ := List.append_inj h ((hlength a).trans (hlength b).symm)
  exact ⟨hinj hwritten, hrest⟩

/-- A byte in front tells whether there is a value. The two forms differ in length. -/
theorem optional (hwrite : SelfDelimiting write) :
    SelfDelimiting fun value? : Option α => value?.elim [0] (1 :: write ·) := by
  intro a b rest rest' h
  cases a <;> cases b <;>
    simp only [Option.elim, List.cons_append, List.nil_append, List.cons.injEq, true_and] at h
  case none.none => exact ⟨rfl, h⟩
  case none.some => exact absurd h.1 (by decide)
  case some.none => exact absurd h.1 (by decide)
  case some.some =>
    obtain ⟨rfl, hrest⟩ := hwrite h
    exact ⟨rfl, hrest⟩

theorem address : SelfDelimiting Address.bytes := of_length Address.length_bytes Address.bytes_inj

theorem word : SelfDelimiting Word.bytes := of_length Word.length_bytes Word.bytes_inj

theorem count : SelfDelimiting BigEndian.encode64 := of_length BigEndian.length_encode64 BigEndian.encode64_inj

end SelfDelimiting

/-! ## Content -/

namespace Transaction

/-- Two transactions agree in all but the heights at which they were collected. -/
structure Agree (tx tx' : Transaction) : Prop where
  sender : tx.sender = tx'.sender
  destination : tx.destination = tx'.destination
  nonce : tx.nonce = tx'.nonce
  value : tx.value = tx'.value
  gasPrice : tx.gasPrice = tx'.gasPrice
  gasLimit : tx.gasLimit = tx'.gasLimit
  data : tx.data = tx'.data

/-- The parts in their order, each with all that stands behind it. -/
theorem content_eq (tx : Transaction) :
    tx.content = Address.bytes tx.sender ++ (tx.destination.elim [0] (1 :: Address.bytes ·)
      ++ (BigEndian.encode64 tx.nonce ++ (Word.bytes tx.value ++ (Word.bytes tx.gasPrice
        ++ (BigEndian.encode64 tx.gasLimit ++ tx.data))))) := by
  simp only [content, List.append_assoc]
  cases tx.destination <;> rfl

variable {tx tx' : Transaction}

theorem agree_of_content (h : tx.content = tx'.content) : tx.Agree tx' := by
  rw [content_eq, content_eq] at h
  -- part after part is split off, and what is left at the end is the data
  obtain ⟨hsender, h⟩ := SelfDelimiting.address h
  obtain ⟨hdestination, h⟩ := SelfDelimiting.address.optional h
  obtain ⟨hnonce, h⟩ := SelfDelimiting.count h
  obtain ⟨hvalue, h⟩ := SelfDelimiting.word h
  obtain ⟨hgasPrice, h⟩ := SelfDelimiting.word h
  obtain ⟨hgasLimit, hdata⟩ := SelfDelimiting.count h
  exact ⟨hsender, hdestination, hnonce, hvalue, hgasPrice, hgasLimit, hdata⟩

theorem content_eq_iff : tx.content = tx'.content ↔ tx.Agree tx' := by
  refine ⟨agree_of_content, fun h => ?_⟩
  rw [content_eq, content_eq, h.sender, h.destination, h.nonce, h.value, h.gasPrice, h.gasLimit, h.data]

end Transaction

/-! ## Names -/

namespace Keccak

/-- Two messages with one hash. -/
def Collision (message message' : Bytes) : Prop := message ≠ message' ∧ hash message = hash message'

@[simp] theorem length_hash (message : Bytes) : (hash message).length = 32 := by
  simp [hash]

/-- The number keeps all of the hash. -/
theorem digest_eq_iff {message message' : Bytes} : digest message = digest message' ↔ hash message = hash message' := by
  refine ⟨fun h => ?_, fun h => congrArg Word.ofBytes h⟩
  rw [← Word.bytes_ofBytes _ (length_hash message), ← Word.bytes_ofBytes _ (length_hash message')]
  exact congrArg Word.bytes h

end Keccak

namespace Transaction

/-- Two transactions have one content exactly if they agree in all but their heights, and one name exactly if they
agree so or the hash function takes their different contents to one hash. -/
theorem content_unambiguous (tx tx' : Transaction) :
    (tx.content = tx'.content ↔ tx.Agree tx') ∧
      (tx.hash = tx'.hash ↔ tx.Agree tx' ∨ Keccak.Collision tx.content tx'.content) := by
  refine ⟨content_eq_iff, Keccak.digest_eq_iff.trans ⟨fun h => ?_, ?_⟩⟩
  · by_cases hcontent : tx.content = tx'.content
    · exact .inl (content_eq_iff.1 hcontent)
    · exact .inr ⟨hcontent, h⟩
  · rintro (hagree | hcollision)
    · exact congrArg Keccak.hash (content_eq_iff.2 hagree)
    · exact hcollision.2

/-- A creation is not a call of the zero address. -/
example : content ⟨1, none, 3, 100, 1, 100000, [], 7⟩ ≠ content ⟨1, some 0, 3, 100, 1, 100000, [], 7⟩ := by decide

end Transaction

end RoundLedger
