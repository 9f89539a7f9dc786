import RoundLedger.Proofs.Trial
import RoundLedger.Staking

/-!
# What transactions reach

A transaction touches state records and what the system contracts touch. So when no contract
touches the queue, neither the overlay of a transaction nor a commit hook does.
-/

namespace RoundLedger

open Program

/-- A contract that touches none of the keys, in whatever it is asked to do. -/
structure SystemContract.Avoids (c : SystemContract) (keys : Bytes → Prop) : Prop where
  execute : ∀ block tx, (c.execute block tx).Avoids keys
  run : ∀ input, (c.run input).Avoids keys
  committed : ∀ result, (c.committed result).Avoids keys

/-- All contracts of the table avoid the keys. -/
def ContractTable.Avoids (t : ContractTable) (keys : Bytes → Prop) : Prop :=
  ∀ (address : Address) (contract : SystemContract), t[address]? = some contract → contract.Avoids keys

theorem ContractTable.Avoids.at? {t : ContractTable} {keys : Bytes → Prop} (h : t.Avoids keys)
    {destination : Option Address} {contract : SystemContract}
    (hcontract : t.at? destination = some contract) : contract.Avoids keys := by
  cases destination with
  | none => cases hcontract
  | some address => exact h address contract hcontract

section State

variable {keys : Bytes → Prop} (apart : ∀ k : Key, k.isState = true → ¬ keys k.bytes)

include apart

/-! ## State -/

namespace State

theorem account_avoids (address : Address) : (State.account address).Avoids keys := by
  refine (avoids_look (apart (.account address) rfl)).bind fun record => ?_
  split
  · exact avoids_pure _
  · exact avoids_pure _
  · exact (avoids_ofExcept _).bind fun _ => avoids_pure _

theorem setAccount_avoids (address : Address) (account : Account) :
    (State.setAccount address account).Avoids keys :=
  avoids_write _ (apart (.account address) rfl)

theorem deleteAccount_avoids (address : Address) : (State.deleteAccount address).Avoids keys :=
  avoids_delete (apart (.account address) rfl)

theorem checkNonce_avoids (address : Address) (nonce : UInt64) :
    (State.checkNonce address nonce).Avoids keys := by
  refine (account_avoids apart address).bind fun account => ?_
  split
  · exact avoids_pure _
  · split
    · exact avoids_pure _
    · split <;> exact avoids_pure _

theorem code_avoids (address : Address) : (State.code address).Avoids keys := by
  refine (avoids_look (apart (.code address) rfl)).bind fun record => ?_
  split
  · exact avoids_pure _
  · exact (avoids_ofExcept _).bind fun _ => avoids_pure _

theorem setCode_avoids (address : Address) (code : Code) : (State.setCode address code).Avoids keys :=
  avoids_write _ (apart (.code address) rfl)

theorem deleteCode_avoids (address : Address) : (State.deleteCode address).Avoids keys :=
  avoids_delete (apart (.code address) rfl)

theorem storage_avoids (sequence : UInt64) (slot : Digest) :
    (State.storage sequence slot).Avoids keys :=
  avoids_look (apart (.slot sequence slot) rfl)

theorem setStorage_avoids (sequence : UInt64) (slot : Digest) (value : Bytes) :
    (State.setStorage sequence slot value).Avoids keys := by
  unfold State.setStorage
  split
  · exact avoids_delete (apart (.slot sequence slot) rfl)
  · exact avoids_write _ (apart (.slot sequence slot) rfl)

theorem counter_avoids (first : UInt8) : (State.counter first).Avoids keys := by
  refine (avoids_look (apart (.counter first) rfl)).bind fun record => ?_
  split
  · exact avoids_pure _
  · split
    · exact avoids_pure _
    · exact avoids_fail _

theorem setCounter_avoids (first : UInt8) (count : UInt64) :
    (State.setCounter first count).Avoids keys :=
  avoids_write _ (apart (.counter first) rfl)

end State

/-! ## The runner -/

namespace Runner

variable {r : Runner} (contracts : r.contracts.Avoids keys)

include contracts in
theorem answer_avoids (hashes : BlockHashes) (q : Query) : (r.answer hashes q).Avoids keys := by
  cases q with
  | counter first => exact State.counter_avoids apart first
  | account address => exact State.account_avoids apart address
  | code address => exact State.code_avoids apart address
  | storage sequence slot => exact State.storage_avoids apart sequence slot
  | blockHash number => exact avoids_pure _
  | precompile address input gasLeft =>
    refine (avoids_ofExcept _).bind fun call => ?_
    split
    · exact avoids_pure _
    · unfold ContractTable.callAsPrecompile
      split
      · exact avoids_pure _
      next contract hcontract =>
        dsimp only
        split
        · exact avoids_pure _
        · exact ((contracts address contract hcontract).run input).bind fun _ => avoids_pure _

include contracts in
theorem serve_avoids {α : Type} (hashes : BlockHashes) (p : HostProgram α) :
    (r.serve hashes p).Avoids keys := by
  induction p with
  | done a => exact avoids_pure _
  | fail fault => exact avoids_fail fault
  | ask q next ih =>
    exact (answer_avoids apart contracts hashes q).bind fun a => (ih a).bind fun _ => avoids_pure _

theorem changeAccount_avoids (address : Address) (account : Option Account) :
    (changeAccount address account).Avoids keys := by
  cases account with
  | none => exact State.deleteAccount_avoids apart address
  | some account =>
    refine (State.account_avoids apart address).bind fun previous => ?_
    split
    · split
      · exact avoids_fail _
      · exact State.setAccount_avoids apart address account
    · exact State.setAccount_avoids apart address account

theorem applyChanges_avoids (changes : ChangeSet) : (applyChanges changes).Avoids keys := by
  refine (avoids_forM fun _ _ => changeAccount_avoids apart _ _).bind fun _ => ?_
  refine (avoids_forM fun _ _ => State.setCounter_avoids apart _ _).bind fun _ => ?_
  refine (avoids_forM ?_).bind fun _ => avoids_forM fun _ _ => State.setStorage_avoids apart _ _ _
  rintro ⟨address, code⟩ -
  cases code with
  | none => exact State.deleteCode_avoids apart address
  | some code => exact State.setCode_avoids apart address code

theorem creditUnused_avoids (tx : Transaction) (gasUsed : UInt64) :
    (creditUnused tx gasUsed).Avoids keys := by
  unfold creditUnused
  dsimp only
  split
  · exact avoids_pure _
  · exact (State.account_avoids apart tx.sender).bind fun _ =>
      (State.setAccount_avoids apart tx.sender _).bind fun _ => avoids_pure _

include contracts in
theorem execute_avoids (hashes : BlockHashes) (block : Block) (tx : Transaction) :
    (r.execute hashes block tx).Avoids keys := by
  refine (State.checkNonce_avoids apart tx.sender tx.nonce).bind fun checked => ?_
  split
  · exact avoids_pure _
  · refine (avoids_orFail _ _).bind fun nonce => ?_
    refine (State.setAccount_avoids apart tx.sender _).bind fun _ => ?_
    split
    next contract hcontract =>
      refine Avoids.bind (((contracts.at? hcontract).execute block tx).bind fun outcome => ?_)
        fun _ => avoids_pure _
      exact (creditUnused_avoids apart tx _).bind fun _ => avoids_pure _
    next =>
      refine Avoids.bind (Avoids.bind ?_ fun called => ?_) fun _ => avoids_pure _
      · exact (serve_avoids apart contracts hashes _).bind fun _ => avoids_pure _
      · exact (applyChanges_avoids apart _).bind fun _ =>
          (creditUnused_avoids apart tx _).bind fun _ => avoids_pure _

include contracts in
/-- The overlay of a transaction holds none of the keys that all contracts avoid. -/
theorem trial_avoids {hashes : BlockHashes} {block : Block} {tx : Transaction} {f : Contents}
    {out : CommittedResult × List Conversation} {o : Overlay}
    (h : r.trial hashes block tx f = .ok out o) {key : Bytes} (hkey : keys key) :
    key ∉ o.reads ∧ key ∉ o.writes := by
  unfold trial at h
  split at h
  · cases h
    simp
  · have hnone := above_avoids h (execute_avoids apart contracts hashes block tx _) hkey
    simpa using hnone

omit apart in
include contracts in
/-- The commit hooks leave the keys as they are that all contracts avoid. -/
theorem Notified.avoids {result : CommittedResult} {f f' : Contents} (h : r.Notified result f f')
    {key : Bytes} (hkey : keys key) : f' key = f key := by
  obtain rfl | ⟨contract, event, hcontract, heval⟩ := h
  · rfl
  · exact eval_avoids heval ((contracts.at? hcontract).committed result _) hkey

end Runner

/-! ## The staking contract -/

namespace Staking

theorem readWord_avoids (slot : Digest) : (readWord slot).Avoids keys := by
  refine (State.storage_avoids apart _ slot).bind fun value => ?_
  dsimp only
  split
  · exact avoids_pure _
  · exact avoids_fail _

theorem writeWord_avoids (slot : Digest) (value : Word) : (writeWord slot value).Avoids keys :=
  State.setStorage_avoids apart _ slot _

theorem stake_avoids (tx : Transaction) (cost : UInt64) : (stake tx cost).Avoids keys := by
  unfold stake
  split
  · exact avoids_pure _
  · refine (State.account_avoids apart tx.sender).bind fun sender => ?_
    split
    · exact avoids_pure _
    · split
      · exact avoids_pure _
      · refine (State.account_avoids apart address).bind fun _ => ?_
        refine (State.setAccount_avoids apart _ _).bind fun _ => ?_
        refine (State.setAccount_avoids apart _ _).bind fun _ => ?_
        refine (readWord_avoids apart _).bind fun _ => (readWord_avoids apart _).bind fun _ => ?_
        exact (writeWord_avoids apart _ _).bind fun _ =>
          (writeWord_avoids apart _ _).bind fun _ => avoids_pure _

theorem unstake_avoids (tx : Transaction) (cost : UInt64) : (unstake tx cost).Avoids keys := by
  unfold unstake
  split
  · exact avoids_pure _
  · split
    · exact avoids_pure _
    · refine (readWord_avoids apart _).bind fun stake => ?_
      split
      · exact avoids_pure _
      · refine (State.account_avoids apart tx.sender).bind fun sender => ?_
        split
        · exact avoids_pure _
        · refine (State.account_avoids apart address).bind fun _ => ?_
          dsimp only
          split
          · exact avoids_fail _
          · refine (State.setAccount_avoids apart _ _).bind fun _ => ?_
            refine (State.setAccount_avoids apart _ _).bind fun _ => ?_
            exact (readWord_avoids apart _).bind fun _ => (writeWord_avoids apart _ _).bind fun _ =>
              (writeWord_avoids apart _ _).bind fun _ => avoids_pure _

theorem view_avoids (input : Bytes) : (view input).Avoids keys := by
  unfold view
  split
  · exact avoids_pure _
  · split
    · exact avoids_pure _
    · exact (readWord_avoids apart _).bind fun _ => avoids_pure _
  · exact (readWord_avoids apart _).bind fun _ => avoids_pure _
  · exact avoids_pure _

theorem viewTransaction_avoids (tx : Transaction) (cost : UInt64) :
    (viewTransaction tx cost).Avoids keys := by
  unfold viewTransaction
  split
  · exact avoids_pure _
  · refine (view_avoids apart tx.data).bind fun answer => ?_
    split <;> exact avoids_pure _

theorem execute_avoids (block : Block) (tx : Transaction) : (execute block tx).Avoids keys := by
  unfold execute
  split
  · exact avoids_pure _
  · dsimp only
    split
    · exact avoids_pure _
    · split
      · exact stake_avoids apart tx _
      · exact unstake_avoids apart tx _
      · exact viewTransaction_avoids apart tx _
      · exact viewTransaction_avoids apart tx _
      · exact avoids_pure _

theorem committed_avoids (result : CommittedResult) : (committed result).Avoids keys := by
  unfold committed
  split
  · exact avoids_pure _
  · refine (readWord_avoids apart _).bind fun _ => ?_
    split <;> exact avoids_pure _

/-- The staking contract touches state records only. -/
theorem contract_avoids : contract.Avoids keys where
  execute := execute_avoids apart
  run := view_avoids apart
  committed := committed_avoids apart

end Staking

end State

end RoundLedger
