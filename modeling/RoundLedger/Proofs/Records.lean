import Mathlib.Algebra.Group.Nat.Defs
import Mathlib.Logic.Function.Basic
import RoundLedger.Proofs.Accounts
import RoundLedger.Proofs.QueueSteps
import RoundLedger.State

/-!
# Records as maps

Six kinds of records share one flat key space. What they hold is a map for each kind, and a write changes one
of the maps at one place (`recordsIn_put`). The entry at the reserved position is not among them: its key is
that of the pointers. The keys of the entries are in the order of the positions, behind those of the state.
-/

namespace RoundLedger

open Program

/-! ## Keys in order -/

namespace BigEndian

/-- Byte strings of one length are ordered as the numbers they stand for. -/
theorem compare_of_decode_lt {a b : Bytes} (hlength : a.length = b.length) (h : decode a < decode b) :
    compare a b = .lt := by
  induction a generalizing b with
  | nil =>
    obtain rfl := List.length_eq_zero_iff.1 hlength.symm
    exact absurd h (Nat.lt_irrefl _)
  | cons x a ih =>
    cases b with
    | nil => cases hlength
    | cons y b =>
      have hrest : a.length = b.length := Nat.succ.inj hlength
      have ha := decode_lt a
      have hb := decode_lt b
      rw [decode_cons, decode_cons, ← hrest] at h
      rw [← hrest] at hb
      change List.compareLex compare (x :: a) (y :: b) = .lt
      rw [List.compareLex_cons_cons]
      rcases Nat.lt_trichotomy x.toNat y.toNat with hlt | heq | hgt
      · rw [Std.compare_eq_lt.2 (UInt8.lt_iff_toNat_lt.2 hlt)]
        rfl
      · obtain rfl := UInt8.toNat_inj.1 heq
        rw [Std.ReflOrd.compare_self]
        exact ih hrest (by omega)
      · have hless := Nat.mul_le_mul_right (limit a.length) hgt
        rw [Nat.succ_mul] at hless
        omega

end BigEndian

namespace Key

/-- The position is below the one where the keys of the entries start anew. -/
def InOrder (position : UInt64) : Prop := position.toNat < 2 ^ 62

theorem toNat_add_entryBase {p : UInt64} (h : InOrder p) :
    (p + entryBase).toNat = p.toNat + 0xc000000000000000 := by
  have hbase : entryBase.toNat = 0xc000000000000000 := rfl
  rw [InOrder] at h
  rw [UInt64.toNat_add, hbase]
  omega

theorem compare_entry {p q : UInt64} (hq : InOrder q) (h : p < q) :
    compare (entry p).bytes (entry q).bytes = .lt := by
  have hpq := UInt64.lt_iff_toNat_lt.1 h
  have hp : InOrder p := Nat.lt_trans hpq hq
  have hsize : BigEndian.limit 8 = 2 ^ 64 := rfl
  refine BigEndian.compare_of_decode_lt (by simp [bytes]) ?_
  simp only [bytes, BigEndian.encode64, BigEndian.decode_encode, toNat_add_entryBase hp,
    toNat_add_entryBase hq, hsize]
  rw [InOrder] at hp hq
  omega

/-- The keys of the state start with a small byte. -/
theorem head_of_isState {k : Key} (hk : k.isState = true) :
    ∃ first rest, k.bytes = first :: rest ∧ first.toNat < 28 := by
  cases k with
  | counter first => exact ⟨_, _, rfl, by decide⟩
  | account address => exact ⟨_, _, rfl, by decide⟩
  | code address => exact ⟨_, _, rfl, by decide⟩
  | slot sequence place => exact ⟨_, _, rfl, by decide⟩
  | queue => cases hk
  | entry position => cases hk

theorem compare_state_entry {k : Key} (hk : k.isState = true) {p : UInt64} (hp : InOrder p) :
    compare k.bytes (entry p).bytes = .lt := by
  obtain ⟨first, rest, hbytes, hfirst⟩ := head_of_isState hk
  have hentry : (entry p).bytes
      = UInt8.ofNat ((p + entryBase).toNat >>> 56) :: BigEndian.encode 7 (p + entryBase).toNat := rfl
  have hhead : 0xc0 ≤ (UInt8.ofNat ((p + entryBase).toNat >>> 56)).toNat := by
    rw [toNat_add_entryBase hp, UInt8.toNat_ofNat', Nat.shiftRight_eq_div_pow]
    rw [InOrder] at hp
    omega
  have hless : first < UInt8.ofNat ((p + entryBase).toNat >>> 56) :=
    UInt8.lt_iff_toNat_lt.2 (by omega)
  rw [hbytes, hentry]
  change List.compareLex compare (first :: rest) _ = .lt
  rw [List.compareLex_cons_cons, Std.compare_eq_lt.2 hless]
  rfl

/-- Different records have different keys, but for the pointers and the entry at the reserved position. -/
theorem bytes_eq_iff {k k' : Key} : k.bytes = k'.bytes ↔
    k = k' ∨ k = queue ∧ k' = entry Queue.reserved ∨ k = entry Queue.reserved ∧ k' = queue := by
  constructor
  · intro h
    by_cases hstate : k.isState = true
    · exact .inl (bytes_inj_of_isState hstate h)
    by_cases hstate' : k'.isState = true
    · exact .inl (bytes_inj_of_isState hstate' h.symm).symm
    cases k <;> cases k' <;> simp_all [isState]
    case queue.entry p => exact entry_eq_queue.1 h.symm
    case entry.queue p => exact entry_eq_queue.1 h
    case entry.entry p q => exact entry_bytes_inj h
  · have hreserved : (entry Queue.reserved).bytes = queue.bytes := entry_eq_queue.2 rfl
    rintro (rfl | ⟨rfl, rfl⟩ | ⟨rfl, rfl⟩)
    · rfl
    · exact hreserved.symm
    · exact hreserved

end Key

/-! ## What a record is read as -/

namespace State

/-- An empty account record counts as none. -/
def readAccount : Option Bytes → Except Fault (Option Account)
  | none | some [] => .ok none
  | some record => (Account.decode record).map some

def readCode : Option Bytes → Except Fault (Option Code)
  | none => .ok none
  | some record => (Code.decode record).map some

def readCounter : Option Bytes → Except Fault UInt64
  | none => .ok 0
  | some record => if record.length = 8 then .ok (BigEndian.decode64 record) else .error .counterLength

/-- What a slot holds once a value is set. An empty value counts as none. -/
def slotValue (value : Bytes) : Option Bytes := if value = [] then none else some value

@[simp] theorem readAccount_encode (account : Account) :
    readAccount (some account.encode) = .ok (some account) := by
  have hrecord : account.encode ≠ [] := fun hnil => by simpa using congrArg List.length hnil
  unfold readAccount
  split
  · simp_all
  · simp_all
  next record _ hsome =>
    cases hsome
    rw [Account.decode_encode]
    rfl

@[simp] theorem readCode_encode (code : Code) : readCode (some code.encode) = .ok (some code) := by
  rw [readCode, Code.decode_encode]
  rfl

@[simp] theorem readCounter_encode (count : UInt64) :
    readCounter (some (BigEndian.encode64 count)) = .ok count := by
  simp [readCounter]

variable (f : Contents)

theorem account_eval (address : Address) :
    (State.account address).eval f
      = (ofExcept (readAccount (f (Key.account address).bytes))).eval f := by
  unfold State.account
  rw [eval_look_bind]
  cases f (Key.account address).bytes with
  | none => rfl
  | some record =>
    cases record with
    | nil => rfl
    | cons first rest =>
      rw [readAccount]
      · cases hdecode : Account.decode (first :: rest) <;> simp [hdecode] <;> rfl
      · nofun

theorem code_eval (address : Address) :
    (State.code address).eval f = (ofExcept (readCode (f (Key.code address).bytes))).eval f := by
  unfold State.code
  rw [eval_look_bind]
  cases f (Key.code address).bytes with
  | none => rfl
  | some record => cases hdecode : Code.decode record <;> simp [readCode, hdecode] <;> rfl

theorem counter_eval (first : UInt8) :
    (State.counter first).eval f = (ofExcept (readCounter (f (Key.counter first).bytes))).eval f := by
  unfold State.counter
  rw [eval_look_bind]
  cases f (Key.counter first).bytes with
  | none => rfl
  | some record =>
    by_cases hlength : record.length = 8 <;> simp [readCounter, hlength] <;> rfl

/-- The record of the account can be read. -/
def Readable (address : Address) : Prop :=
  (State.account address).eval f = .ok (accountsIn f address) f

variable {f} {address : Address}

theorem record_of_account {account : Account} (h : accountsIn f address = some account) :
    f (Key.account address).bytes = some account.encode := by
  unfold accountsIn at h
  split at h
  · cases h
  · cases h
  next record _ hrecord =>
    cases hdecode : Account.decode record with
    | ok decoded =>
      rw [hdecode] at h
      cases h
      rw [hrecord, Account.encode_of_decode hdecode]
    | error fault =>
      rw [hdecode] at h
      cases h

theorem readable_of_account {account : Account} (h : accountsIn f address = some account) :
    Readable f address := by
  rw [Readable, account_eval, record_of_account h, readAccount_encode, h]
  rfl

/-- Another account is written, or this one. -/
theorem Readable.put (h : Readable f address) (other : Address) (account : Account) :
    Readable (f.put (Key.account other).bytes (some account.encode)) address := by
  by_cases hsame : other = address
  · subst hsame
    have haccount := congrFun (accountsIn_put f other account) other
    rw [Accounts.set_same] at haccount
    exact readable_of_account haccount
  · have hkey : (Key.account other).bytes ≠ (Key.account address).bytes := fun hkey =>
      hsame (Key.account_bytes_inj hkey)
    unfold Readable at h ⊢
    rw [account_eval] at h ⊢
    rw [Contents.put_other _ _ hkey, accountsIn_put, Accounts.set_other _ _ hsame]
    exact eval_ofExcept_ok.2 ⟨(eval_ofExcept_ok.1 h).1, rfl⟩

end State

namespace Queue

/-- The transaction that a record at a position stands for. -/
def readRecord (position : UInt64) : Option Bytes → Except Fault QueueEntry
  | none => .error (.entryMissing position)
  | some record =>
    match Entry.decode record with
    | none => .error (.entryCorrupt position)
    | some tx => .ok ⟨position, tx⟩

theorem readRecord_encode {tx : Transaction} (h : tx.data.length < UInt64.size) (position : UInt64) :
    readRecord position (some (Entry.encode tx)) = .ok ⟨position, tx⟩ := by
  have hdecode := Entry.decode_encode tx [] h
  rw [List.append_nil] at hdecode
  rw [readRecord, hdecode]

variable (f : Contents)

theorem range_eval : range.eval f = (ofExcept (rangeIn f)).eval f := by
  unfold range rangeIn
  rw [eval_look_bind]
  cases f Key.queue.bytes <;> rfl

theorem readEntry_eval (position : UInt64) : (readEntry position).eval f
    = (ofExcept (readRecord position (f (Key.entry position).bytes))).eval f := by
  unfold readEntry
  rw [eval_look_bind]
  cases f (Key.entry position).bytes with
  | none => rfl
  | some record =>
    change (orFail (.entryCorrupt position) (Entry.decode record) >>= fun tx =>
      (pure ⟨position, tx⟩ : Program QueueEntry)).eval f = _
    rw [readRecord]
    cases Entry.decode record <;> rfl

end Queue

/-! ## The maps -/

/-- What the records hold, kind by kind. A record that cannot be read holds the fault it is met with. -/
@[ext]
structure Records where
  account : Address → Except Fault (Option Account)
  code : Address → Except Fault (Option Code)
  slot : UInt64 → Digest → Option Bytes
  counter : UInt8 → Except Fault UInt64
  range : Except Fault QueueRange
  /-- There is none at the reserved position. -/
  entry : UInt64 → Except Fault QueueEntry

/-- The records that stand under the given keys. -/
def Records.under (records : Key → Option Bytes) : Records where
  account address := State.readAccount (records (.account address))
  code address := State.readCode (records (.code address))
  slot sequence place := records (.slot sequence place)
  counter first := State.readCounter (records (.counter first))
  range :=
    match records .queue with
    | none => .ok {}
    | some record => QueueRange.decode record
  entry position :=
    if position = Queue.reserved then .error (.entryMissing position)
    else Queue.readRecord position (records (.entry position))

def Contents.byKey (f : Contents) (k : Key) : Option Bytes := f k.bytes

def recordsIn (f : Contents) : Records := .under f.byKey

namespace Records

/-! ### Changes of one map -/

def setAccount (m : Records) (address : Address) (account : Option Account) : Records :=
  { m with account := Function.update m.account address (.ok account) }

def setCode (m : Records) (address : Address) (code : Option Code) : Records :=
  { m with code := Function.update m.code address (.ok code) }

def setSlot (m : Records) (sequence : UInt64) (place : Digest) (value : Option Bytes) : Records :=
  { m with slot := Function.update m.slot sequence (Function.update (m.slot sequence) place value) }

def setCounter (m : Records) (first : UInt8) (count : UInt64) : Records :=
  { m with counter := Function.update m.counter first (.ok count) }

/-! ### The queue -/

open Queue

/-- The entries of a range, in the order of their positions. -/
def load (m : Records) (r : QueueRange) : Except Fault (List QueueEntry) := do
  Room.make entryRoom (r.stop.toNat - r.start.toNat)
  (live r).mapM m.entry

/-- The maps once transactions are added at the end of a range. -/
def appended (m : Records) (r : QueueRange) (txs : List Transaction) : Records :=
  { m with
    range := .ok { r with stop := r.stop + UInt64.ofNat txs.length }
    entry := fun position =>
      match (placed r.stop txs).lookup position with
      | some tx => .ok ⟨position, tx⟩
      | none => m.entry position }

/-- Adds an entry for each transaction at the end. -/
def append (m : Records) (txs : List Transaction) : Except Fault (QueueRange × Records) := do
  let r ← m.range
  if r.stop.toNat + txs.length < UInt64.size then
    return ({ r with stop := r.stop + UInt64.ofNat txs.length }, m.appended r txs)
  else .error .sumTooLarge

/-- The maps once the front of a range is taken off. -/
def popped (m : Records) (r : QueueRange) (next : UInt64) : Records :=
  { m with
    range := .ok { r with start := next }
    entry := fun position =>
      if position ∈ live { r with stop := next } then .error (.entryMissing position)
      else m.entry position }

/-- Takes entries off the front. -/
def popFront (m : Records) (most : UInt64) : Except Fault (List QueueEntry × Records) := do
  let r ← m.range
  let size ← r.size
  let next := r.start + min size most
  let entries ← m.load { r with stop := next }
  return (entries, m.popped r next)

variable {m : Records} {r : QueueRange} {txs : List Transaction} {most : UInt64} {fault : Fault}

theorem append_error (h : m.range = .error fault) : m.append txs = .error fault := by
  rw [append, h]
  rfl

theorem append_ok (h : m.range = .ok r) (fits : r.stop.toNat + txs.length < UInt64.size) :
    m.append txs = .ok ({ r with stop := r.stop + UInt64.ofNat txs.length }, m.appended r txs) := by
  rw [append, h]
  exact if_pos fits

theorem append_full (h : m.range = .ok r) (full : UInt64.size ≤ r.stop.toNat + txs.length) :
    m.append txs = .error .sumTooLarge := by
  rw [append, h]
  exact if_neg (Nat.not_lt.2 full)

theorem popFront_ok {size : UInt64} {entries : List QueueEntry} (hrange : m.range = .ok r)
    (hsize : r.size = .ok size) (hload : m.load { r with stop := r.start + min size most } = .ok entries) :
    m.popFront most = .ok (entries, m.popped r (r.start + min size most)) := by
  simp only [popFront, hrange, hsize, hload, Bind.bind, Except.bind]
  rfl

theorem popFront_error (hrange : m.range = .error fault) : m.popFront most = .error fault := by
  rw [popFront, hrange]
  rfl

theorem popFront_unsized (hrange : m.range = .ok r) (hsize : r.size = .error fault) :
    m.popFront most = .error fault := by
  simp only [popFront, hrange, hsize, Bind.bind, Except.bind]

theorem popFront_unread {size : UInt64} (hrange : m.range = .ok r) (hsize : r.size = .ok size)
    (hload : m.load { r with stop := r.start + min size most } = .error fault) :
    m.popFront most = .error fault := by
  simp only [popFront, hrange, hsize, hload, Bind.bind, Except.bind]

end Records

/-! ### Writes to the store -/

/-- The reserved entry is not among the records. -/
theorem Records.under_congr {records records' : Key → Option Bytes}
    (h : ∀ k, k ≠ .entry Queue.reserved → records k = records' k) : under records = under records' := by
  have haccount (address : Address) := h (.account address) nofun
  have hcode (address : Address) := h (.code address) nofun
  have hslot (sequence : UInt64) (place : Digest) := h (.slot sequence place) nofun
  have hcounter (first : UInt8) := h (.counter first) nofun
  unfold under
  simp only [haccount, hcode, hslot, hcounter, h .queue nofun]
  congr 1
  funext position
  by_cases hreserved : position = Queue.reserved
  · rw [if_pos hreserved, if_pos hreserved]
  · rw [if_neg hreserved, if_neg hreserved, h (.entry position) fun hkey => hreserved (Key.entry.inj hkey)]

section

variable (f : Contents) {value : Option Bytes}

/-- A write changes the record under its key and no other, unless it is the reserved entry. -/
theorem recordsIn_put (k : Key) (hk : k ≠ .entry Queue.reserved) (value : Option Bytes) :
    recordsIn (f.put k.bytes value) = .under (Function.update f.byKey k value) := by
  refine Records.under_congr fun k' hk' => ?_
  by_cases h : k' = k
  · subst h
    rw [Contents.byKey, Contents.put_same, Function.update_self]
  · have hkey : k.bytes ≠ k'.bytes := by
      rw [Ne, Key.bytes_eq_iff]
      rintro (rfl | ⟨-, rfl⟩ | ⟨rfl, -⟩)
      · exact h rfl
      · exact hk' rfl
      · exact hk rfl
    rw [Contents.byKey, Contents.put_other _ _ hkey, Function.update_of_ne h]
    rfl

theorem recordsIn_put_account (address : Address) {account : Option Account}
    (h : State.readAccount value = .ok account) :
    recordsIn (f.put (Key.account address).bytes value) = (recordsIn f).setAccount address account := by
  rw [recordsIn_put f (.account address) nofun]
  refine Records.ext (funext fun other => ?_) ?_ ?_ ?_ ?_ ?_
  · by_cases hsame : other = address
    · simp [Records.setAccount, Records.under, hsame, h]
    · simp [Records.setAccount, recordsIn, Records.under, hsame]
  all_goals simp [Records.setAccount, recordsIn, Records.under]

theorem recordsIn_put_code (address : Address) {code : Option Code}
    (h : State.readCode value = .ok code) :
    recordsIn (f.put (Key.code address).bytes value) = (recordsIn f).setCode address code := by
  rw [recordsIn_put f (.code address) nofun]
  refine Records.ext ?_ (funext fun other => ?_) ?_ ?_ ?_ ?_
  case refine_2 =>
    by_cases hsame : other = address
    · simp [Records.setCode, Records.under, hsame, h]
    · simp [Records.setCode, recordsIn, Records.under, hsame]
  all_goals simp [Records.setCode, recordsIn, Records.under]

theorem recordsIn_put_slot (sequence : UInt64) (place : Digest) (value : Option Bytes) :
    recordsIn (f.put (Key.slot sequence place).bytes value) = (recordsIn f).setSlot sequence place value := by
  rw [recordsIn_put f (.slot sequence place) nofun]
  refine Records.ext ?_ ?_ (funext fun sequence' => funext fun place' => ?_) ?_ ?_ ?_
  case refine_3 =>
    by_cases hsequence : sequence' = sequence
    · by_cases hplace : place' = place
      · simp [Records.setSlot, Records.under, hsequence, hplace]
      · simp [Records.setSlot, recordsIn, Records.under, hsequence, hplace]
    · simp [Records.setSlot, recordsIn, Records.under, hsequence]
  all_goals simp [Records.setSlot, recordsIn, Records.under]

theorem recordsIn_put_counter (first : UInt8) (count : UInt64) :
    recordsIn (f.put (Key.counter first).bytes (some (BigEndian.encode64 count)))
      = (recordsIn f).setCounter first count := by
  rw [recordsIn_put f (.counter first) nofun]
  refine Records.ext ?_ ?_ ?_ (funext fun other => ?_) ?_ ?_
  case refine_4 =>
    by_cases hsame : other = first
    · simp [Records.setCounter, Records.under, hsame]
    · simp [Records.setCounter, recordsIn, Records.under, hsame]
  all_goals simp [Records.setCounter, recordsIn, Records.under]

end

end RoundLedger
