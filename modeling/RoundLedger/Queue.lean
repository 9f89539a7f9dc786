import RoundLedger.Key
import RoundLedger.Program
import RoundLedger.Queue.Entry
import RoundLedger.Room

/-!
# The standby queue

Admitted transactions wait in the store. A pointer record holds the range of live positions;
the entry at each of them is a stored transaction. Positions are never used twice.
-/

namespace RoundLedger

structure QueueRange where
  start : UInt64 := 0
  stop : UInt64 := 0
  deriving DecidableEq, Repr

namespace QueueRange

def isEmpty (r : QueueRange) : Bool := r.start = r.stop

/-- The number of live positions. A range that ends before it starts has none. -/
def size (r : QueueRange) : Except Fault UInt64 :=
  if r.start ≤ r.stop then .ok (r.stop - r.start) else .error .differenceNegative

def encode (r : QueueRange) : Bytes := BigEndian.encode64 r.start ++ BigEndian.encode64 r.stop

def decode (bytes : Bytes) : Except Fault QueueRange :=
  if bytes.length = 16 then
    .ok ⟨BigEndian.decode64 (bytes.take 8), BigEndian.decode64 (bytes.drop 8)⟩
  else .error .queueRangeLength

theorem decode_encode (r : QueueRange) : decode (encode r) = .ok r := by simp [decode, encode]

end QueueRange

structure QueueEntry where
  position : UInt64
  tx : Transaction
  deriving DecidableEq, Repr

namespace Queue

open Program

/-! ## Pointers -/

def range : Program QueueRange := do
  match ← look Key.queue.bytes with
  | none => return {}
  | some record => ofExcept (QueueRange.decode record)

def setRange (r : QueueRange) : Program Unit := write Key.queue.bytes r.encode

def size : Program UInt64 := do
  let r ← range
  ofExcept r.size

/-! ## Entries -/

def readEntry (position : UInt64) : Program QueueEntry := do
  let record ← orFail (.entryMissing position) (← look (Key.entry position).bytes)
  let tx ← orFail (.entryCorrupt position) (Entry.decode record)
  return ⟨position, tx⟩

def readFrom (position : UInt64) : Nat → Program (List QueueEntry)
  | 0 => return []
  | count + 1 => do
    let entry ← readEntry position
    let rest ← readFrom (position + 1) count
    return entry :: rest

def entryRoom : Nat := 176

def load (r : QueueRange) : Program (List QueueEntry) := do
  let count := r.stop.toNat - r.start.toNat
  ofExcept (Room.make entryRoom count)
  readFrom r.start count

/-! ## Both ends -/

/-- Stores transactions from a position on and answers the position behind them. -/
def store (stop : UInt64) : List Transaction → Program UInt64
  | [] => return stop
  | tx :: rest => do
    write (Key.entry stop).bytes (Entry.encode tx)
    let next ← orFail .sumTooLarge (stop.add? 1)
    store next rest

def append (txs : List Transaction) : Program QueueRange := do
  let r ← range
  let stop ← store r.stop txs
  let r := { r with stop }
  setRange r
  return r

def popFront (most : UInt64) : Program (List QueueEntry) := do
  let r ← range
  let size ← ofExcept r.size
  let start := r.start + min size most
  let entries ← load ⟨r.start, start⟩
  entries.forM fun entry => delete (Key.entry entry.position).bytes
  setRange { r with start }
  return entries

end Queue

end RoundLedger
