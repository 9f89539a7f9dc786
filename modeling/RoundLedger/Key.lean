import RoundLedger.Word

/-!
# Record keys

Every record lives under a byte string of its own in one flat key space. State keys start
with a small byte; queue entries are raised so that they sort behind them.
-/

namespace RoundLedger

inductive Key
  /-- How many contracts were created at addresses that start with this byte. -/
  | counter (first : UInt8)
  | account (address : Address)
  | code (address : Address)
  | slot (sequence : UInt64) (place : Digest)
  /-- The first and the next free position of the standby queue. -/
  | queue
  | entry (position : UInt64)
  deriving DecidableEq, Repr

namespace Key

/-- Added to the position of an entry, so that it sorts behind the state. -/
def entryBase : UInt64 := 0xc000000000000000

def bytes : Key → Bytes
  | counter first => [21, first]
  | account address => 23 :: Address.bytes address
  | code address => 25 :: Address.bytes address
  | slot sequence place => 27 :: BigEndian.encode64 sequence ++ Word.bytes place
  | queue => [255, 255, 255, 255, 255, 255, 255, 0]
  | entry position => BigEndian.encode64 (position + entryBase)

def accountOf? : Bytes → Option Address
  | first :: rest => if first = 23 ∧ rest.length = 20 then some (Address.ofBytes rest) else none
  | [] => none

@[simp] theorem accountOf?_bytes (address : Address) :
    accountOf? (bytes (account address)) = some address := by
  simp [bytes, accountOf?]

end Key

end RoundLedger
