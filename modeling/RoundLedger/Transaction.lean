import RoundLedger.Address
import RoundLedger.Json

/-!
# Transactions and blocks
-/

namespace RoundLedger

/-! ## Transactions -/

structure Transaction where
  sender : Address
  /-- Missing for a contract creation. -/
  destination : Option Address
  nonce : UInt64
  value : Word
  gasPrice : Word
  gasLimit : UInt64
  data : Bytes
  /-- The height at which the transaction was collected. -/
  height : UInt64
  deriving DecidableEq, Repr

namespace Transaction

/-- The bytes that identify a transaction. The height is left out, so a transaction collected
twice keeps its identity. -/
def content (tx : Transaction) : Bytes :=
  Address.bytes tx.sender
    ++ (match tx.destination with
      | some address => 1 :: Address.bytes address
      | none => [0])
    ++ BigEndian.encode64 tx.nonce ++ Word.bytes tx.value ++ Word.bytes tx.gasPrice
    ++ BigEndian.encode64 tx.gasLimit ++ tx.data

def hash (tx : Transaction) : Digest := Keccak.digest tx.content

def isCreate (tx : Transaction) : Bool := tx.destination.isNone

/-- The fee paid in advance, unless it passes the largest word. -/
def maxFee (tx : Transaction) : Option Word := (BitVec.ofNat 256 tx.gasLimit.toNat).mul? tx.gasPrice

/-- The number of blocks a transaction may wait. -/
def patience : UInt64 := 10

/-- Whether the transaction has expired at a height. -/
def isTooOld (tx : Transaction) (height : UInt64) : Bool := tx.height.addCapped patience < height

def json (tx : Transaction) : Json :=
  .record
    [("from", .text (Hex.text (Address.bytes tx.sender))),
      ("to", tx.destination.elim .null fun a => .text (Hex.text (Address.bytes a))),
      ("nonce", .ofNat tx.nonce.toNat),
      ("value", .text (Hex.minimal tx.value.toNat)),
      ("gas_price", .text (Hex.minimal tx.gasPrice.toNat)),
      ("gas_limit", .ofNat tx.gasLimit.toNat),
      ("data", .text (Hex.text tx.data)),
      ("height", .ofNat tx.height.toNat)]

end Transaction

/-! ## Blocks -/

structure Block where
  coinbase : Address := 0
  hash : Digest := 0
  number : UInt64 := 0
  timestamp : UInt64 := 0
  gasLimit : UInt64 := 0
  difficulty : Word := 0
  chainId : Word := 0
  deriving DecidableEq, Repr

def Block.json (b : Block) : Json :=
  .record
    [("coinbase", .text (Hex.text (Address.bytes b.coinbase))),
      ("hash", .text (Hex.text (Word.bytes b.hash))),
      ("number", .ofNat b.number.toNat),
      ("timestamp", .ofNat b.timestamp.toNat),
      ("gas_limit", .ofNat b.gasLimit.toNat),
      ("difficulty", .text (Hex.minimal b.difficulty.toNat)),
      ("chain_id", .text (Hex.minimal b.chainId.toNat))]

end RoundLedger
