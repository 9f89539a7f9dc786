import RoundLedger.Contract

/-!
# The staking contract

Stakes are storage slots of the contract account, one for each staker and one for the total.
The staked value is held in the balance of the contract account.
-/

namespace RoundLedger.Staking

open Program

def address : Address := 0x2710

/-- The storage namespace of the contract. Minted namespaces start at 256. -/
def sequence : UInt64 := 1

/-! ## Prices -/

def baseGas : UInt64 := 21000

/-! ## Input -/

inductive Selector
  | stake
  | unstake
  | stakeOf
  | totalStaked
  | unknown
  deriving DecidableEq, Repr

/-- The operation an input asks for; an input of less than four bytes asks for none. -/
def selector? : Bytes → Option Selector
  | 0x3a :: 0x4b :: 0x66 :: 0xf1 :: _ => some .stake
  | 0x2e :: 0x17 :: 0xde :: 0x78 :: _ => some .unstake
  | 0x42 :: 0x62 :: 0x33 :: 0x60 :: _ => some .stakeOf
  | 0x81 :: 0x7b :: 0x1c :: 0xd2 :: _ => some .totalStaked
  | _ :: _ :: _ :: _ :: _ => some .unknown
  | _ => none

def Selector.gas : Selector → UInt64
  | .stake => 20000
  | .unstake => 15000
  | .stakeOf | .totalStaked | .unknown => 2100

def amountArgument (input : Bytes) : Option Word :=
  let argument := (input.drop 4).take 32
  if argument.length = 32 then some (Word.ofBytes argument) else none

/-- The address behind the selector. Its word has 12 zero bytes in front. -/
def addressArgument (input : Bytes) : Option Address := do
  let word ← amountArgument input
  if word >>> 160 = 0 then some (word.setWidth 160) else none

/-! ## Stakes -/

def totalSlot : Digest := 0

def slotOf (staker : Address) : Digest := Keccak.digest (Word.bytes staker.word)

/-- The word in a slot; an unset slot holds zero. A stored value may be short, but not long. -/
def readWord (slot : Digest) : Program Word := do
  let value := (← State.storage sequence slot).getD []
  if value.length ≤ 32 then return Word.ofBytes value else fail .storedWordTooLong

def writeWord (slot : Digest) (value : Word) : Program Unit :=
  State.setStorage sequence slot (if value = 0 then [] else Word.bytes value)

def stakeOf (staker : Address) : Program Word := readWord (slotOf staker)

def total : Program Word := readWord totalSlot

/-! ## Operations -/

def failed (status : Status) (gasUsed : UInt64) : SystemOutcome := { status, gasUsed }

/-- A log of the staker and the amount moved, under the topic of the event. -/
def log (topic : Digest) (staker : Address) (amount : Word) : Log :=
  { address, topics := [topic, staker.word], data := Word.bytes amount }

def stakedTopic : Digest := 0x9e71bc8eea02a63969f509818f2dafb9254532904319f9dbda79b67bd34a5f3d

def unstakedTopic : Digest := 0x0f5bb82176feb1b5e747e28471aa92156a04d9f3ab9f45f28e2d704232b93f75

/-- Locks the value of the transaction as stake of its sender. -/
def stake (tx : Transaction) (cost : UInt64) : Program SystemOutcome := do
  if tx.value = 0 then return failed .revert cost
  match ← State.account tx.sender with
  | none => return failed .accountNotExist cost
  | some sender =>
    if sender.balance < tx.value then return failed .insufficientBalance cost
    let contract := (← State.account address).getD {}
    State.setAccount tx.sender { sender with balance := sender.balance - tx.value }
    State.setAccount address { contract with balance := contract.balance + tx.value }
    let stake := (← stakeOf tx.sender) + tx.value
    let sum := (← total) + tx.value
    writeWord (slotOf tx.sender) stake
    writeWord totalSlot sum
    return { status := .success, gasUsed := cost, logs := [log stakedTopic tx.sender tx.value] }

/-- Gives an amount of stake back to the sender. -/
def unstake (tx : Transaction) (cost : UInt64) : Program SystemOutcome := do
  if tx.value ≠ 0 then return failed .revert cost
  match amountArgument tx.data with
  | none => return failed .revert cost
  | some amount =>
    let stake ← stakeOf tx.sender
    if stake < amount then return failed .revert cost
    match ← State.account tx.sender with
    | none => return failed .accountNotExist cost
    | some sender =>
      let contract := (← State.account address).getD {}
      if contract.balance < amount then fail .stakeUncovered
      else
        State.setAccount address { contract with balance := contract.balance - amount }
        State.setAccount tx.sender { sender with balance := sender.balance + amount }
        let sum := (← total) - amount
        writeWord (slotOf tx.sender) (stake - amount)
        writeWord totalSlot sum
        return { status := .success, gasUsed := cost, logs := [log unstakedTopic tx.sender amount] }

def view (input : Bytes) : Program (Except ExecutionError Bytes) := do
  match selector? input with
  | none => return .error (.precompile "input too short")
  | some .stakeOf =>
    match addressArgument input with
    | none => return .error (.precompile "invalid stakeOf argument")
    | some staker => return .ok (Word.bytes (← stakeOf staker))
  | some .totalStaked => return .ok (Word.bytes (← total))
  | some _ => return .error (.precompile "not a view function of the staking contract")

/-- A view asked for by a transaction, which may not carry value. -/
def viewTransaction (tx : Transaction) (cost : UInt64) : Program SystemOutcome := do
  if tx.value ≠ 0 then return failed .revert cost
  match ← view tx.data with
  | .ok output => return { status := .success, gasUsed := cost, output }
  | .error _ => return failed .revert cost

/-! ## The contract -/

/-- Gives the contract account its namespace. -/
def init : Program Unit := do
  let account := (← State.account address).getD {}
  if account.sequence = sequence then return ()
  State.setAccount address { account with sequence }

def execute (_block : Block) (tx : Transaction) : Program SystemOutcome :=
  match selector? tx.data with
  | none => return failed .revert (min baseGas tx.gasLimit)
  | some selector =>
    let cost := baseGas + selector.gas
    if tx.gasLimit < cost then return failed .outOfGas tx.gasLimit
    else
      match selector with
      | .stake => stake tx cost
      | .unstake => unstake tx cost
      | .stakeOf | .totalStaked => viewTransaction tx cost
      | .unknown => return failed .revert cost

def requiredGas (input : Bytes) : UInt64 := ((selector? input).getD .stakeOf).gas

def committed (result : CommittedResult) : Program (Option StakeEvent) := do
  if !result.status.isSuccess then return none
  let sum ← total
  match selector? result.tx.data with
  | some .stake => return some (.deposited sum)
  | some .unstake => return some (.withdrawn sum)
  | _ => return none

def contract : SystemContract :=
  { owns := fun a => a = address, init, execute, requiredGas, run := view, committed }

end RoundLedger.Staking
