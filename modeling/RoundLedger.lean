import RoundLedger.Account
import RoundLedger.Address
import RoundLedger.Admission
import RoundLedger.Backend
import RoundLedger.Backend.Transfer
import RoundLedger.BlockHashes
import RoundLedger.Bytes
import RoundLedger.Config
import RoundLedger.Contract
import RoundLedger.Curve.Basic
import RoundLedger.Curve.Bn254.Field
import RoundLedger.Curve.Bn254.Pairing
import RoundLedger.Curve.Bn254.Points
import RoundLedger.Curve.Group
import RoundLedger.Curve.Modular
import RoundLedger.Curve.Secp256k1
import RoundLedger.Curve.Secp256k1.Recovery
import RoundLedger.Engine
import RoundLedger.Error
import RoundLedger.Fault
import RoundLedger.Gas
import RoundLedger.Hash.Blake2
import RoundLedger.Hash.Keccak
import RoundLedger.Hash.Ripemd160
import RoundLedger.Hash.Sha256
import RoundLedger.Json
import RoundLedger.Json.Reader
import RoundLedger.Json.Token
import RoundLedger.Key
import RoundLedger.Metrics
import RoundLedger.Metrics.Change
import RoundLedger.Metrics.Double
import RoundLedger.Metrics.Family
import RoundLedger.Node
import RoundLedger.Precompile.Bn254
import RoundLedger.Precompile.Call
import RoundLedger.Precompile.Hashing
import RoundLedger.Precompile.Istanbul
import RoundLedger.Precompile.PowerMod
import RoundLedger.Precompile.Recovery
import RoundLedger.Precompile.Table
import RoundLedger.Precompile.VrfCheck
import RoundLedger.Program
import RoundLedger.Proofs.Accesses
import RoundLedger.Proofs.Accounts
import RoundLedger.Proofs.Admission
import RoundLedger.Proofs.Agreement
import RoundLedger.Proofs.ArrivalOrder
import RoundLedger.Proofs.Assertions
import RoundLedger.Proofs.Books
import RoundLedger.Proofs.Broken
import RoundLedger.Proofs.ConfigFile
import RoundLedger.Proofs.Consecutive
import RoundLedger.Proofs.Conservation
import RoundLedger.Proofs.Contents
import RoundLedger.Proofs.Coordinates
import RoundLedger.Proofs.CurveGroup
import RoundLedger.Proofs.Custody
import RoundLedger.Proofs.Drain
import RoundLedger.Proofs.Effects
import RoundLedger.Proofs.Engine
import RoundLedger.Proofs.Escrow
import RoundLedger.Proofs.Estimates
import RoundLedger.Proofs.Failures
import RoundLedger.Proofs.Fates
import RoundLedger.Proofs.FeeSplit
import RoundLedger.Proofs.Fifo
import RoundLedger.Proofs.Footprint
import RoundLedger.Proofs.Gate
import RoundLedger.Proofs.GroupLaws
import RoundLedger.Proofs.Halts
import RoundLedger.Proofs.Histories
import RoundLedger.Proofs.Identity
import RoundLedger.Proofs.Keys
import RoundLedger.Proofs.Layout
import RoundLedger.Proofs.Metering
import RoundLedger.Proofs.Namespaces
import RoundLedger.Proofs.Nonces
import RoundLedger.Proofs.Overtaking
import RoundLedger.Proofs.Partition
import RoundLedger.Proofs.PointCodec
import RoundLedger.Proofs.Primes
import RoundLedger.Proofs.Printing
import RoundLedger.Proofs.QueueSteps
import RoundLedger.Proofs.Reach
import RoundLedger.Proofs.Reachable
import RoundLedger.Proofs.ReadOnly
import RoundLedger.Proofs.ReadSets
import RoundLedger.Proofs.Recency
import RoundLedger.Proofs.Records
import RoundLedger.Proofs.Rounds
import RoundLedger.Proofs.Savepoints
import RoundLedger.Proofs.Selection
import RoundLedger.Proofs.Serial
import RoundLedger.Proofs.Settlement
import RoundLedger.Proofs.Simulation
import RoundLedger.Proofs.Solvency
import RoundLedger.Proofs.Spelling
import RoundLedger.Proofs.StakeValue
import RoundLedger.Proofs.Staleness
import RoundLedger.Proofs.Step
import RoundLedger.Proofs.Stops
import RoundLedger.Proofs.Survival
import RoundLedger.Proofs.Trial
import RoundLedger.Proofs.Triples
import RoundLedger.Proofs.Value
import RoundLedger.Proofs.Vrf
import RoundLedger.Proofs.Waiting
import RoundLedger.Proofs.Worlds
import RoundLedger.Queue
import RoundLedger.Queue.Entry
import RoundLedger.Random.ChaCha
import RoundLedger.Random.Generator
import RoundLedger.Result
import RoundLedger.Room
import RoundLedger.Rounds
import RoundLedger.Rounds.Dealer
import RoundLedger.Rounds.Gate
import RoundLedger.Rounds.Shuffle
import RoundLedger.Runner
import RoundLedger.Slots
import RoundLedger.Staking
import RoundLedger.State
import RoundLedger.Status
import RoundLedger.Transaction
import RoundLedger.View
import RoundLedger.Vrf
import RoundLedger.Word
