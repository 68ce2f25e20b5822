import TalCash.Core.Primitives
/-!
# Network parameters

The parameters of a launched network. The two conditions
`NetworkParams.__post_init__` checks are fields, and so are the bounds
that every network of `NETWORKS` keeps and that the results need: a value
of `NetworkParams` is a network the code can run.
-/

namespace TalCash

/-- Base units in one coin. -/
def COIN : ℕ := 10 ^ 6

/-- The largest amount or balance. -/
def MAX_AMOUNT : ℕ := 2 ^ 63 - 1

/-- The target at which one hash in `expectedHashes` wins on average. -/
def targetFor (expectedHashes : ℕ) : ℕ := 2 ^ 256 / expectedHashes - 1

/-- What is set when a network launches. -/
structure GenesisFields where
  timestamp : ℕ
  message : Bytes := []
  nonce : ℕ
  timestamp_lt : timestamp < 2 ^ 64
  message_le : message.length ≤ 255
  nonce_lt : nonce < 2 ^ 64

/-- `NetworkParams` of a launched network. -/
structure NetworkParams where
  name : String
  networkId : ℕ
  pow : PowParams
  powLimit : ℕ
  genesisTarget : ℕ
  powNoRetarget : Bool := false
  blockReward : ℕ := 10 * COIN
  targetSpacing : ℕ := 60
  asertHalfLife : ℕ := 60 * 60
  coinbaseMaturity : ℕ := 100
  finalityDepth : ℕ := 100
  chunkSize : ℕ := 1440
  snapshotDelay : ℕ := 10
  maxBlockSize : ℕ := 1000000
  medianTimeSpan : ℕ := 11
  maxFutureDrift : ℕ := 5 * 60
  genesis : GenesisFields
  /-- Checked by `__post_init__`. -/
  chunkSize_ge : 2 ≤ chunkSize
  /-- Checked by `__post_init__`. -/
  snapshotDelay_lt : snapshotDelay < chunkSize
  networkId_lt : networkId < 2 ^ 8
  genesisTarget_pos : 0 < genesisTarget
  genesisTarget_le : genesisTarget ≤ powLimit
  powLimit_lt : powLimit < 2 ^ 256
  blockReward_le : blockReward ≤ MAX_AMOUNT
  asertHalfLife_pos : 0 < asertHalfLife
  coinbaseMaturity_pos : 0 < coinbaseMaturity
  finalityDepth_pos : 0 < finalityDepth
  medianTimeSpan_pos : 0 < medianTimeSpan
  /-- A genesis block fits. -/
  maxBlockSize_ge : 500 ≤ maxBlockSize
  /-- 1 MB is the limit on every network. -/
  maxBlockSize_le : maxBlockSize ≤ 1000000
  /-- The blocks of a chunk take 2 GB at most. -/
  chunkSize_mul_le : chunkSize * maxBlockSize ≤ 2 * 10 ^ 9
  /-- The blocks that are not final yet take 1 GB at most. -/
  finalityDepth_mul_le : finalityDepth * maxBlockSize ≤ 10 ^ 9

/-- The settings mainnet, testnet and devnet share. -/
def argon2Mainnet : PowParams where
  memoryKib := 4096
  iterations := 1

/-- `MAINNET`, once its genesis fields are set. -/
def mainnet (genesis : GenesisFields) : NetworkParams where
  name := "mainnet"
  networkId := 1
  pow := argon2Mainnet
  powLimit := targetFor 600
  genesisTarget := targetFor 18000
  genesis := genesis
  chunkSize_ge := by decide
  snapshotDelay_lt := by decide
  networkId_lt := by decide
  genesisTarget_pos := by decide
  genesisTarget_le := by decide
  powLimit_lt := by decide
  blockReward_le := by decide
  asertHalfLife_pos := by decide
  coinbaseMaturity_pos := by decide
  finalityDepth_pos := by decide
  medianTimeSpan_pos := by decide
  maxBlockSize_ge := by decide
  maxBlockSize_le := by decide
  chunkSize_mul_le := by decide
  finalityDepth_mul_le := by decide

/-- `TESTNET`. -/
def testnet : NetworkParams :=
  { mainnet
      { timestamp := 1790314770
        message := "TalCash testnet, 25 Sep 2026".toUTF8.toList
        nonce := 18117
        timestamp_lt := by decide
        message_le := by decide +kernel
        nonce_lt := by decide } with
    name := "testnet"
    networkId := 2
    networkId_lt := by decide }

/-- `DEVNET`, with the genesis of one devnet. -/
def devnet (genesis : GenesisFields) : NetworkParams :=
  { mainnet genesis with
    name := "devnet"
    networkId := 4
    powLimit := targetFor 10
    genesisTarget := targetFor 300
    targetSpacing := 1
    asertHalfLife := 60
    chunkSize := 60
    snapshotDelay := 5
    maxFutureDrift := 10
    chunkSize_ge := by decide
    snapshotDelay_lt := by decide
    networkId_lt := by decide
    genesisTarget_pos := by decide
    genesisTarget_le := by decide
    powLimit_lt := by decide
    asertHalfLife_pos := by decide
    chunkSize_mul_le := (by decide : 60 * 1000000 ≤ 2 * 10 ^ 9) }

/-- `REGTEST`. -/
def regtest : NetworkParams :=
  { mainnet
      { timestamp := 1767225600
        message := "TalCash regtest".toUTF8.toList
        nonce := 1
        timestamp_lt := by decide
        message_le := by decide +kernel
        nonce_lt := by decide } with
    name := "regtest"
    networkId := 3
    pow := { memoryKib := 8, iterations := 1 }
    powLimit := targetFor 2
    genesisTarget := targetFor 2
    powNoRetarget := true
    networkId_lt := by decide
    genesisTarget_pos := by decide
    genesisTarget_le := by decide
    powLimit_lt := by decide }

end TalCash
