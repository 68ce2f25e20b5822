import TalCash.Common.BigEndian
import TalCash.Common.Exec
import TalCash.Common.GapScan
import TalCash.Common.Greedy
import TalCash.Common.Interleaving
import TalCash.Common.Keeps
import TalCash.Common.Lockstep
import TalCash.Common.Median
import TalCash.Common.Merkle
import TalCash.Common.MerkleSplit
import TalCash.Common.Metering
import TalCash.Common.Nested
import TalCash.Common.Paging
import TalCash.Common.Positional
import TalCash.Common.Run
import TalCash.Common.Table
import TalCash.Core.Amounts
import TalCash.Core.Asert
import TalCash.Core.Block
import TalCash.Core.Canonical
import TalCash.Core.Commitment
import TalCash.Core.Difficulty
import TalCash.Core.Encoding
import TalCash.Core.Genesis
import TalCash.Core.MerkleRoot
import TalCash.Core.Params
import TalCash.Core.Percent
import TalCash.Core.Primitives
import TalCash.Core.Sample
import TalCash.Core.Sequential
import TalCash.Core.Snapshot
import TalCash.Core.State
import TalCash.Core.Text
import TalCash.Core.Tx
import TalCash.Core.Utf8
import TalCash.Crypto.Address
import TalCash.Crypto.Base58
import TalCash.Crypto.Hd
import TalCash.Crypto.Mnemonic
import TalCash.Ledger.Nonces
import TalCash.Ledger.Payments
import TalCash.Ledger.Replay
import TalCash.Ledger.Spares
import TalCash.Ledger.Supply
import TalCash.Node.Accept
import TalCash.Node.Altered
import TalCash.Node.Arrival
import TalCash.Node.BlockFiles
import TalCash.Node.Bodies
import TalCash.Node.Caches
import TalCash.Node.Calls
import TalCash.Node.Chain
import TalCash.Node.Chunk
import TalCash.Node.ChunkFormat
import TalCash.Node.ChunkLayout
import TalCash.Node.Coherence
import TalCash.Node.Earned
import TalCash.Node.Effect
import TalCash.Node.Eviction
import TalCash.Node.Following
import TalCash.Node.Good
import TalCash.Node.Headers
import TalCash.Node.History
import TalCash.Node.Imported
import TalCash.Node.Indexes
import TalCash.Node.Indexing
import TalCash.Node.Inserting
import TalCash.Node.Invalid
import TalCash.Node.Keeping
import TalCash.Node.Limits
import TalCash.Node.Locator
import TalCash.Node.Matches
import TalCash.Node.MedianTime
import TalCash.Node.Mempool
import TalCash.Node.Mining
import TalCash.Node.Moves
import TalCash.Node.NodeService
import TalCash.Node.Orphans
import TalCash.Node.Passed
import TalCash.Node.PoolRuns
import TalCash.Node.Queues
import TalCash.Node.Raising
import TalCash.Node.Refusals
import TalCash.Node.Replaying
import TalCash.Node.Rows
import TalCash.Node.Sealing
import TalCash.Node.Selection
import TalCash.Node.Service
import TalCash.Node.Statuses
import TalCash.Node.Store
import TalCash.Node.Submit
import TalCash.Node.Switch
import TalCash.Node.Tallied
import TalCash.Node.Template
import TalCash.Node.Timely
import TalCash.Node.Trimming
import TalCash.Node.Waiting
import TalCash.Node.Writes
import TalCash.Wallet.Discover
import TalCash.Wallet.LinkRoundTrip
import TalCash.Wallet.PaymentLink
import TalCash.Wallet.Wallet
