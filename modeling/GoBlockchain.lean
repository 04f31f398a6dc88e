import GoBlockchain.Lib.Transition
import GoBlockchain.Lib.LinkWalk
import GoBlockchain.Lib.Hex
import GoBlockchain.Lib.WrapSum
import GoBlockchain.Lib.SlidingWindow
import GoBlockchain.Lib.Scan
import GoBlockchain.Lib.ByteCodec
import GoBlockchain.Lib.IndexList
import GoBlockchain.Lib.Grouping
import GoBlockchain.Lib.Tally
import GoBlockchain.Lib.KeyedLog
import GoBlockchain.Lib.Interleaving
import GoBlockchain.Lib.Faults
import GoBlockchain.Lib.HashTree
import GoBlockchain.Lib.HashChain
import GoBlockchain.Lib.CatchUp
import GoBlockchain.Lib.Radix
import GoBlockchain.Lib.Deletion
import GoBlockchain.Lib.Replay
import GoBlockchain.Lib.Resume
import GoBlockchain.Lib.Draining
import GoBlockchain.Lib.Delivery
import GoBlockchain.Lib.Roster
import GoBlockchain.Core.Basic
import GoBlockchain.Core.Transaction
import GoBlockchain.Core.Sample
import GoBlockchain.Core.Wallet
import GoBlockchain.Core.Spending
import GoBlockchain.Storage.Bolt
import GoBlockchain.Core.Merkle
import GoBlockchain.Core.Consensus
import GoBlockchain.Core.Authority
import GoBlockchain.Core.Blockchain
import GoBlockchain.Core.Runs
import GoBlockchain.Core.Reception
import GoBlockchain.Core.Acceptance
import GoBlockchain.Core.NonceSearch
import GoBlockchain.Core.Header
import GoBlockchain.Core.Mining
import GoBlockchain.Core.Panics
import GoBlockchain.Core.Retarget
import GoBlockchain.Core.Agreement
import GoBlockchain.Core.Walking
import GoBlockchain.Core.Handlers
import GoBlockchain.Core.Identity
import GoBlockchain.Core.Signing
import GoBlockchain.Core.Escrow
import GoBlockchain.Core.Unspent
import GoBlockchain.Core.Supply
import GoBlockchain.Core.SameBlock
import GoBlockchain.Core.MinedRuns
import GoBlockchain.Core.UtxoSet
import GoBlockchain.Core.Selection
import GoBlockchain.Core.Builders
import GoBlockchain.Core.Settlement
import GoBlockchain.Core.Addresses
import GoBlockchain.Core.Indexing
import GoBlockchain.Core.Incremental
import GoBlockchain.Core.PartialWrites
import GoBlockchain.Network.Server
import GoBlockchain.Network.Issuance
import GoBlockchain.Network.Supply
import GoBlockchain.Network.Connection
import GoBlockchain.Network.Messages
import GoBlockchain.Network.Mint
import GoBlockchain.Network.Acts
import GoBlockchain.Network.Peers
import GoBlockchain.Network.Exchange
import GoBlockchain.Network.Gossip
import GoBlockchain.Network.Download
import GoBlockchain.Network.Lawful
import GoBlockchain.Network.Provenance
import GoBlockchain.Network.Propagation
import GoBlockchain.Network.Announcements
import GoBlockchain.Network.Sections
import GoBlockchain.Network.Cancellation
import GoBlockchain.Network.Mempool
import GoBlockchain.Network.Creation
import GoBlockchain.Network.MiningLoop
import GoBlockchain.Network.Stream
import GoBlockchain.Network.Subscribers
import GoBlockchain.Network.Proto
import GoBlockchain.Network.Balance
import GoBlockchain.Firewall.Policy
import GoBlockchain.Firewall.Evaluate
import GoBlockchain.Firewall.Rejection
import GoBlockchain.Mcp.Tools
import GoBlockchain.Mcp.Keyring
import GoBlockchain.Mcp.Messages
import GoBlockchain.Mcp.Process
import GoBlockchain.Indexer.Store
import GoBlockchain.Indexer.Reconnect
import GoBlockchain.Indexer.Spends
import GoBlockchain.Indexer.Expiry
import GoBlockchain.Indexer.Statistics
import GoBlockchain.Indexer.Pipeline
import GoBlockchain.Dashboard.Broker
