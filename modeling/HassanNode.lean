import HassanNode.Ledger.Block
import HassanNode.Lib.Map
import HassanNode.Ledger.Block
import HassanNode.Lib.Map
import HassanNode.Ledger.Block
import HassanNode.Ledger.Utxo
import HassanNode.Ledger.Registry
import HassanNode.Ledger.RegistrySound
import HassanNode.Ledger.State
import HassanNode.Ledger.Records
import HassanNode.Ledger.UtxoSound
import HassanNode.Lib.OneShot
import HassanNode.Ledger.ReplaySound
import HassanNode.Ledger.Ids
import HassanNode.Lib.Search
import HassanNode.Consensus.Ghostdag
import HassanNode.Consensus.Reachability
import HassanNode.Consensus.ReachabilitySound
import HassanNode.Consensus.Covering
import HassanNode.Consensus.ChainState
import HassanNode.Consensus.AddBlock
import HassanNode.Consensus.Past
import HassanNode.Consensus.Coloring
import HassanNode.Consensus.DagInv
import HassanNode.Consensus.Admission
import HassanNode.Consensus.Order
import HassanNode.Consensus.Finality
import HassanNode.Consensus.Archival
import HassanNode.Ledger.Executors
import HassanNode.Consensus.ArchivalRuns
import HassanNode.Consensus.Pruning
import HassanNode.Consensus.Values
import HassanNode.Consensus.History
import HassanNode.Consensus.Blues
import HassanNode.Consensus.Mining
import HassanNode.Consensus.ReplayOrder
import HassanNode.Consensus.Views
import HassanNode.Consensus.OracleRuns
import HassanNode.Ledger.Commitment
import HassanNode.Consensus.ColdStart
import HassanNode.Lib.Checked
import HassanNode.Consensus.SuperProof
import HassanNode.Consensus.SuperProofSound
import HassanNode.Consensus.Interlinks
import HassanNode.Consensus.Heights
import HassanNode.Consensus.LinearProof
import HassanNode.Consensus.SuperProofAccepts
import HassanNode.Consensus.SuperProofBuilt
import HassanNode.Net.Node
import HassanNode.Net.Wire
import HassanNode.Net.Exchange
import HassanNode.Net.Adoption
import HassanNode.Net.Replies
import HassanNode.Lib.Postorder
import HassanNode.Core.Spelling
import HassanNode.Ledger.Unlock
import HassanNode.Ledger.Unlocking
import HassanNode.Ledger.Vault
import HassanNode.Ledger.Atomicity
import HassanNode.Ledger.Titles
import HassanNode.Ledger.Debits
import HassanNode.Consensus.AccountRuns
import HassanNode.Net.Intake
import HassanNode.Net.Downloads
import HassanNode.Ledger.Signing
import HassanNode.Lib.InPlace
import HassanNode.Ledger.Contained
import HassanNode.Consensus.Mempool
import HassanNode.Ledger.Form
import HassanNode.Ledger.Malleation
import HassanNode.Consensus.MempoolSteps
import HassanNode.Consensus.Submissions
import HassanNode.Consensus.MempoolLimits
import HassanNode.Consensus.MempoolRuns
import HassanNode.Consensus.Queues
import HassanNode.Consensus.Template
import HassanNode.Consensus.Producer
import HassanNode.Ledger.Work
import HassanNode.Consensus.Difficulty
import HassanNode.Consensus.Issuance
import HassanNode.Net.Headers
import HassanNode.Consensus.Replacement
import HassanNode.Escrow.Law
import HassanNode.Lib.Digits
import HassanNode.Core.Bech32m
import HassanNode.Ledger.Drafts
import HassanNode.Escrow.Builders
import HassanNode.Lib.Tasks
import HassanNode.Ledger.Reorder
import HassanNode.Consensus.Selection
import HassanNode.Core.Codec
import HassanNode.Core.Typos
import HassanNode.Lib.Chunks
import HassanNode.Net.Framing
import HassanNode.Net.Dialing
import HassanNode.Net.AddrMan
import HassanNode.Lib.Windows
import HassanNode.Net.RateLimit
import HassanNode.Net.Socks
import HassanNode.Net.Stratum
import HassanNode.Consensus.TopologicalOrder
import HassanNode.Consensus.ChainHeights
import HassanNode.Consensus.Removed
import HassanNode.Lib.Mirror
import HassanNode.Net.HttpFront
import HassanNode.Net.Indexer
import HassanNode.Consensus.SupplyRuns
import HassanNode.Consensus.Alike
import HassanNode.Consensus.BodyPruning
import HassanNode.Lib.RollingFile
import HassanNode.Store.Snapshot
import HassanNode.Store.Reload
import HassanNode.Store.CrashSafe
import HassanNode.Store.Reload
import HassanNode.Lib.Dialogue
import HassanNode.Lib.ExecutionTrace
import HassanNode.Consensus.SequentialWork
import HassanNode.Net.Prefilter
