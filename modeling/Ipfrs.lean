import Ipfrs.Core.DagCborCanonical
import Ipfrs.Core.DagCborOrder
import Ipfrs.Core.DagCborAllocation
import Ipfrs.Core.ChunkTotality
import Ipfrs.Core.MerkleBatchSoundness
import Ipfrs.Core.ManifestTheorems
import Ipfrs.Core.BlockCacheOrder
import Ipfrs.Core.DagJsonTheorems
import Ipfrs.Core.StreamingOrder
import Ipfrs.Core.CarChunked
import Ipfrs.Knowledge.Gc
import Ipfrs.Knowledge.Petgraph
import Ipfrs.Knowledge.ProjectTheorems
import Ipfrs.Knowledge.Persistence
import Ipfrs.TensorLogic.SymbolicRoundTrip
import Ipfrs.TensorLogic.Unifiers
import Ipfrs.TensorLogic.ProofSearch
import Ipfrs.TensorLogic.ProofChecker
import Ipfrs.TensorLogic.Memo
import Ipfrs.TensorLogic.FixpointTheorems
import Ipfrs.TensorLogic.RuleCid
import Ipfrs.TensorLogic.DatalogRoundTrip
import Ipfrs.Storage.WalFaults
import Ipfrs.Storage.WalCheckpoint
import Ipfrs.Storage.WalAtomic
import Ipfrs.Storage.TransactionLog
import Ipfrs.Storage.VersionControlCalls
import Ipfrs.Storage.BlockFragments
import Ipfrs.Storage.CacheInterleaving
import Ipfrs.Storage.CoalesceTheorems
import Ipfrs.Storage.RaftCommit
import Ipfrs.Node.GcEstimate
import Ipfrs.Node.Fsck
import Ipfrs.Compute.TopologicalSort
import Ipfrs.Compute.BatchScheduler
import Ipfrs.Compute.Subgraph
import Ipfrs.Compute.Cse
import Ipfrs.Compute.PipelineTheorems
import Ipfrs.Compute.Collectives
import Ipfrs.Compute.CommunicationScheduleTheorems
import Ipfrs.Storage.DedupTheorems
import Ipfrs.Storage.EventualConsistency
import Ipfrs.Storage.GcLimit
import Ipfrs.Transport.SessionLocks
import Ipfrs.Transport.RangeAssembler
import Ipfrs.Transport.Erasure
import Ipfrs.Transport.ArrowDeframer
import Ipfrs.Transport.WantListTheorems
import Ipfrs.Network.Fragmentation
import Ipfrs.Network.MultiplexerPair
import Ipfrs.TensorLogic.SymbolicCalculus
import Ipfrs.TensorLogic.EpistemicTheorems
