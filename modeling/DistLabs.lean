import DistLabs.Lib.Machine
import DistLabs.Lib.Quorum
import DistLabs.Lib.Slice
import DistLabs.Consensus.Ballot
import DistLabs.Consensus.Chronicle
import DistLabs.Consensus.ReplicatedLog
import DistLabs.Consensus.Completeness
import DistLabs.Raft.Basic
import DistLabs.Raft.Node
import DistLabs.Raft.NodeSpec
import DistLabs.Raft.Poll
import DistLabs.Raft.Cluster
import DistLabs.Raft.Steps
import DistLabs.Raft.Durability
import DistLabs.Raft.Recovery
import DistLabs.Raft.Goroutines
import DistLabs.Raft.Election
import DistLabs.Raft.Voting
import DistLabs.Raft.Speaker
import DistLabs.Raft.Leadership
import DistLabs.Raft.NextIndex
import DistLabs.Raft.Uncompacted
import DistLabs.Raft.Commit
import DistLabs.Raft.Slicing
import DistLabs.Raft.Replication
import DistLabs.Raft.Safety
import DistLabs.Raft.Acceptance
import DistLabs.Raft.CommitProgress
import DistLabs.Raft.Alignment
import DistLabs.Raft.SnapshotMerge
import DistLabs.Raft.TermSearch
import DistLabs.Raft.SendRange
import DistLabs.Raft.Backtracking
import DistLabs.Lib.Linearizability
import DistLabs.Lib.DoublyLinked
import DistLabs.Lib.MemoSearch
import DistLabs.Lib.HistorySearch
import DistLabs.Lib.Locality
import DistLabs.Porcupine.Bitset
import DistLabs.Porcupine.Checker
import DistLabs.Porcupine.Linking
import DistLabs.Porcupine.Search
import DistLabs.Porcupine.Verdict
import DistLabs.Porcupine.Operations
import DistLabs.Porcupine.Parallel
import DistLabs.Porcupine.Events
import DistLabs.KvSrv.Server
import DistLabs.KvSrv.Clerk
import DistLabs.KvSrv.Atomicity
import DistLabs.Porcupine.KeyValue
import DistLabs.KvSrv.Tester
import DistLabs.LabRpc.Network
import DistLabs.LabRpc.Standing
import DistLabs.LabRpc.Delivery
import DistLabs.KvSrv.Remote
import DistLabs.KvSrv.RemoteRefinement
import DistLabs.Lib.Ledger
import DistLabs.Lib.ReduceByKey
import DistLabs.MapReduce.Coordinator
import DistLabs.MapReduce.Custody
import DistLabs.MapReduce.Invariant
import DistLabs.MapReduce.Barrier
import DistLabs.MapReduce.Rendezvous
import DistLabs.MapReduce.Worker
import DistLabs.MapReduce.Sequential
import DistLabs.MapReduce.Job
import DistLabs.MapReduce.Output
import DistLabs.MapReduce.Intermediate
