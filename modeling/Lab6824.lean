import Lab6824.Lib.Lists
import Lab6824.Lib.System
import Lab6824.Lib.Quorum
import Lab6824.Lib.Replication
import Lab6824.Lib.Completeness
import Lab6824.Lib.Segment
import Lab6824.Lib.GoMap
import Lab6824.Lib.Loads
import Lab6824.Lib.Levelling
import Lab6824.Lib.WaitChan
import Lab6824.Lib.Waiters
import Lab6824.Lib.Sequencer
import Lab6824.Lib.Service
import Lab6824.Lib.Desk
import Lab6824.Lib.Sessions
import Lab6824.Lib.Linearizable
import Lab6824.Lib.Loop
import Lab6824.Lib.Marks
import Lab6824.Lib.Search
import Lab6824.Lib.Links
import Lab6824.Lib.Sorting
import Lab6824.Lib.Intervals
import Lab6824.Raft.State
import Lab6824.Raft.Handlers
import Lab6824.Raft.Cluster
import Lab6824.Raft.Sections
import Lab6824.Raft.Durable
import Lab6824.Raft.Boundary
import Lab6824.Raft.Compaction
import Lab6824.Raft.Votes
import Lab6824.Raft.Election
import Lab6824.Raft.Flat
import Lab6824.Raft.Merge
import Lab6824.Raft.Simulation
import Lab6824.Raft.Refinement
import Lab6824.Raft.LogMatching
import Lab6824.Raft.Indices
import Lab6824.Raft.Safety
import Lab6824.Raft.Stale
import Lab6824.Raft.Append
import Lab6824.Raft.Install
import Lab6824.Raft.Leader
import Lab6824.Raft.Leaders
import Lab6824.Raft.Commit
import Lab6824.Raft.NextIndex
import Lab6824.Raft.Origins
import Lab6824.Raft.BackUp
import Lab6824.Raft.Applier
import Lab6824.Raft.Delivery
import Lab6824.Raft.Segments
import Lab6824.Raft.Sequencing
import Lab6824.Raft.MatchIndex
import Lab6824.Hosts
import Lab6824.KvRaft.Server
import Lab6824.KvRaft.Once
import Lab6824.KvRaft.Snapshots
import Lab6824.KvRaft.Cluster
import Lab6824.KvRaft.History
import Lab6824.KvRaft.Linearizable
import Lab6824.KvRaft.Stack
import Lab6824.ShardCtrler.Config
import Lab6824.ShardCtrler.Balance
import Lab6824.ShardCtrler.Owners
import Lab6824.ShardCtrler.Transfers
import Lab6824.ShardCtrler.Server
import Lab6824.ShardCtrler.Replicas
import Lab6824.ShardCtrler.Requests
import Lab6824.Answers
import Lab6824.Porcupine.Model
import Lab6824.Porcupine.Bitset
import Lab6824.Porcupine.Entries
import Lab6824.Porcupine.Nodes
import Lab6824.Porcupine.Single
import Lab6824.Porcupine.Refines
import Lab6824.Porcupine.Decides
import Lab6824.Porcupine.Parallel
import Lab6824.Porcupine.Schedules
import Lab6824.Porcupine.Operations
import Lab6824.Porcupine.Events
import Lab6824.Porcupine.Kv
import Lab6824.Porcupine.Recorded
