import RaftKV.Safety.FixedMembership
import RaftKV.Codec.Record
import RaftKV.Raft.Barriers
import RaftKV.Raft.Files
import RaftKV.Raft.Provenance
import RaftKV.Safety.MembershipChanges
import RaftKV.Safety.ReadQuorums
import RaftKV.Safety.Recovery
import RaftKV.KV.Sessions
import RaftKV.Raft.Deliveries
import RaftKV.Raft.Pledges
import RaftKV.Refinement.Projection
import RaftKV.Safety.ActiveMembership
import RaftKV.Safety.CommitRule
import RaftKV.Safety.Frontiers
import RaftKV.Safety.NewConfigurations
import RaftKV.Safety.Proposals
import RaftKV.Raft.Appends
import RaftKV.Raft.LogFile
import RaftKV.Raft.PreVotes
import RaftKV.Raft.Encodings
import RaftKV.Store.Recovery
import RaftKV.Store.Replay
import RaftKV.Store.Rotation
import RaftKV.Store.Faults
import RaftKV.Store.Images
import RaftKV.Safety.Indexing
import RaftKV.Safety.Proposers
import RaftKV.Safety.LinearizableReads
import RaftKV.Safety.LogRepair
import RaftKV.Safety.Replicas
import RaftKV.Safety.Reconfiguration
import RaftKV.KV.Envelopes
import RaftKV.KV.Agreement
import RaftKV.KV.Acknowledgements
import RaftKV.KV.Sharding
import RaftKV.Nemesis.Workloads
import RaftKV.Nemesis.Checker
