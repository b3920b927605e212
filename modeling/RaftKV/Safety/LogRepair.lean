import RaftKV.Raft.Repairs
import RaftKV.Safety.Followers
import RaftKV.Safety.ReadBarriers

namespace RaftKV.Safety.LogRepair

open Consensus.Prefix
open Consensus.Protocol (Lead)
open Consensus.Completeness Consensus.Commitment
open Distributed.Network
open Raft
open Raft.Durability Raft.Cluster Raft.Histories Raft.Provenance Raft.Addressees Raft.Inaugurations
open Raft.Repairs
open Refinement.Relation Refinement.Following Refinement.Runs
open Safety.Elections Safety.FixedMembership Safety.Followers Safety.ReadBarriers

variable {req : AppendEntriesRequest} {c c' : Core} {g : Ghost} {i : ID} {sent : List Packet}
variable {M : Members} {n : Nat} {p : Packet}

section Exchanges

def between (i j : ID) (p : Packet) : Bool :=
  p.src = i ∧ p.dest = j ∨ p.src = j ∧ p.dest = i

variable {D : Deployment} {s : CoreState} {i j : ID} {c c' : Core}

end Exchanges

section Logs

variable {D : Deployment} {s : CoreState} {g : Ghost} {T : Snapshot → List Entry → Prop}
variable {i j : ID} {l f : Core}

end Logs

section Rounds

variable {D : Deployment} {s : CoreState} {i j : ID} {l l' f f' : Core}

end Rounds

section Inauguration

variable {D : Deployment} {s s₀ : CoreState} {j : ID} {f : Core} {k : CoreCall}

end Inauguration

end RaftKV.Safety.LogRepair
