import RaftKV.Raft.Commits

namespace RaftKV.Raft.Inaugurations

open Raft.Durability Raft.Commits

variable {ev : Event} {a c c' : Core}

section Winning

end Winning

section Offers

/-- What a core has for a peer: its snapshot if the peer continues below it, otherwise its log
from there. -/
inductive Offers (c : Core) (peer : ID) : Message → Prop
  | snapshot {req : InstallSnapshotRequest} (h : nextFor c peer ≤ c.snapIndex)
      (hterm : req.term = c.term)
      (hindex : req.lastIncludedIndex = (loadRaftSnapshot c.disk).lastIndex) :
      Offers c peer (.installSnapshot req)
  | append {req : AppendEntriesRequest} (h : c.snapIndex < nextFor c peer)
      (hterm : req.term = c.term) (hprev : req.prevLogIndex = nextFor c peer - 1)
      (hprevTerm : req.prevLogTerm = termAt c (nextFor c peer - 1))
      (hentries : req.entries = (appendRequest c (nextFor c peer)).entries) :
      Offers c peer (.appendEntries req)

end Offers

end RaftKV.Raft.Inaugurations
