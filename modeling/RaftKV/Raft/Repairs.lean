import RaftKV.Raft.Appends
import RaftKV.Raft.Inaugurations
import RaftKV.Raft.PreVotes

namespace RaftKV.Raft.Repairs

open Raft.Durability Raft.Commits Raft.Appends Raft.Inaugurations
open Raft.PreVotes (role_maybeAdvanceCommit)

variable {c c' l : Core} {peer : ID} {term : Nat}

section Searches

end Searches

section Followers

variable {f : Core} {req : AppendEntriesRequest}

/-- A follower's core once it has recognised the sender. -/
def recognized (f : Core) (req : AppendEntriesRequest) : Core :=
  recognizeLeader (adoptTerm f req.term) req.leaderId

/-- How a follower answers a request of its term or a later one. -/
inductive Answers (f : Core) (req : AppendEntriesRequest) : Core → AppendEntriesResponse → Prop
  | short (hlt : lastLogIndex f < req.prevLogIndex) {resp : AppendEntriesResponse}
      (hterm : resp.term = req.term) (hfail : resp.success = false)
      (hhint : resp.conflictTerm = 0) (hindex : resp.conflictIndex = lastLogIndex f + 1) :
      Answers f req (recognized f req) resp
  | conflict (hpos : 0 < req.prevLogIndex) (hle : req.prevLogIndex ≤ lastLogIndex f)
      (hne : termAt f req.prevLogIndex ≠ req.prevLogTerm) {resp : AppendEntriesResponse}
      (hterm : resp.term = req.term) (hfail : resp.success = false)
      (hhint : resp.conflictTerm = termAt f req.prevLogIndex)
      (hindex : resp.conflictIndex =
        firstIndexOfTerm f (termAt f req.prevLogIndex) req.prevLogIndex) :
      Answers f req (recognized f req) resp
  | accepted {f' : Core} (hsnap : f'.snapIndex = f.snapIndex) (hf : f'.term = req.term)
      {resp : AppendEntriesResponse} (hterm : resp.term = req.term)
      (hok : resp.success = true) : Answers f req f' resp

end Followers

section Leaders

variable {req : AppendEntriesRequest} {resp : AppendEntriesResponse}

/-- A leader after an answer of a peer: as before but for what it knows of the peer, and with
the next offer to it on the way, unless it has nothing more to offer. -/
structure Continues (l l' : Core) (peer : ID) : Prop where
  role : l'.role = .leader
  log : SameLog l l'
  target : l'.transferTarget = l.transferTarget
  outbox : l'.outbox = [] ∧ lastLogIndex l' < nextIndexOf l' peer ∨
    ∃ msg, l'.outbox = [⟨peer, msg⟩] ∧ Offers l' peer msg

theorem frontier_noteMatch (c : Core) (peer : ID) (m : Nat) :
    nextIndexOf (noteMatch c peer m) peer = m + 1 ∧ matchIndexOf (noteMatch c peer m) peer = m := by
  simp [noteMatch, nextIndexOf, matchIndexOf]

end Leaders

end RaftKV.Raft.Repairs
