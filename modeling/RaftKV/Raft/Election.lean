import RaftKV.Raft.Replication

namespace RaftKV.Raft

/-- Ask every peer of the configuration the same question. -/
def broadcast (c : Core) (msg : Message) : Core :=
  (peerIDs c).foldl (fun c id => send c id msg) c

def voteRequest (c : Core) (term : Nat) (preVote : Bool) : RequestVoteRequest where
  term := term
  candidateId := c.cfg.id
  lastLogIndex := lastLogIndex c
  lastLogTerm := lastLogTerm c
  preVote := preVote

/-- Every peer is assumed to have the whole log until it says otherwise. -/
def initialNext (c : Core) (id : ID) : Option Nat :=
  if id ∈ peerIDs c then some (lastLogIndex c + 1) else none

def noopEntry (c : Core) : Entry where
  term := c.term
  index := lastLogIndex c + 1
  type := .noop
  command := noBytes

def becomeLeader (c : Core) : Core :=
  { c with
    role := .leader
    leaderID := c.cfg.id
    heartbeatElapsed := 0
    preVotes := none
    transferTarget := 0
    nextIndex := initialNext c
    matchIndex := fun _ => none }

def maybeWinElection (c : Core) : Core :=
  if c.role ≠ .candidate ∨ c.votes.card < majority c then
    c
  else
    let c := becomeLeader c
    maybeAdvanceCommit (broadcastAppends (appendOwn c (noopEntry c)))

/-- A new term, a vote for itself on disk. -/
def becomeCandidate (c : Core) : Core :=
  saveState <| resetElectionTimer
    { c with
      role := .candidate
      term := c.term + 1
      votedFor := c.cfg.id
      leaderID := 0
      votes := {c.cfg.id} }

def startCampaign (c : Core) : Core :=
  let c := becomeCandidate c
  maybeWinElection (broadcast c (.requestVote (voteRequest c c.term false)))

def maybeWinPreVote (c : Core) : Core :=
  match c.preVotes with
  | none => c
  | some votes =>
      if votes.card < majority c then c
      else startCampaign { c with preVotes := none }

def becomePreCandidate (c : Core) : Core :=
  resetElectionTimer { c with preVotes := some {c.cfg.id} }

def startPreCampaign (c : Core) : Core :=
  let c := becomePreCandidate c
  maybeWinPreVote (broadcast c (.requestVote (voteRequest c (c.term + 1) true)))

/-- A leader is in contact with itself; a leadership transfer that does not
complete in time is given up. -/
def leaderClock (c : Core) : Core :=
  { c with
    ticksSinceLeader := 0
    transferTicks := if c.transferTarget ≠ 0 then c.transferTicks - 1 else c.transferTicks
    transferTarget :=
      if c.transferTarget ≠ 0 ∧ c.transferTicks - 1 = 0 then 0 else c.transferTarget
    heartbeatElapsed := c.heartbeatElapsed + 1 }

def leaderTick (c : Core) : Core :=
  let c := leaderClock c
  if c.cfg.heartbeatTicks ≤ c.heartbeatElapsed then
    broadcastAppends { c with heartbeatElapsed := 0 }
  else c

/-- A node outside the configuration does not start elections when it times out. -/
def electionTimedOut (c : Core) : Core :=
  if isMember c = false then resetElectionTimer c
  else if c.cfg.disablePreVote then startCampaign c
  else startPreCampaign c

def followerClock (c : Core) : Core :=
  { c with
    electionElapsed := c.electionElapsed + 1
    ticksSinceLeader := c.ticksSinceLeader + 1 }

def tick (c : Core) : Core :=
  if c.role = .leader then
    leaderTick c
  else
    let c := followerClock c
    if c.electionTimeout ≤ c.electionElapsed then electionTimedOut c else c

def logUpToDate (c : Core) (lastIndex lastTerm : Nat) : Bool :=
  if lastTerm ≠ lastLogTerm c then lastLogTerm c < lastTerm else lastLogIndex c ≤ lastIndex

def handlePreVote (c : Core) (req : RequestVoteRequest) : RequestVoteResponse where
  term := c.term
  voteGranted :=
    if c.leaderID ≠ 0 ∧ c.ticksSinceLeader < c.cfg.electionTicksMin then false
    else c.term < req.term ∧ logUpToDate c req.lastLogIndex req.lastLogTerm

/-- The vote is on disk before the response exists. -/
def grantVote (c : Core) (candidate : ID) : Core :=
  { resetElectionTimer c with
    votedFor := candidate
    disk := if c.votedFor ≠ candidate then saveTermAndVote c.disk c.term candidate else c.disk }

def handleRequestVote (c : Core) (req : RequestVoteRequest) : Core × RequestVoteResponse :=
  if req.preVote then
    (c, handlePreVote c req)
  else
    let c := adoptTerm c req.term
    if req.term < c.term then
      (c, { term := c.term, voteGranted := false })
    else if (c.votedFor = noVote ∨ c.votedFor = req.candidateId) ∧
        logUpToDate c req.lastLogIndex req.lastLogTerm then
      (grantVote c req.candidateId, { term := c.term, voteGranted := true })
    else
      (c, { term := c.term, voteGranted := false })

def handleVoteResponse (c : Core) (sender : ID) (campaignTerm : Nat)
    (resp : RequestVoteResponse) : Core :=
  if c.term < resp.term then
    stepDown c resp.term
  else if c.role ≠ .candidate ∨ campaignTerm ≠ c.term then
    c
  else if resp.voteGranted then
    maybeWinElection { c with votes := insert sender c.votes }
  else c

def handlePreVoteResponse (c : Core) (sender : ID) (askedTerm : Nat)
    (resp : RequestVoteResponse) : Core :=
  if c.term < resp.term then
    stepDown c resp.term
  else
    match c.preVotes with
    | none => c
    | some votes =>
        if c.role ≠ .follower ∨ askedTerm ≠ c.term + 1 then c
        else if resp.voteGranted then
          maybeWinPreVote { c with preVotes := some (insert sender votes) }
        else c

def transferLeadership (c : Core) (target : ID) : Core × Except RaftError Unit :=
  if c.role ≠ .leader then
    (c, .error (.notLeader c.leaderID))
  else if target = c.cfg.id then
    (c, .ok ())
  else if target ∉ c.members then
    (c, .error (.transferTarget target))
  else
    let c := { c with transferTarget := target, transferTicks := c.cfg.electionTicksMax }
    if matchIndexOf c target = lastLogIndex c then (sendTimeoutNow c target, .ok ())
    else (sendAppend c target, .ok ())

def handleTimeoutNow (c : Core) (req : TimeoutNowRequest) : Core :=
  let c := adoptTerm c req.term
  if req.term < c.term then c else startCampaign c

end RaftKV.Raft
